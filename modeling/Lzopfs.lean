import Lzopfs.LzopFormat
import Lzopfs.GzipAttempt
import Lzopfs.GzipSpeculation
import Lzopfs.LRUMap
import Lzopfs.OpenCompressedFile
import Lzopfs.FileList
import Lzopfs.IndexRoot
import Lzopfs.ZstdFile
import Lzopfs.Bzip2File
import Lzopfs.Bzip2Align
import Lzopfs.Bzip2Pairing
import Lzopfs.PixzFile
import Lzopfs.PixzIndex
import Lzopfs.BlockSizes
import Lzopfs.ThreadPool
import Lzopfs.BlockCache
import Lzopfs.BlockContent
import Lzopfs.IndexPrefix
import Lzopfs.IndexRoundTrip
import Lzopfs.ReadRequest
import Lzopfs.DecompressBlock
import Lzopfs.GzipWindow
import Lzopfs.GzipTermination
import Lzopfs.GzipBits
import Lzopfs.GzipSpacing
import Lzopfs.Bzip2FirstBoundary
import Lzopfs.Bzip2Candidates
import Lzopfs.Bzip2Streams
import Lzopfs.Bzip2Level
import Lzopfs.Bzip2Index
import Lzopfs.FuseProgress
import Lzopfs.Initialize
import Lzopfs.LzopContents
import Lzopfs.ZstdContents
import Lzopfs.PixzContents
import Lzopfs.Packed
import Lzopfs.SizeLimits
