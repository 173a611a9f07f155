import Lzopfs.Bzip2Candidates

/-!
# Files made of bzip2 streams

The blocks of a bzip2 stream follow each other bit by bit; only the stream as a whole is
filled up to a byte border. From the magic number at the end of a stream to the header of
the next one the search finds nothing, whatever the checksum between them is.
-/

namespace Lzopfs

open Verify FileHandle

namespace Bzip2File

/-- A stream: the level in its header, the bits of its blocks behind their magic numbers,
and the checksum at its end. -/
structure CompressedStream where
  level : UInt8
  blocks : List (List Bool)
  crc : List Bool
  digit : 0x31 ≤ level ∧ level ≤ 0x39
  length_crc : crc.length = 32

namespace CompressedStream

def body (s : CompressedStream) : List Bool := s.blocks.flatMap fun b => magicBits BlockMagic ++ b

/-- How many bits fill the last byte up. -/
def pad (s : CompressedStream) : Nat := (8 - s.body.length % 8) % 8

/-- The end of a stream: the magic number, the checksum and the padding. -/
def footer (s : CompressedStream) : List Bool :=
  magicBits EOSMagic ++ (s.crc ++ List.replicate s.pad false)

def bits (s : CompressedStream) : List Bool :=
  toBits (Magic ++ [s.level]) ++ (s.body ++ s.footer)

end CompressedStream

open CompressedStream

variable {s s' : CompressedStream} {front back streams : List CompressedStream} {data : Buffer}
  {start : Nat}

theorem length_footer (s : CompressedStream) : s.footer.length = 80 + s.pad := by
  rw [footer, List.length_append, List.length_append, length_magicBits, s.length_crc,
    List.length_replicate]
  omega

/-- The magic number behind the header: that of a block, or the one at the end. -/
def CompressedStream.first (s : CompressedStream) : UInt64 :=
  if s.blocks = [] then EOSMagic else BlockMagic

/-- What is known of the bits from the end of a stream on: not the checksum, and of the next
level only that it is a digit. -/
def known (pad : Nat) : List (Option Bool) :=
  (magicBits EOSMagic).map some ++
    (List.replicate 32 none ++ ((List.replicate pad false).map some ++
      ((toBits Magic ++ [false, false, true, true]).map some ++
        (List.replicate 4 none ++ [some false, some false]))))

end Bzip2File

end Lzopfs
