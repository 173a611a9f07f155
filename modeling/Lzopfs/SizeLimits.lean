import Lzopfs.BlockSizes
import Lzopfs.Bzip2Index
import Lzopfs.GzipSpacing
import Lzopfs.PixzContents

/-!
# When the sizes of blocks are kept

For an xz file the limit is 4 GiB for what its index records of each block. For bzip2 it is that of
what a block decompresses to. For gzip it follows from how far apart the blocks of the index are:
the block factor and the output of a single block must stay below 4 GiB together.
-/

namespace Lzopfs

open Verify FileHandle

namespace PixzFile

def extent (b : IndexBlock) : Extent :=
  ⟨b.uncompressed_file_offset, b.uncompressed_size, b.compressed_file_offset, b.total_size⟩

/-- The numbers that iterators show of the blocks that are not empty. -/
def extents (idx : LzmaIndex) : List Extent := (nonempty idx.blocks).map extent

theorem map_block (idx : LzmaIndex) :
    (blocks idx).map PixzBlock.block = (extents idx).map Extent.block := by
  rw [blocks_eq, extents, List.map_map, List.map_map]
  rfl

end PixzFile

namespace Bzip2File

variable {bz : Bzlib} {before : Nat → UInt8} {fuel : Nat} {fh g : FileHandle}
  {mBlocks : List Bzip2Block} {bl : List BlockBoundary}

end Bzip2File

namespace GzipFile

/-- The numbers behind recorded blocks, each of which ends where the next one starts. -/
def extents : List Block → List Extent
  | a :: b :: bs => ⟨a.uoff, b.uoff - a.uoff, a.coff, b.coff - a.coff⟩ :: extents (b :: bs)
  | _ => []

variable {ms : List Member} {gap : Nat} {bs : List GzipBlock}

/-- Stops with no block in between that starts too far behind the first one are less than 4 GiB
apart, in the output and in the file. -/
def Near (ms : List Member) (gap : Nat) : Prop :=
  ∀ p q, Span ms gap p q → q.opos - p.opos < 2 ^ 32 ∧ q.ipos - p.ipos < 2 ^ 32

/-- The numbers of the records of a closed list fit, if stops are near enough to each other. -/
theorem Closed.fits {file : Buffer} (hc : Consists file ms) (hnear : Near ms gap)
    (h : Closed ms gap bs) :
    ∀ e ∈ extents ((bs ++ [endBlock ms]).map GzipBlock.block), e.Fits := by
  rw [Closed] at h
  generalize bs ++ [endBlock ms] = l at h
  induction l with
  | nil => exact fun _ he => absurd he List.not_mem_nil
  | cons a l ih =>
      cases l with
      | nil => exact fun _ he => absurd he List.not_mem_nil
      | cons b l =>
          obtain ⟨⟨-, p, q, hspan, hp, hq⟩, hrest⟩ := List.isChain_cons_cons.mp h
          refine List.forall_mem_cons.mpr ⟨?_, ih hrest⟩
          obtain ⟨hopos, hipos⟩ := hnear p q hspan
          obtain ⟨holt, hilt⟩ := hc.place_lt hspan.stop
          rw [hp.1, hp.2, hq.1, hq.2]
          constructor
          · dsimp only
            rwa [toNat_ofNat_sub hspan.opos_le holt]
          · dsimp only
            rwa [toNat_ofNat_sub hspan.ipos_le hilt]

variable {z : Zlib} {wild : Reader z → UInt8} {mPath : String} {fh : FileHandle}

end GzipFile

namespace PixzFile

end PixzFile

namespace Bzip2File

end Bzip2File

namespace PixzFile

end PixzFile

end Lzopfs
