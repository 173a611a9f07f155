import Lzopfs.ReadOnlyFs

/-!
# What a file contains

A file of either kind goes through a list of blocks that lie one after the other, and its
contents are what these decompress to. A lookup leads to the block that holds the offset,
or fails at the end of the file. Any deliveries that make up the blocks stepped through
leave the bytes asked for in the buffer, in whatever order they come.
-/

namespace Lzopfs

open Verify BlockListCompFile OpenCompressedFile

namespace PixzFile

variable {idx : LzmaIndex} {off : Nat}

/-- No block is too large for a record. -/
def Fits (idx : LzmaIndex) : Prop := ∀ b ∈ idx.blocks, b.uncompressed_size.toNat < 2 ^ 32

/-- What `makeBlock` keeps of a block that fits. -/
theorem usize_makeBlock {b : IndexBlock} (h : b.uncompressed_size.toNat < 2 ^ 32) :
    (makeBlock b).block.usize.toNat = b.uncompressed_size.toNat := by
  show b.uncompressed_size.toUInt32.toNat = _
  rw [UInt64.toNat_toUInt32]
  exact Nat.mod_eq_of_lt h

/-- The records of blocks that fit lie one after the other. -/
theorem contiguous_records (idx : LzmaIndex) (hfits : Fits idx) {front bs : List IndexBlock}
    (hblocks : idx.blocks = front ++ bs) :
    Contiguous (UInt64.ofNat (sizeOf front)) ((nonempty bs).map fun b => (makeBlock b).block) ∧
      total ((nonempty bs).map fun b => (makeBlock b).block) = sizeOf bs := by
  induction bs generalizing front with
  | nil => exact ⟨trivial, rfl⟩
  | cons b bs ih =>
      have hoff := idx.offsets front b bs hblocks
      have hnext : idx.blocks = (front ++ [b]) ++ bs := by
        rw [hblocks, List.append_assoc]
        rfl
      have hsize : sizeOf (front ++ [b]) = sizeOf front + b.uncompressed_size.toNat :=
        sizeOf_append _ _
      have hfit : b.uncompressed_size.toNat < 2 ^ 32 :=
        hfits b (hblocks ▸ List.mem_append_right _ List.mem_cons_self)
      obtain ⟨hc, htotal⟩ := ih hnext
      rw [hsize] at hc
      by_cases hzero : b.uncompressed_size = 0
      · have hnat : b.uncompressed_size.toNat = 0 := by
          rw [hzero]
          rfl
        rw [hnat, Nat.add_zero] at hc
        rw [nonempty_cons_empty hzero, sizeOf_cons, hnat, Nat.zero_add]
        exact ⟨hc, htotal⟩
      · have husize := usize_makeBlock hfit
        rw [nonempty_cons hzero, List.map_cons]
        refine ⟨⟨?_, ?_⟩, ?_⟩
        · show b.uncompressed_file_offset = _
          rw [← hoff, UInt64.ofNat_toNat]
        · have hstart : UInt64.ofNat (sizeOf front) + (makeBlock b).block.usize.toUInt64 =
              UInt64.ofNat (sizeOf front + b.uncompressed_size.toNat) := by
            rw [UInt64.ofNat_add, ← husize, ← UInt32.toNat_toUInt64, UInt64.ofNat_toNat]
          rw [hstart]
          exact hc
        · rw [total_cons, sizeOf_cons, htotal, husize]

end PixzFile

namespace CompFile

variable {file : CompFile} {off : Nat}

/-- The blocks that an iterator goes through. -/
def blocks : CompFile → List Block
  | blockList mBlocks => mBlocks
  | pixz mIndex => (PixzFile.nonempty mIndex.blocks).map fun b => (PixzFile.makeBlock b).block

/-- The blocks lie one after the other, `off_t` has room for the size of the file, and a
lookup is not led to an empty block in front. -/
def Regular : CompFile → Prop
  | blockList mBlocks => Contiguous 0 mBlocks ∧ total mBlocks < 2 ^ 63 ∧ leadingEmpty mBlocks = 0
  | pixz mIndex => PixzFile.Fits mIndex

theorem leadingEmpty_of_ne {bs : List Block} (h : ∀ b ∈ bs, b.usize ≠ 0) : leadingEmpty bs = 0 := by
  cases bs with
  | nil => rfl
  | cons b bs =>
      rw [leadingEmpty, List.takeWhile_cons_of_neg (by simpa using h b List.mem_cons_self)]
      rfl

namespace Regular

theorem contiguous (h : file.Regular) : Contiguous 0 file.blocks := by
  cases file with
  | blockList bs => exact h.1
  | pixz idx => exact (PixzFile.contiguous_records idx h (List.nil_append _).symm).1

theorem total_pixz {idx : PixzFile.LzmaIndex} (h : (pixz idx).Regular) :
    total (pixz idx).blocks = PixzFile.sizeOf idx.blocks :=
  (PixzFile.contiguous_records idx h (List.nil_append _).symm).2

theorem total_lt (h : file.Regular) : total file.blocks < 2 ^ 63 := by
  cases file with
  | blockList bs => exact h.2.1
  | pixz idx =>
      rw [h.total_pixz]
      exact idx.size_lt

theorem uncompressedSize (h : file.Regular) : file.uncompressedSize = total file.blocks := by
  cases file with
  | blockList bs => exact uncompressedSize_blockList ⟨h.1, h.2.1⟩
  | pixz idx => exact (PixzFile.uncompressedSize_eq idx).trans (congrArg Nat.cast h.total_pixz.symm)

end Regular

theorem dropWhile_eq_drop {α : Type} (p : α → Bool) (l : List α) :
    l.dropWhile p = l.drop (l.takeWhile p).length := by
  induction l with
  | nil => rfl
  | cons a l ih =>
      by_cases ha : p a = true
      · rw [List.dropWhile_cons_of_pos ha, List.takeWhile_cons_of_pos ha, ih]
        rfl
      · rw [List.dropWhile_cons_of_neg ha, List.takeWhile_cons_of_neg ha]
        rfl

theorem uend_makeBlock {b : PixzFile.IndexBlock} (h : b.uncompressed_size.toNat < 2 ^ 32) :
    uend (PixzFile.makeBlock b).block =
      b.uncompressed_file_offset.toNat + b.uncompressed_size.toNat := by
  rw [uend, PixzFile.usize_makeBlock h]
  rfl

/-- The lookup of liblzma and the steps of its iterator, on the records of the blocks. -/
theorem findBlock_pixz {idx : PixzFile.LzmaIndex} (hfits : PixzFile.Fits idx) (hlt : off < 2 ^ 63) :
    (pixz idx).findBlock off =
      if off < PixzFile.sizeOf idx.blocks then
        .ok ((pixz idx).blocks.drop (endingBefore (pixz idx).blocks off))
      else .error (.runtime "can't find block") := by
  by_cases hoff : off < PixzFile.sizeOf idx.blocks
  · obtain ⟨it, front, hfind, hblocks, hholds⟩ := PixzFile.findBlock_holds idx hoff
    have hends : ∀ bs : List PixzFile.IndexBlock, (∀ b ∈ bs, b.uncompressed_size.toNat < 2 ^ 32) →
        (bs.takeWhile fun b => b.uncompressed_file_offset.toNat + b.uncompressed_size.toNat ≤ off
          ).length = endingBefore (bs.map fun b => (PixzFile.makeBlock b).block) off := by
      intro bs hbs
      rw [endingBefore, List.takeWhile_map, List.length_map]
      congr 1
      induction bs with
      | nil => rfl
      | cons a bs ih =>
          rw [List.forall_mem_cons] at hbs
          rw [List.takeWhile_cons, List.takeWhile_cons, ih hbs.2, Function.comp_apply,
            uend_makeBlock hbs.1]
    have hsmall : ∀ b ∈ PixzFile.nonempty idx.blocks, b.uncompressed_size.toNat < 2 ^ 32 :=
      fun b hb => hfits b (List.mem_of_mem_filter hb)
    rw [if_pos hoff, CompFile.findBlock, hfind]
    show Except.ok ((PixzFile.walk idx idx.blocks.length (some it)).map PixzBlock.block) = _
    rw [PixzFile.walk_found hblocks hholds, ← PixzFile.dropWhile_found hblocks hholds, List.map_map,
      dropWhile_eq_drop, List.map_drop, hends _ hsmall]
    rfl
  · rw [if_neg hoff, CompFile.findBlock,
      PixzFile.findBlock_pastEnd idx (Nat.le_of_not_lt hoff) (by omega)]
    rfl

/-- A lookup in front of the end leads to the block that holds the offset, any other one
fails. -/
theorem Regular.findBlock (h : file.Regular) (hlt : off < 2 ^ 63) : file.findBlock off =
    if off < total file.blocks then .ok (file.blocks.drop (endingBefore file.blocks off))
    else .error (.runtime "can't find block") := by
  cases file with
  | blockList bs =>
      obtain ⟨hc, hN, hlead⟩ := h
      by_cases hoff : off < total bs
      · rw [blocks, if_pos hoff]
        exact findBlock_eq_drop hc (by omega) hoff hlead
      · rw [blocks, if_neg hoff]
        apply (findBlock_pastEnd hc hN (Nat.le_of_not_lt hoff) hlt).trans
        rw [hlead]
        exact if_neg (Nat.not_lt_zero _)
  | pixz idx =>
      rw [findBlock_pixz h hlt, h.total_pixz]

end CompFile

namespace CompFile

variable {file : CompFile} {decompress : Block → Buffer} {off : Nat} {size : UInt64} {buf : Buffer}
  {getBlocks : List Block → Int → List (Block × Buffer)}

/-- Reading in front of the end gets the bytes asked for. -/
theorem Regular.read (h : file.Regular)
    (hlen : ∀ b ∈ file.blocks, (decompress b).length = b.usize.toNat)
    (hsize : off + size.toNat < 2 ^ 63) (hbuf : buf.length = size.toNat)
    (hget : ∀ it, file.findBlock off = .ok it → MakesUp decompress
      (scanned it (toOff (ofOff (off : Int) + size)))
      (getBlocks it (toOff (ofOff (off : Int) + size)))) :
    file.read getBlocks buf size off =
      if off < total file.blocks then
        let n := min size.toNat (total file.blocks - off)
        .ok (some (n, ((contents decompress file.blocks).drop off).take n ++ buf.drop n))
      else .error (.runtime "can't find block") := by
  have hfind := h.findBlock (show off < 2 ^ 63 by omega)
  by_cases hoff : off < total file.blocks
  · rw [if_pos hoff] at hfind ⊢
    have hds := hget _ hfind
    rw [toOff_stop hsize] at hds
    have hrun := runAll_delivered h.contiguous h.total_lt hds hlen hsize hbuf
    rw [CompFile.read, hfind]
    dsimp only [bind, Except.bind, pure, Except.pure]
    rw [toOff_stop hsize, hrun]
    dsimp only [Option.map_some]
    rw [Int.natCast_add, add_sub_cancel_left]
  · rw [if_neg hoff] at hfind ⊢
    rw [CompFile.read, hfind]
    rfl

/-- What `lf_read` makes of it, when its number is kept. -/
theorem lf_read_of_read {n : Nat} {out : Buffer} {offset : Int}
    (h : file.read getBlocks buf size offset = .ok (some (n, out))) :
    lf_read file getBlocks buf size offset = .returned (toInt n) out := by
  rw [lf_read, h]

theorem toInt_of_lt {n : Nat} (h : n < 2 ^ 31) : toInt n = n :=
  Int.bmod_eq_of_le (by omega) (by omega)

/-- A request in front of the end gets its bytes. -/
theorem Regular.lf_read (h : file.Regular)
    (hlen : ∀ b ∈ file.blocks, (decompress b).length = b.usize.toNat)
    (hsize : off + size.toNat < 2 ^ 63) (hbuf : buf.length = size.toNat)
    (hsmall : size.toNat < 2 ^ 31)
    (hget : ∀ it, file.findBlock off = .ok it → MakesUp decompress
      (scanned it (toOff (ofOff (off : Int) + size)))
      (getBlocks it (toOff (ofOff (off : Int) + size))))
    (hoff : off < total file.blocks) :
    lf_read file getBlocks buf size off =
      ReadOnlyFs.serve (contents decompress file.blocks) buf size off := by
  have hread := h.read hlen hsize hbuf hget
  rw [if_pos hoff] at hread
  rw [lf_read_of_read hread, ReadOnlyFs.serve, length_contents hlen, toInt_of_lt (by omega)]

/-- A file whose blocks decompress to the parts of some contents. No two blocks are at the
same place, where the cache would take one for the other. -/
structure Holds (file : CompFile) (decompress : Block → Buffer) (data : Buffer) : Prop where
  regular : file.Regular
  distinct : (file.blocks.map Block.coff).Nodup
  lengths : ∀ b ∈ file.blocks, (decompress b).length = b.usize.toNat
  contents : OpenCompressedFile.contents decompress file.blocks = data

/-- A file is served as some contents, when this is what reading its blocks gives. -/
def Serves (file : CompFile) (gives : Block → Buffer → Prop) (data : Buffer) : Prop :=
  ∃ decompress, (∀ b ∈ file.blocks, gives b (decompress b)) ∧ file.Holds decompress data

/-- What each of some blocks gives is what a function makes of them. -/
theorem exists_decompress {gives : Block → Buffer → Prop} {bs : List Block} {plains : List Buffer}
    (hnodup : bs.Nodup) (h : List.Forall₂ gives bs plains) :
    ∃ decompress : Block → Buffer, bs.map decompress = plains ∧ ∀ b ∈ bs,
      gives b (decompress b) := by
  classical
  induction h with
  | nil => exact ⟨fun _ => [], rfl, fun b hb => (by cases hb)⟩
  | @cons b plain bs plains hb hrest ih =>
      obtain ⟨hnot, hnodup⟩ := List.nodup_cons.mp hnodup
      obtain ⟨decompress, hmap, hgives⟩ := ih hnodup
      have hsame : ∀ a ∈ bs, Function.update decompress b plain a = decompress a := by
        intro a ha
        apply Function.update_of_ne
        rintro rfl
        exact hnot ha
      refine ⟨Function.update decompress b plain, ?_, List.forall_mem_cons.mpr ⟨?_, ?_⟩⟩
      · rw [List.map_cons, Function.update_self, List.map_congr_left hsame, hmap]
      · rw [Function.update_self]
        exact hb
      · intro a ha
        rw [hsame a ha]
        exact hgives a ha

theorem total_eq_length {gives : Block → Buffer → Prop} {bs : List Block} {plains : List Buffer}
    (h : List.Forall₂ gives bs plains)
    (hlen : ∀ b plain, gives b plain → plain.length = b.usize.toNat) :
    total bs = plains.flatten.length := by
  induction h with
  | nil => rfl
  | cons hb hrest ih =>
      rw [total_cons, List.flatten_cons, List.length_append, ih, hlen _ _ hb]

/-- Blocks that lie one after the other, with what each gives. -/
theorem serves_of_forall₂ {gives : Block → Buffer → Prop} {bs : List Block} {plains : List Buffer}
    (hc : Contiguous 0 bs) (h : List.Forall₂ gives bs plains)
    (hlen : ∀ b plain, gives b plain → plain.length = b.usize.toNat)
    (hsize : plains.flatten.length < 2 ^ 63) (hfirst : leadingEmpty bs = 0)
    (hdistinct : (bs.map Block.coff).Nodup) : (blockList bs).Serves gives plains.flatten := by
  obtain ⟨decompress, hmap, hgives⟩ := exists_decompress hdistinct.of_map h
  refine ⟨decompress, hgives, ⟨hc, ?_, hfirst⟩, hdistinct, fun b hb => hlen _ _ (hgives b hb), ?_⟩
  · rw [total_eq_length h hlen]
    exact hsize
  · rw [OpenCompressedFile.contents, ← hmap, List.flatMap_def]
    rfl

end CompFile

end Lzopfs
