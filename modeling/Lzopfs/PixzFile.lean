import Lzopfs.CompressedFile
import Mathlib.Algebra.BigOperators.Group.List.Basic
import Mathlib.Data.List.Chain
import Mathlib.Data.List.TakeWhile

/-!
# Xz files

The blocks of an xz file are those of the index that liblzma decodes from it. A lookup
is left to liblzma as well; an iterator steps from one block that is not empty to the
next. Only when a block is made of what the iterator shows are its sizes narrowed.
-/

namespace Lzopfs

open Verify

namespace PixzFile

/-- A block as an iterator of liblzma shows it. -/
structure IndexBlock where
  compressed_file_offset : UInt64
  uncompressed_file_offset : UInt64
  total_size : UInt64
  uncompressed_size : UInt64
  check : UInt32
  deriving DecidableEq, Repr

/-- The uncompressed size of blocks. -/
def sizeOf (bs : List IndexBlock) : Nat := (bs.map fun b => b.uncompressed_size.toNat).sum

/-- Does a block hold the byte at this offset? -/
def IndexBlock.Holds (b : IndexBlock) (off : Nat) : Prop :=
  b.uncompressed_file_offset.toNat ≤ off ∧
    off < b.uncompressed_file_offset.toNat + b.uncompressed_size.toNat

/-- What is left of the blocks behind the empty ones in front. -/
def skipEmpty (bs : List IndexBlock) : List IndexBlock :=
  bs.dropWhile fun b => b.uncompressed_size = 0

/-- An index of liblzma, with what its functions answer. -/
structure LzmaIndex where
  /-- The blocks of all streams, in the order of the file. -/
  blocks : List IndexBlock
  /-- `lzma_index_uncompressed_size`. -/
  uncompressed_size : UInt64
  /-- The states of an `lzma_index_iter`. -/
  Iter : Type
  /-- `lzma_index_iter_locate` of a new iterator, unless it returns true. -/
  iter_locate : UInt64 → Option Iter
  /-- `lzma_index_iter_next` with `LZMA_INDEX_ITER_NONEMPTY_BLOCK`, unless it returns true. -/
  iter_next : Iter → Option Iter
  /-- The block that an iterator shows. -/
  block : Iter → IndexBlock
  /-- The blocks behind it. -/
  behind : Iter → List IndexBlock
  size_lt : sizeOf blocks < 2 ^ 63
  size_eq : uncompressed_size.toNat = sizeOf blocks
  /-- Every block starts where the ones before it end. -/
  offsets : ∀ front b back, blocks = front ++ b :: back →
    b.uncompressed_file_offset.toNat = sizeOf front
  /-- In front of the end a lookup finds the block that holds the offset. -/
  locate_found : ∀ target, target.toNat < sizeOf blocks → ∃ it front, iter_locate target = some it ∧
    blocks = front ++ block it :: behind it ∧ (block it).Holds target.toNat
  locate_none : ∀ target, sizeOf blocks ≤ target.toNat → iter_locate target = none
  /-- The next block is the first one behind that is not empty. -/
  next_nonempty : ∀ it, skipEmpty (behind it) =
    ((iter_next it).map fun it' => block it' :: behind it').getD []

end PixzFile

structure PixzBlock where
  block : Block
  check : UInt32
  deriving DecidableEq, Repr

namespace PixzFile

def makeBlock (b : IndexBlock) : PixzBlock where
  block := ⟨b.uncompressed_size.toUInt32, b.total_size.toUInt32, b.uncompressed_file_offset,
    b.compressed_file_offset⟩
  check := b.check

def findBlock (idx : LzmaIndex) (off : Int) : Except Exn idx.Iter :=
  match idx.iter_locate (ofOff off) with
  | none => .error (.runtime "can't find block")
  | some it => .ok it

/-- An iterator that comes to an end is at `none`. -/
def incr (idx : LzmaIndex) (mIter : Option idx.Iter) : Option idx.Iter := mIter.bind idx.iter_next

/-- The blocks at which a loop over an iterator stops by. -/
def walk (idx : LzmaIndex) : Nat → Option idx.Iter → List PixzBlock
  | n + 1, some it => makeBlock (idx.block it) :: walk idx n (incr idx (some it))
  | _, _ => []

/-- All blocks, as `checkSizes` goes through them. -/
def blocks (idx : LzmaIndex) : List PixzBlock :=
  match findBlock idx 0 with
  | .error _ => []
  | .ok it => walk idx idx.blocks.length (some it)

def uncompressedSize (idx : LzmaIndex) : Int := toOff idx.uncompressed_size

/-- The blocks that are not empty. -/
def nonempty (bs : List IndexBlock) : List IndexBlock := bs.filter fun b => b.uncompressed_size ≠ 0

variable {idx : LzmaIndex} {front bs : List IndexBlock} {b : IndexBlock} {off : Nat}

@[simp] theorem sizeOf_cons (b : IndexBlock) (bs : List IndexBlock) :
    sizeOf (b :: bs) = b.uncompressed_size.toNat + sizeOf bs := rfl

theorem sizeOf_append (as bs : List IndexBlock) : sizeOf (as ++ bs) = sizeOf as + sizeOf bs := by
  rw [sizeOf, List.map_append, List.sum_append]
  rfl

theorem nonempty_append (as bs : List IndexBlock) :
    nonempty (as ++ bs) = nonempty as ++ nonempty bs := List.filter_append as bs

theorem nonempty_cons (h : b.uncompressed_size ≠ 0) : nonempty (b :: bs) = b :: nonempty bs :=
  List.filter_cons_of_pos (by simpa using h)

theorem nonempty_cons_empty (h : b.uncompressed_size = 0) : nonempty (b :: bs) = nonempty bs :=
  List.filter_cons_of_neg (by simpa using h)

theorem nonempty_skipEmpty (bs : List IndexBlock) : nonempty (skipEmpty bs) = nonempty bs := by
  induction bs with
  | nil => rfl
  | cons b bs ih =>
      by_cases hzero : b.uncompressed_size = 0
      · rw [skipEmpty, List.dropWhile_cons_of_pos (by simpa using hzero), nonempty_cons_empty hzero]
        exact ih
      · rw [skipEmpty, List.dropWhile_cons_of_neg (by simpa using hzero)]

theorem skipEmpty_head (h : b :: bs = skipEmpty front) : b.uncompressed_size ≠ 0 := by
  have hnot := List.head?_dropWhile_not (fun b : IndexBlock => b.uncompressed_size = 0) front
  rw [← skipEmpty, ← h] at hnot
  simpa using hnot

theorem IndexBlock.Holds.ne_zero (h : b.Holds off) : b.uncompressed_size ≠ 0 := by
  obtain ⟨hlo, hhi⟩ := h
  intro hzero
  rw [hzero] at hhi
  exact absurd hhi (Nat.not_lt.mpr hlo)

/-- A walk from a block that is not empty goes through all of these. -/
theorem walk_eq {n : Nat} {it : idx.Iter} (hn : (idx.behind it).length < n)
    (hne : (idx.block it).uncompressed_size ≠ 0) :
    walk idx n (some it) = (nonempty (idx.block it :: idx.behind it)).map makeBlock := by
  induction n generalizing it with
  | zero => exact absurd hn (Nat.not_lt_zero _)
  | succ n ih =>
      have hnext := idx.next_nonempty it
      rw [walk, incr, Option.bind_some, nonempty_cons hne, List.map_cons]
      congr 1
      rw [← nonempty_skipEmpty (idx.behind it), hnext]
      cases hit : idx.iter_next it with
      | none =>
          cases n with
          | zero => rfl
          | succ n => rfl
      | some it' =>
          rw [hit] at hnext
          have hshort : (idx.behind it').length < n := by
            have hle : (skipEmpty (idx.behind it)).length ≤ (idx.behind it).length :=
              (List.dropWhile_suffix _).length_le
            rw [hnext] at hle
            simp only [Option.map_some, Option.getD_some, List.length_cons] at hle
            omega
          exact ih hshort (skipEmpty_head hnext.symm)

/-- A lookup in front of the end leads to the block that holds the offset. -/
theorem findBlock_holds (idx : LzmaIndex) (h : off < sizeOf idx.blocks) :
    ∃ it front, findBlock idx off = .ok it ∧
      idx.blocks = front ++ idx.block it :: idx.behind it ∧ (idx.block it).Holds off := by
  have hlt := idx.size_lt
  have hoff : (ofOff off).toNat = off := toNat_ofOff (by omega)
  obtain ⟨it, front, hlocate, hblocks, hholds⟩ := idx.locate_found (ofOff off) (hoff.symm ▸ h)
  rw [hoff] at hholds
  refine ⟨it, front, ?_, hblocks, hholds⟩
  rw [findBlock, hlocate]

/-- A lookup at the end or behind it finds nothing. -/
theorem findBlock_pastEnd (idx : LzmaIndex) (h : sizeOf idx.blocks ≤ off) (hlt : off < 2 ^ 64) :
    findBlock idx off = .error (.runtime "can't find block") := by
  rw [findBlock, idx.locate_none (ofOff off) (by rw [toNat_ofOff hlt]; exact h)]

/-- From the block a lookup leads to, a loop goes through the blocks that are not empty. -/
theorem walk_found {it : idx.Iter} (hblocks : idx.blocks = front ++ idx.block it :: idx.behind it)
    (hholds : (idx.block it).Holds off) : walk idx idx.blocks.length (some it) =
      (nonempty (idx.block it :: idx.behind it)).map makeBlock := by
  apply walk_eq _ hholds.ne_zero
  rw [hblocks, List.length_append, List.length_cons]
  omega

theorem nonempty_of_sizeOf (h : sizeOf bs = 0) : nonempty bs = [] := by
  induction bs with
  | nil => rfl
  | cons b bs ih =>
      rw [sizeOf_cons, Nat.add_eq_zero_iff] at h
      rw [nonempty_cons_empty (UInt64.toNat_inj.mp h.1)]
      exact ih h.2

theorem uncompressedSize_eq (idx : LzmaIndex) : uncompressedSize idx = sizeOf idx.blocks := by
  have hlt := idx.size_lt
  rw [uncompressedSize, toOff_of_lt (by rw [idx.size_eq]; exact hlt), idx.size_eq]

/-- The blocks of the file are those of the index that are not empty. -/
theorem blocks_eq (idx : LzmaIndex) : blocks idx = (nonempty idx.blocks).map makeBlock := by
  obtain hzero | hpos := Nat.eq_zero_or_pos (sizeOf idx.blocks)
  · have hnone := findBlock_pastEnd idx (Nat.le_of_eq hzero) (by decide)
    rw [Int.natCast_zero] at hnone
    rw [blocks, hnone, nonempty_of_sizeOf hzero]
    rfl
  · obtain ⟨it, front, hfind, hblocks, hholds⟩ := findBlock_holds idx hpos
    have hoff := idx.offsets _ _ _ hblocks
    have hfront : sizeOf front = 0 := Nat.le_zero.mp (hoff ▸ hholds.1)
    rw [Int.natCast_zero] at hfind
    rw [blocks, hfind]
    dsimp only
    rw [walk_found hblocks hholds, hblocks, nonempty_append, nonempty_of_sizeOf hfront]
    rfl

/-- The blocks in front of the one a lookup leads to end at the offset or before it. -/
theorem dropWhile_found {it : idx.Iter}
    (hblocks : idx.blocks = front ++ idx.block it :: idx.behind it)
    (hholds : (idx.block it).Holds off) :
    ((nonempty idx.blocks).dropWhile fun b =>
        b.uncompressed_file_offset.toNat + b.uncompressed_size.toNat ≤ off) =
      nonempty (idx.block it :: idx.behind it) := by
  have hoff := idx.offsets _ _ _ hblocks
  have hfront : ∀ b ∈ nonempty front,
      b.uncompressed_file_offset.toNat + b.uncompressed_size.toNat ≤ off := by
    intro b hb
    obtain ⟨as, bs, rfl⟩ := List.append_of_mem (List.mem_of_mem_filter hb)
    have hstart := idx.offsets as b (bs ++ idx.block it :: idx.behind it) (by
      rw [hblocks, List.append_assoc]
      rfl)
    rw [sizeOf_append, sizeOf_cons] at hoff
    have hle := hholds.1
    omega
  rw [hblocks, nonempty_append, nonempty_cons hholds.ne_zero,
    List.dropWhile_append_of_pos (by simpa using hfront), List.dropWhile_cons_of_neg]
  have hlt := hholds.2
  simpa using hlt

section Lists

variable {target : Nat}

theorem dropWhile_holds (hoff : ∀ as c cs, front ++ bs = as ++ c :: cs →
      c.uncompressed_file_offset.toNat = sizeOf as)
    (hfront : sizeOf front ≤ target) (hlt : target < sizeOf (front ++ bs)) :
    ∃ as c cs, (bs.dropWhile fun b =>
        b.uncompressed_file_offset.toNat + b.uncompressed_size.toNat ≤ target) = c :: cs ∧
      front ++ bs = as ++ c :: cs ∧ c.Holds target := by
  induction bs generalizing front with
  | nil =>
      rw [List.append_nil] at hlt
      exact absurd hlt (Nat.not_lt.mpr hfront)
  | cons b bs ih =>
      have hstart := hoff front b bs rfl
      have hassoc : front ++ b :: bs = (front ++ [b]) ++ bs := by
        rw [List.append_assoc]
        rfl
      by_cases hend : b.uncompressed_file_offset.toNat + b.uncompressed_size.toNat ≤ target
      · rw [List.dropWhile_cons_of_pos (by simpa using hend), hassoc]
        rw [hassoc] at hoff hlt
        apply ih hoff _ hlt
        rw [sizeOf_append, ← hstart]
        exact hend
      · rw [List.dropWhile_cons_of_neg (by simpa using hend)]
        exact ⟨front, b, bs, rfl, rfl, hstart ▸ hfront, Nat.lt_of_not_le hend⟩

theorem dropWhile_pastEnd (hoff : ∀ as c cs, bs = as ++ c :: cs →
      c.uncompressed_file_offset.toNat = sizeOf as) (hle : sizeOf bs ≤ target) :
    (bs.dropWhile fun b =>
      b.uncompressed_file_offset.toNat + b.uncompressed_size.toNat ≤ target) = [] := by
  apply List.dropWhile_eq_nil_iff.mpr
  intro b hb
  obtain ⟨front, back, rfl⟩ := List.append_of_mem hb
  have hstart := hoff front b back rfl
  rw [sizeOf_append, sizeOf_cons] at hle
  apply decide_eq_true
  omega

/-- The front of what is left, as an iterator. -/
def iterOf : List IndexBlock → Option (IndexBlock × List IndexBlock)
  | [] => none
  | b :: bs => some (b, bs)

/-- An index that is searched from the front. -/
def LzmaIndex.ofBlocks (blocks : List IndexBlock) (size_lt : sizeOf blocks < 2 ^ 63)
    (offsets : ∀ front b back, blocks = front ++ b :: back →
      b.uncompressed_file_offset.toNat = sizeOf front) : LzmaIndex where
  blocks := blocks
  uncompressed_size := UInt64.ofNat (sizeOf blocks)
  Iter := IndexBlock × List IndexBlock
  iter_locate target := iterOf (blocks.dropWhile fun b =>
    b.uncompressed_file_offset.toNat + b.uncompressed_size.toNat ≤ target.toNat)
  iter_next it := iterOf (skipEmpty it.2)
  block it := it.1
  behind it := it.2
  size_lt := size_lt
  size_eq := by rw [UInt64.toNat_ofNat', Nat.mod_eq_of_lt (by omega)]
  offsets := offsets
  locate_found target hlt := by
    obtain ⟨as, c, cs, hdrop, hblocks, hholds⟩ :=
      @dropWhile_holds [] blocks target.toNat offsets (Nat.zero_le _) hlt
    refine ⟨(c, cs), as, ?_, hblocks, hholds⟩
    rw [hdrop]
    rfl
  locate_none target hle := by
    rw [dropWhile_pastEnd offsets hle]
    rfl
  next_nonempty it := by
    cases hbehind : skipEmpty it.2 with
    | nil => rfl
    | cons b bs => rfl

/-- An index of one block. -/
def LzmaIndex.single (b : IndexBlock) (huoff : b.uncompressed_file_offset = 0)
    (h : b.uncompressed_size.toNat < 2 ^ 63) : LzmaIndex :=
  .ofBlocks [b] h (by
    intro front c back hblocks
    cases front with
    | nil =>
        obtain ⟨rfl, -⟩ := List.cons.inj hblocks
        exact congrArg UInt64.toNat huoff
    | cons a front =>
        have hlen := congrArg List.length hblocks
        rw [List.cons_append, List.length_cons, List.length_cons, List.length_append,
          List.length_cons, List.length_nil] at hlen
        omega)

end Lists

end PixzFile

end Lzopfs
