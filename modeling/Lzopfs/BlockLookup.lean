import Lzopfs.CompressedFile
import Mathlib.Algebra.BigOperators.Group.List.Basic
import Mathlib.Algebra.Order.BigOperators.Group.List

/-!
# Looking up a block

The blocks of a file lie one after the other, so where a block starts and ends is a
sum of sizes. `BlockOffsetOrdering` compares an offset with the last byte of a block.
An empty block has no last byte: the comparison still comes out right behind the
first byte of the file, but at offset 0 the subtraction wraps around.
-/

namespace Lzopfs

open Verify

namespace BlockListCompFile

variable {bs as cs : List Block} {b : Block} {off i : Nat}

/-- The bytes of all blocks. -/
def total (bs : List Block) : Nat := (bs.map fun b => b.usize.toNat).sum

/-- Where the block ends in the uncompressed contents. -/
def uend (b : Block) : Nat := b.uoff.toNat + b.usize.toNat

@[simp] theorem total_nil : total [] = 0 := rfl

@[simp] theorem total_cons (b : Block) (bs : List Block) :
    total (b :: bs) = b.usize.toNat + total bs := rfl

@[simp] theorem total_append (as bs : List Block) : total (as ++ bs) = total as + total bs := by
  simp only [total, List.map_append, List.sum_append]

theorem total_take_le (bs : List Block) {i j : Nat} (h : i ≤ j) :
    total (bs.take i) ≤ total (bs.take j) := by
  obtain ⟨d, rfl⟩ := Nat.exists_eq_add_of_le h
  rw [List.take_add, total_append]
  exact Nat.le_add_right _ _

/-- A block starts where the blocks in front of it end. -/
theorem Contiguous.uoff_eq {uoff : UInt64} (h : Contiguous uoff (as ++ b :: cs))
    (hlt : uoff.toNat + total (as ++ b :: cs) < 2 ^ 64) :
    b.uoff.toNat = uoff.toNat + total as := by
  induction as generalizing uoff with
  | nil => rw [h.1]; rfl
  | cons a as ih =>
      obtain ⟨ha, hrest⟩ := h
      simp only [List.cons_append, total_cons] at hlt
      have hadd : (uoff + a.usize.toUInt64).toNat = uoff.toNat + a.usize.toNat := by
        rw [UInt64.toNat_add, UInt32.toNat_toUInt64]
        omega
      rw [ih hrest (by omega), hadd, total_cons, Nat.add_assoc]

section Positions

variable (hc : Contiguous 0 bs) (hlt : total bs < 2 ^ 64)
include hc hlt

/-- Where the `i`-th block starts and ends. -/
theorem getElem_position (hi : i < bs.length) :
    bs[i].uoff.toNat = total (bs.take i) ∧ uend bs[i] = total (bs.take (i + 1)) := by
  have hsplit : bs = bs.take i ++ bs[i] :: bs.drop (i + 1) := by
    rw [List.getElem_cons_drop, List.take_append_drop]
  have huoff : bs[i].uoff.toNat = total (bs.take i) := by
    rw [hsplit] at hc hlt
    have h := Contiguous.uoff_eq hc (by simpa using hlt)
    simpa using h
  refine ⟨huoff, ?_⟩
  rw [uend, huoff, List.take_add_one, List.getElem?_eq_getElem hi, total_append]
  simp

theorem uend_le_total (hb : b ∈ bs) : uend b ≤ total bs := by
  obtain ⟨i, hi, rfl⟩ := List.getElem_of_mem hb
  rw [(getElem_position hc hlt hi).2]
  calc total (bs.take (i + 1)) ≤ total (bs.take bs.length) := total_take_le bs hi
    _ = total bs := by rw [List.take_length]

end Positions

/-- The comparison asks whether the block ends at or before the offset, and says no
of a block that ends at 0. -/
theorem blockOffsetOrdering_eq (hend : uend b < 2 ^ 64) (hoff : off < 2 ^ 64) :
    BlockOffsetOrdering b off = decide (0 < uend b ∧ uend b ≤ off) := by
  have hadd : (b.uoff + b.usize.toUInt64).toNat = uend b := by
    rw [UInt64.toNat_add, UInt32.toNat_toUInt64, ← uend]
    omega
  rw [BlockOffsetOrdering, decide_eq_decide, UInt64.lt_iff_toNat_lt, UInt64.toNat_sub, hadd,
    toNat_ofOff hoff]
  have hone : (1 : UInt64).toNat = 1 := rfl
  omega

/-- The comparison, by position. -/
def below (bs : List Block) (off : Int) (i : Nat) : Bool :=
  match bs[i]? with
  | some b => BlockOffsetOrdering b off
  | none => false

theorem findBlock_eq (bs : List Block) (off : Int) :
    findBlock bs off = if lowerBound (below bs off) 0 bs.length = bs.length then
      .error (.runtime "can't find block")
    else .ok (bs.drop (lowerBound (below bs off) 0 bs.length)) := rfl

theorem mem_of_findBlock {rest : List Block} {off : Int}
    (h : findBlock bs off = .ok (b :: rest)) : b ∈ bs := by
  rw [findBlock_eq] at h
  split at h
  · cases h
  · injection h with h
    apply List.mem_of_mem_drop
    rw [h]
    exact List.mem_cons_self

/-- How many blocks in front are empty. -/
def leadingEmpty (bs : List Block) : Nat := (bs.takeWhile fun b => b.usize = 0).length

/-- How many blocks in front end at or before the offset. -/
def endingBefore (bs : List Block) (off : Nat) : Nat :=
  (bs.takeWhile fun b => uend b ≤ off).length

/-- The block found is the one that holds the byte at the offset. -/
def FindsBlock (bs : List Block) (off : Nat) : Prop :=
  ∃ b rest, findBlock bs off = .ok (b :: rest) ∧ b.uoff.toNat ≤ off ∧ off < uend b

theorem lt_length_takeWhile {α : Type} {p : α → Bool} {l : List α} (hi : i < l.length) :
    i < (l.takeWhile p).length ↔ ∀ a ∈ l.take (i + 1), p a = true := by
  induction l generalizing i with
  | nil => cases hi
  | cons a l ih =>
      rw [List.take_succ_cons, List.forall_mem_cons]
      by_cases ha : p a = true
      · rw [List.takeWhile_cons_of_pos ha, List.length_cons]
        cases i with
        | zero => simp [ha]
        | succ i =>
            rw [Nat.add_lt_add_iff_right, ih (Nat.lt_of_succ_lt_succ hi)]
            exact ⟨fun h => ⟨ha, h⟩, And.right⟩
      · rw [List.takeWhile_cons_of_neg ha]
        exact iff_of_false (Nat.not_lt_zero i) fun h => ha h.1

theorem lt_leadingEmpty (hi : i < bs.length) :
    i < leadingEmpty bs ↔ total (bs.take (i + 1)) = 0 := by
  rw [leadingEmpty, lt_length_takeWhile hi, total, List.sum_eq_zero_iff]
  simp only [decide_eq_true_eq, List.mem_map, forall_exists_index, and_imp,
    forall_apply_eq_imp_iff₂]
  exact forall₂_congr fun b _ => by rw [← UInt32.toNat_inj]; rfl

theorem lt_endingBefore (off : Nat) (hc : Contiguous 0 bs) (hlt : total bs < 2 ^ 64)
    (hi : i < bs.length) :
    i < endingBefore bs off ↔ total (bs.take (i + 1)) ≤ off := by
  rw [endingBefore, lt_length_takeWhile hi]
  simp only [decide_eq_true_eq]
  constructor
  · intro h
    have hmem : bs[i] ∈ bs.take (i + 1) := by
      rw [List.take_add_one, List.getElem?_eq_getElem hi]
      exact List.mem_append_right _ List.mem_cons_self
    have hle := h _ hmem
    rwa [(getElem_position hc hlt hi).2] at hle
  · intro h b hb
    obtain ⟨j, hj, rfl⟩ := List.getElem_of_mem hb
    rw [List.length_take] at hj
    rw [List.getElem_take, (getElem_position hc hlt (by omega)).2]
    exact Nat.le_trans (total_take_le bs (by omega)) h

section Lookup

variable (hc : Contiguous 0 bs) (hN : total bs < 2 ^ 64) (hoff : off < total bs)
include hc hN hoff

theorem endingBefore_lt_length : endingBefore bs off < bs.length := by
  have hle : endingBefore bs off ≤ bs.length :=
    (List.takeWhile_prefix _).length_le
  refine Nat.lt_of_le_of_ne hle ?_
  intro heq
  have hpos : 0 < bs.length := by
    apply List.length_pos_iff.mpr
    rintro rfl
    exact absurd hoff (Nat.not_lt_zero off)
  have hlast := (lt_endingBefore off hc (by omega) (Nat.sub_lt hpos Nat.one_pos)).mp
    (by rw [heq]; omega)
  rw [Nat.sub_add_cancel hpos, List.take_length] at hlast
  omega

omit hoff in
/-- The block that holds the byte at an offset comes after the blocks that end there or
before. -/
theorem holds_iff (off : Nat) (hi : i < bs.length) :
    bs[i].uoff.toNat ≤ off ∧ off < uend bs[i] ↔ i = endingBefore bs off := by
  obtain ⟨huoff, huend⟩ := getElem_position hc (by omega) hi
  have hhere := lt_endingBefore off hc (by omega) hi
  rw [huoff, huend, ← Nat.not_le, ← hhere]
  cases i with
  | zero =>
      simp only [List.take_zero, total_nil, Nat.zero_le, true_and]
      omega
  | succ i =>
      rw [← lt_endingBefore off hc (by omega) (Nat.lt_of_succ_lt hi)]
      omega

theorem leadingEmpty_le : leadingEmpty bs ≤ endingBefore bs off := by
  have hlt := endingBefore_lt_length hc hN hoff
  by_contra hgt
  have hzero := (lt_leadingEmpty hlt).mp (Nat.lt_of_not_le hgt)
  have hself : endingBefore bs off < endingBefore bs off := by
    rw [lt_endingBefore off hc (by omega) hlt, hzero]
    exact Nat.zero_le off
  exact Nat.lt_irrefl _ hself

/-- The positions that compare below. -/
theorem below_eq (hi : i < bs.length) :
    below bs off i = decide (leadingEmpty bs ≤ i ∧ i < endingBefore bs off) := by
  have hpos := getElem_position hc (by omega) hi
  have hend := uend_le_total hc (by omega) (List.getElem_mem hi)
  have hempty := lt_leadingEmpty hi
  rw [below, List.getElem?_eq_getElem hi]
  simp only
  rw [blockOffsetOrdering_eq (by omega) (by omega), decide_eq_decide, hpos.2,
    lt_endingBefore off hc (by omega) hi]
  omega

/-- The block that holds the offset is found exactly if the search ends at it. -/
theorem findsBlock_iff_search :
    FindsBlock bs off ↔ lowerBound (below bs off) 0 bs.length = endingBefore bs off := by
  have hlt := endingBefore_lt_length hc hN hoff
  rw [FindsBlock]
  simp only [findBlock_eq]
  constructor
  · rintro ⟨b, rest, hfind, hlo, hhi⟩
    split at hfind
    · cases hfind
    · rename_i hne
      have hi := Nat.lt_of_le_of_ne ((lowerBound_mem 0 bs.length).2.trans_eq (Nat.zero_add _)) hne
      rw [List.drop_eq_getElem_cons hi] at hfind
      cases hfind
      exact (holds_iff hc hN off hi).mp ⟨hlo, hhi⟩
  · intro heq
    obtain ⟨hlo, hhi⟩ := (holds_iff hc hN off hlt).mpr rfl
    refine ⟨bs[endingBefore bs off], bs.drop (endingBefore bs off + 1), ?_, hlo, hhi⟩
    rw [heq, if_neg (Nat.ne_of_lt hlt), List.drop_eq_getElem_cons hlt]

/-- The block that holds the offset is found exactly if the first block is not empty,
or some probe of the search falls behind the leading empty blocks and in front of it. -/
theorem findsBlock_iff_probe : FindsBlock bs off ↔ leadingEmpty bs = 0 ∨
    ∃ k, leadingEmpty bs ≤ bs.length / 2 ^ (k + 1) ∧
      bs.length / 2 ^ (k + 1) < endingBefore bs off := by
  rw [findsBlock_iff_search hc hN hoff]
  exact lowerBound_band (leadingEmpty_le hc hN hoff)
    (Nat.le_of_lt (endingBefore_lt_length hc hN hoff)) fun i hi => below_eq hc hN hoff hi

/-- Without empty blocks in front the iterator starts at the block that holds the offset. -/
theorem findBlock_eq_drop (h : leadingEmpty bs = 0) :
    findBlock bs off = .ok (bs.drop (endingBefore bs off)) := by
  have hlt := endingBefore_lt_length hc hN hoff
  have hsearch := (findsBlock_iff_search hc hN hoff).mp
    ((findsBlock_iff_probe hc hN hoff).mpr (.inl h))
  rw [findBlock_eq, hsearch, if_neg (Nat.ne_of_lt hlt)]

end Lookup

end BlockListCompFile

end Lzopfs
