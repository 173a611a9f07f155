import Lzopfs.OpenCompressedFile
import Lzopfs.PixzFile

/-!
# Read requests at the end of a file

A read request passes the lookup of a block, the deliveries of the cache and the handler of
`lf_read`, which ends the process on any exception. A request that starts at the end of a
file or behind it finds no block. Only where more than half of the blocks are empty and in
front does the search stop at the first of them.
-/

namespace Lzopfs

open Verify BlockListCompFile OpenCompressedFile

/-- A file that is mounted: xz files leave the lookup to liblzma, all others have a list of
blocks. -/
inductive CompFile where
  | blockList (mBlocks : List Block)
  | pixz (mIndex : PixzFile.LzmaIndex)

/-- How a request ends. -/
inductive Outcome where
  | returned (ret : Int) (buf : Buffer)
  /-- The process exits with this status. -/
  | exited (status : Nat)
  /-- A copy leaves one of the buffers. -/
  | outOfBounds
  deriving DecidableEq

namespace CompFile

def findBlock : CompFile → Int → Except Exn (List Block)
  | blockList mBlocks, off => BlockListCompFile.findBlock mBlocks off
  | pixz mIndex, off => (PixzFile.findBlock mIndex off).map fun it =>
      (PixzFile.walk mIndex mIndex.blocks.length (some it)).map PixzBlock.block

def uncompressedSize : CompFile → Int
  | blockList mBlocks => BlockListCompFile.uncompressedSize mBlocks
  | pixz mIndex => PixzFile.uncompressedSize mIndex

/-- `OpenCompressedFile::read`, for a file of either kind. -/
def read (file : CompFile) (getBlocks : List Block → Int → List (Block × Buffer)) (buf : Buffer)
    (size : UInt64) (offset : Int) : Except Exn (Option (Int × Buffer)) := do
  let biter ← file.findBlock offset
  let cb : Callback := ⟨size, offset⟩
  let deliveries := getBlocks biter (toOff (ofOff offset + size))
  return (cb.runAll deliveries ⟨offset, buf⟩).map fun p => (p.max - offset, p.buf)

end CompFile

/-- `except`: report the exception and end the process. -/
def except (_ : Exn) : Outcome := .exited 1

/-- A conversion to `int`. -/
def toInt (ret : Int) : Int := ret.bmod (2 ^ 32)

def lf_read (file : CompFile) (getBlocks : List Block → Int → List (Block × Buffer))
    (buf : Buffer) (size : UInt64) (offset : Int) : Outcome :=
  match file.read getBlocks buf size offset with
  | .ok (some (ret, buf)) => .returned (toInt ret) buf
  | .ok none => .outOfBounds
  | .error e => except e

namespace CompFile

variable {bs : List Block} {off : Nat} {size : UInt64} {buf : Buffer}
  {getBlocks : List Block → Int → List (Block × Buffer)}
  {decompress : Block → Buffer} {cached : Block → Option Buffer}

/-- The blocks of the file lie one after the other, and `off_t` has room for its size. -/
def Mounted : CompFile → Prop
  | blockList mBlocks => Contiguous 0 mBlocks ∧ total mBlocks < 2 ^ 63
  | pixz _ => True

theorem uncompressedSize_blockList (h : (blockList bs).Mounted) :
    (blockList bs).uncompressedSize = total bs := by
  obtain ⟨hc, hN⟩ := h
  show BlockListCompFile.uncompressedSize bs = total bs
  obtain rfl | ⟨as, b, rfl⟩ := List.eq_nil_or_concat bs
  · rfl
  · rw [List.concat_eq_append] at hc hN ⊢
    have huoff : b.uoff.toNat = total as := by
      simpa using Contiguous.uoff_eq hc (by simpa using Nat.lt_trans hN (by decide))
    have hend : (b.uoff + b.usize.toUInt64).toNat = total (as ++ [b]) := by
      rw [total_append, total_cons, total_nil] at hN ⊢
      rw [UInt64.toNat_add, UInt32.toNat_toUInt64, huoff]
      omega
    rw [BlockListCompFile.uncompressedSize, List.getLast?_concat]
    dsimp only
    rw [toOff_of_lt (by omega), hend]

/-- At the end and behind it, all blocks compare below but the empty ones in front. -/
theorem below_pastEnd (hc : Contiguous 0 bs) (hN : total bs < 2 ^ 63) (hoff : total bs ≤ off)
    (hlt : off < 2 ^ 63) {i : Nat} (hi : i < bs.length) :
    below bs off i = decide (leadingEmpty bs ≤ i ∧ i < bs.length) := by
  have hend := uend_le_total hc (by omega) (List.getElem_mem hi)
  have hempty := lt_leadingEmpty hi
  rw [← (getElem_position hc (by omega) hi).2] at hempty
  rw [below, List.getElem?_eq_getElem hi]
  dsimp only
  rw [blockOffsetOrdering_eq (by omega) (by omega), decide_eq_decide]
  omega

/-- The search runs off the end, or it stops at the first block. -/
theorem findBlock_pastEnd (hc : Contiguous 0 bs) (hN : total bs < 2 ^ 63) (hoff : total bs ≤ off)
    (hlt : off < 2 ^ 63) : BlockListCompFile.findBlock bs off =
      if bs.length / 2 < leadingEmpty bs then .ok bs
      else .error (.runtime "can't find block") := by
  have hbelow : ∀ i < bs.length, below bs off i = decide (leadingEmpty bs ≤ i ∧ i < bs.length) :=
    fun i hi => below_pastEnd hc hN hoff hlt hi
  have hle : leadingEmpty bs ≤ bs.length := (List.takeWhile_prefix _).length_le
  rw [findBlock_eq]
  by_cases hhalf : bs.length / 2 < leadingEmpty bs
  · have hne : bs.length ≠ 0 := by omega
    have hmid : below bs off (0 + bs.length / 2) = false := by
      rw [Nat.zero_add, hbelow _ (by omega)]
      exact decide_eq_false (by omega)
    have hzero : lowerBound (below bs off) 0 bs.length = 0 := by
      rw [lowerBound, if_neg hne, hmid]
      apply lowerBound_eq (Nat.le_refl 0) (Nat.zero_le _)
      · intro i _ hi
        exact absurd hi (Nat.not_lt_zero i)
      · intro i _ hi
        rw [hbelow i (by omega)]
        exact decide_eq_false (by omega)
    rw [hzero, if_neg (Ne.symm hne), if_pos hhalf, List.drop_zero]
  · have hend : lowerBound (below bs off) 0 bs.length = bs.length := by
      apply (lowerBound_band hle (Nat.le_refl _) hbelow).mpr
      obtain hz | hpos := Nat.eq_zero_or_pos bs.length
      · exact .inl (by omega)
      · refine .inr ⟨0, ?_⟩
        rw [Nat.zero_add, Nat.pow_one]
        omega
    rw [if_pos hend, if_neg hhalf]

theorem runAll_eq_none {cb : Callback} {ds : List (Block × Buffer)} {d : Block × Buffer}
    (hd : d ∈ ds) (hnone : ∀ p, cb.run d.1 d.2 p = none) (p : Progress) :
    cb.runAll ds p = none := by
  induction ds generalizing p with
  | nil => cases hd
  | cons e ds ih =>
      rw [Callback.runAll, List.foldlM_cons]
      apply Option.bind_eq_none_iff.mpr
      intro q hq
      obtain rfl | hd := List.mem_cons.mp hd
      · rw [hnone] at hq
        cases hq
      · exact ih hd q

/-- An empty block at the start of the file. -/
def IsEmpty (b : Block) : Prop := b.uoff = 0 ∧ b.usize = 0

/-- In front of the offset it makes the callback copy a negative number of bytes. -/
theorem run_empty_before {b : Block} {ubuf : Buffer} (hb : IsEmpty b) (hubuf : ubuf.length = 0)
    (hoff : 0 < off) (hlt : off < 2 ^ 63) (hstop : 0 < toOff (ofOff off + size)) (p : Progress) :
    (Callback.mk size off).run b ubuf p = none := by
  have huend : b.uoff + b.usize.toUInt64 = 0 := by
    rw [hb.1, hb.2]
    rfl
  have homin : (Callback.mk size off).omin b = off := by
    rw [Callback.omin, hb.1]
    exact max_eq_left (Int.natCast_nonneg off)
  have hpos : (0 : UInt64) < ofOff off + size := by
    rw [UInt64.lt_iff_toNat_lt]
    apply Nat.pos_of_ne_zero
    intro hz
    rw [toOff_of_lt (by omega), hz] at hstop
    exact absurd hstop (by decide)
  have homax : (Callback.mk size off).omax b = 0 := by
    rw [Callback.omax]
    dsimp only
    rw [huend, if_pos hpos]
    rfl
  have hbsize : ((Callback.mk size off).bsize b).toNat = 2 ^ 64 - off := by
    rw [Callback.bsize, homax, homin, ofOff, UInt64.ofInt, UInt64.toNat_ofNat']
    omega
  have hbstart : ((Callback.mk size off).bstart b).toNat = off := by
    rw [Callback.bstart, homin, hb.1, UInt64.sub_zero, toNat_ofOff (by omega)]
  rw [Callback.run, hbsize, hbstart, hubuf]
  exact if_neg (by omega)

/-- At the offset it leaves everything as it is. -/
theorem run_empty_at {b : Block} {ubuf : Buffer} (hb : IsEmpty b) (buf : Buffer) :
    (Callback.mk size 0).run b ubuf ⟨0, buf⟩ = some ⟨0, buf⟩ := by
  have huend : b.uoff + b.usize.toUInt64 = 0 := by
    rw [hb.1, hb.2]
    rfl
  have homin : (Callback.mk size 0).omin b = 0 := by
    rw [Callback.omin, hb.1]
    rfl
  have homax : (Callback.mk size 0).omax b = 0 := by
    rw [Callback.omax]
    dsimp only
    rw [huend]
    split
    · rfl
    · rename_i hstop
      have hz : ofOff 0 + size = 0 := by
        rw [← UInt64.toNat_inj]
        rw [UInt64.lt_iff_toNat_lt] at hstop
        have h0 : (0 : UInt64).toNat = 0 := rfl
        omega
      rw [hz]
      rfl
  have hbsize : (Callback.mk size 0).bsize b = 0 := by
    rw [Callback.bsize, homax, homin]
    rfl
  have hbstart : (Callback.mk size 0).bstart b = 0 := by
    rw [Callback.bstart, homin, hb.1]
    rfl
  rw [Callback.run, hbsize, hbstart, homin, homax]
  apply (if_pos ⟨Nat.zero_le _, Nat.zero_le _⟩).trans
  simp [Buffer.blit]

theorem runAll_empty_at {ds : List (Block × Buffer)} (hds : ∀ d ∈ ds, IsEmpty d.1)
    (buf : Buffer) : (Callback.mk size 0).runAll ds ⟨0, buf⟩ = some ⟨0, buf⟩ := by
  induction ds with
  | nil => rfl
  | cons d ds ih =>
      rw [List.forall_mem_cons] at hds
      rw [Callback.runAll, List.foldlM_cons, run_empty_at hds.1]
      exact ih hds.2

/-- There is a block, and more than half of the blocks are empty and in front. -/
def MostlyEmpty : CompFile → Prop
  | blockList mBlocks => mBlocks.length / 2 < leadingEmpty mBlocks
  | pixz _ => False

theorem lf_read_of_findBlock {file : CompFile} {it : List Block} {offset : Int}
    (h : file.findBlock offset = .ok it) : lf_read file getBlocks buf size offset =
      match (Callback.mk size offset).runAll (getBlocks it (toOff (ofOff offset + size)))
        ⟨offset, buf⟩ with
      | some p => .returned (toInt (p.max - offset)) p.buf
      | none => .outOfBounds := by
  rw [lf_read, CompFile.read, h]
  show (match Except.ok (Option.map _ _) with
    | .ok (some (ret, buf)) => Outcome.returned (toInt ret) buf
    | .ok none => .outOfBounds
    | .error e => except e) = _
  cases (Callback.mk size offset).runAll (getBlocks it (toOff (ofOff offset + size)))
    ⟨offset, buf⟩ with
  | none => rfl
  | some p => rfl

/-- A lookup that fails ends the process. -/
theorem lf_read_of_error {file : CompFile} {e : Exn} {offset : Int}
    (h : file.findBlock offset = .error e) :
    lf_read file getBlocks buf size offset = .exited 1 := by
  rw [lf_read, CompFile.read, h]
  rfl

theorem exists_first_empty (hc : Contiguous 0 bs) (h : bs.length / 2 < leadingEmpty bs) :
    ∃ b rest, bs = b :: rest ∧ IsEmpty b := by
  cases bs with
  | nil => exact absurd h (Nat.lt_irrefl 0)
  | cons b rest =>
      refine ⟨b, rest, rfl, hc.1, ?_⟩
      by_contra hne
      have hzero : leadingEmpty (b :: rest) = 0 := by
        rw [leadingEmpty, List.takeWhile_cons_of_neg (by simpa using hne)]
        rfl
      omega

theorem isEmpty_of_total (hc : Contiguous 0 bs) (htotal : total bs = 0) :
    ∀ b ∈ bs, IsEmpty b := by
  intro b hb
  have hend := uend_le_total hc (by omega) hb
  rw [uend] at hend
  constructor
  · exact UInt64.toNat_inj.mp (show b.uoff.toNat = 0 by omega)
  · exact UInt32.toNat_inj.mp (show b.usize.toNat = 0 by omega)

/-- When the search stops at the first block, the request is served if it starts at the
start of the file or asks for nothing in front of its end. -/
theorem lf_read_mostlyEmpty (hm : (blockList bs).Mounted) (hoff : total bs ≤ off)
    (hlt : off < 2 ^ 63) (hlen : ∀ b, (decompress b).length = b.usize.toNat)
    (hcached : Coherent decompress cached)
    (hget : ∀ it max, Delivers decompress cached it max (getBlocks it max))
    (hhalf : bs.length / 2 < leadingEmpty bs) :
    lf_read (blockList bs) getBlocks buf size off = .returned 0 buf ↔
      off = 0 ∨ toOff (ofOff off + size) ≤ 0 := by
  obtain ⟨hc, hN⟩ := hm
  have hfind : (blockList bs).findBlock off = .ok bs :=
    (findBlock_pastEnd hc hN hoff hlt).trans (if_pos hhalf)
  obtain ⟨hperm, hds⟩ := (hget bs (toOff (ofOff off + size))).contents hcached
  obtain ⟨b, rest, hbs, hb⟩ := exists_first_empty hc hhalf
  rw [lf_read_of_findBlock hfind]
  by_cases hstop : toOff (ofOff off + size) ≤ 0
  · have hnone : scanned bs (toOff (ofOff off + size)) = [] := by
      have hnot : ¬ toOff b.uoff < toOff (ofOff off + size) := by
        rw [hb.1]
        exact not_lt.mpr hstop
      rw [hbs, scanned, List.takeWhile_cons_of_neg (by simpa using hnot)]
    rw [hnone, List.perm_nil, List.map_eq_nil_iff] at hperm
    rw [hperm]
    refine iff_of_true ?_ (.inr hstop)
    show Outcome.returned (toInt ((off : Int) - off)) buf = .returned 0 buf
    rw [Int.sub_self]
    rfl
  · have hpos := not_le.mp hstop
    have hmem : b ∈ scanned bs (toOff (ofOff off + size)) := by
      have hlt0 : toOff b.uoff < toOff (ofOff off + size) := by
        rw [hb.1]
        exact hpos
      rw [hbs, scanned, List.takeWhile_cons_of_pos (by simpa using hlt0)]
      exact List.mem_cons_self
    obtain rfl | hoff0 := Nat.eq_zero_or_pos off
    · have hall : ∀ d ∈ getBlocks bs (toOff (ofOff (0 : Nat) + size)), IsEmpty d.1 := by
        intro d hd
        apply isEmpty_of_total hc (Nat.le_zero.mp hoff)
        exact (List.takeWhile_sublist _).subset (hperm.subset (List.mem_map_of_mem hd))
      refine iff_of_true ?_ (.inl rfl)
      rw [Int.natCast_zero] at hall ⊢
      rw [runAll_empty_at hall]
      rfl
    · obtain ⟨d, hd, hdb⟩ := List.mem_map.mp (hperm.symm.subset hmem)
      have hempty : IsEmpty d.1 := hdb ▸ hb
      have hubuf : d.2.length = 0 := by
        rw [hds d hd, hlen, hempty.2]
        rfl
      rw [runAll_eq_none hd (run_empty_before hempty hubuf hoff0 hlt hpos)]
      refine iff_of_false (fun h => by cases h) ?_
      rintro (h0 | h0)
      · omega
      · exact hstop h0

/-- When a request at the end of a file or behind it gives no bytes and leaves the buffer
and the process alone. -/
theorem lf_read_pastEnd_iff {file : CompFile} (hm : file.Mounted)
    (hoff : file.uncompressedSize ≤ off) (hlt : off < 2 ^ 63)
    (hlen : ∀ b, (decompress b).length = b.usize.toNat) (hcached : Coherent decompress cached)
    (hget : ∀ it max, Delivers decompress cached it max (getBlocks it max)) :
    lf_read file getBlocks buf size off = .returned 0 buf ↔
      file.MostlyEmpty ∧ (off = 0 ∨ toOff (ofOff off + size) ≤ 0) := by
  cases file with
  | pixz idx =>
      have hsize : PixzFile.sizeOf idx.blocks ≤ off :=
        Int.ofNat_le.mp ((PixzFile.uncompressedSize_eq idx).symm.trans_le hoff)
      have hfind : (pixz idx).findBlock off = .error (.runtime "can't find block") := by
        rw [CompFile.findBlock, PixzFile.findBlock_pastEnd idx hsize (by omega)]
        rfl
      rw [lf_read_of_error hfind]
      exact iff_of_false nofun fun h => h.1
  | blockList bs =>
      rw [uncompressedSize_blockList hm] at hoff
      have hsize : total bs ≤ off := Int.ofNat_le.mp hoff
      by_cases hhalf : bs.length / 2 < leadingEmpty bs
      · rw [lf_read_mostlyEmpty hm hsize hlt hlen hcached hget hhalf]
        exact (and_iff_right hhalf).symm
      · have hfind : (blockList bs).findBlock off = .error (.runtime "can't find block") :=
          (findBlock_pastEnd hm.1 hm.2 hsize hlt).trans (if_neg hhalf)
        rw [lf_read_of_error hfind]
        exact iff_of_false nofun fun h => hhalf h.1

/-- Blocks of zero bytes. -/
def zeros (b : Block) : Buffer := List.replicate b.usize.toNat 0

/-- An xz file of two bytes. -/
def twoByteFile : CompFile := .pixz (.single ⟨12, 0, 28, 2, 4⟩ rfl (by decide))

/-- Behind the end of a file with two empty blocks in front, where the request comes back to the
start, and at the ends of a file of two blocks and of an xz file. -/
theorem lf_read_pastEnd_iff_files :
    lf_read (blockList [⟨0, 9, 0, 10⟩, ⟨0, 9, 0, 19⟩, ⟨4, 9, 0, 28⟩]) (inOrder zeros) [7]
        0xfffffffffffffffc (4 : Nat) = .returned 0 [7] ∧
      ¬ lf_read (blockList [⟨4, 9, 0, 10⟩, ⟨2, 9, 4, 19⟩]) (inOrder zeros) [7] 1 (6 : Nat) =
        .returned 0 [7] ∧
      ¬ lf_read twoByteFile (inOrder zeros) [7] 1 (2 : Nat) = .returned 0 [7] := by
  have hlen : ∀ b, (zeros b).length = b.usize.toNat := fun _ => List.length_replicate
  have hthree : (blockList [⟨0, 9, 0, 10⟩, ⟨0, 9, 0, 19⟩, ⟨4, 9, 0, 28⟩]).Mounted :=
    ⟨⟨rfl, rfl, rfl, trivial⟩, by decide⟩
  have htwo : (blockList [⟨4, 9, 0, 10⟩, ⟨2, 9, 4, 19⟩]).Mounted :=
    ⟨⟨rfl, rfl, trivial⟩, by decide⟩
  have hxz : twoByteFile.Mounted := trivial
  refine ⟨?_, ?_, ?_⟩
  · apply (lf_read_pastEnd_iff hthree (by decide) (by decide) hlen
      (coherent_none _) (inOrder_delivers zeros)).mpr
    exact ⟨show 1 < 2 by decide, .inr (by decide)⟩
  · intro h
    have hhalf := (lf_read_pastEnd_iff htwo (by decide) (by decide) hlen
      (coherent_none _) (inOrder_delivers zeros)).mp h
    exact absurd hhalf.1 (show ¬ 1 < 0 by decide)
  · intro h
    exact ((lf_read_pastEnd_iff hxz (by decide) (by decide) hlen (coherent_none _)
      (inOrder_delivers zeros)).mp h).1

/-- A request at the exact end of a file of four bytes ends the process. -/
theorem lf_read_end_exits :
    (blockList [⟨4, 9, 0, 10⟩]).Mounted ∧ (blockList [⟨4, 9, 0, 10⟩]).uncompressedSize = 4 ∧
      lf_read (blockList [⟨4, 9, 0, 10⟩]) (inOrder zeros) [7] 1 4 = .exited 1 := by
  have hm : (blockList [⟨4, 9, 0, 10⟩]).Mounted := ⟨⟨rfl, trivial⟩, by decide⟩
  refine ⟨hm, uncompressedSize_blockList hm, ?_⟩
  apply lf_read_of_error
  apply (findBlock_pastEnd hm.1 hm.2 (Nat.le_refl 4) (by decide)).trans
  exact if_neg (by decide)

end CompFile

end Lzopfs
