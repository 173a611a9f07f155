import Lzopfs.BlockLookup
import Mathlib.Data.List.Perm.Basic
import Mathlib.Data.List.TakeWhile

/-!
# Reading a part of a file

A read finds the block at its offset and has the cache deliver that block and the ones
behind it, as long as they start before the end of the read. Each delivery copies the
part of the block that was asked for. Blocks that are cached are delivered at once, the
others by jobs that end in any order; a job may find its block in the cache after all.
-/

namespace Lzopfs

open Verify BlockListCompFile

/-- What was asked for. -/
structure Callback where
  size : UInt64
  offset : Int

/-- What the deliveries of a read work on: the furthest offset reached, and the buffer
of the caller. -/
structure Progress where
  max : Int
  buf : Buffer

namespace Callback

def omin (cb : Callback) (block : Block) : Int := max cb.offset (toOff block.uoff)

/-- The sum of an `off_t` and a `size_t` is unsigned, and so is the minimum. -/
def omax (cb : Callback) (block : Block) : Int :=
  let stop := ofOff cb.offset + cb.size
  let uend := block.uoff + block.usize.toUInt64
  toOff (if uend < stop then uend else stop)

def bstart (cb : Callback) (block : Block) : UInt64 := ofOff (cb.omin block) - block.uoff
def bsize (cb : Callback) (block : Block) : UInt64 := ofOff (cb.omax block - cb.omin block)

/-- `Callback::operator()`. It fails when the copy leaves one of the buffers. -/
def run (cb : Callback) (block : Block) (ubuf : Buffer) (p : Progress) : Option Progress :=
  let dst := (cb.omin block - cb.offset).toNat
  let bsize := (cb.bsize block).toNat
  let bstart := (cb.bstart block).toNat
  if bstart + bsize ≤ ubuf.length ∧ dst + bsize ≤ p.buf.length then
    some {
      max := if p.max < cb.omax block then cb.omax block else p.max
      buf := Buffer.blit p.buf dst ((ubuf.drop bstart).take bsize) }
  else none

/-- One delivery after the other. -/
def runAll (cb : Callback) (ds : List (Block × Buffer)) (p : Progress) : Option Progress :=
  ds.foldlM (fun p d => cb.run d.1 d.2 p) p

end Callback

namespace OpenCompressedFile

/-- The blocks `BlockCache::getBlocks` steps through. -/
def scanned (it : List Block) (max : Int) : List Block := it.takeWhile fun b => toOff b.uoff < max

/-- What is cached of a block is its contents. -/
def Coherent (decompress : Block → Buffer) (cached : Block → Option Buffer) : Prop :=
  ∀ b buf, cached b = some buf → buf = decompress b

/-- How `getBlocks` may deliver blocks: the cached ones first, then the others in any
order, each by a job that looks into the cache again. -/
def Delivers (decompress : Block → Buffer) (cached : Block → Option Buffer) (it : List Block)
    (max : Int) (ds : List (Block × Buffer)) : Prop :=
  ∃ jobs : List (Block × (Block → Option Buffer)),
    (jobs.map Prod.fst).Perm ((scanned it max).filter fun b => (cached b).isNone) ∧
      (∀ j ∈ jobs, Coherent decompress j.2) ∧
      ds = (scanned it max).filterMap (fun b => (cached b).map (b, ·)) ++
        jobs.map fun j => (j.1, (j.2 j.1).getD (decompress j.1))

/-- `OpenCompressedFile::read`. It gives the number of bytes and the buffer. -/
def read (mBlocks : List Block) (getBlocks : List Block → Int → List (Block × Buffer))
    (buf : Buffer) (size : UInt64) (offset : Int) : Except Exn (Option (Int × Buffer)) := do
  let biter ← findBlock mBlocks offset
  let cb : Callback := ⟨size, offset⟩
  let deliveries := getBlocks biter (toOff (ofOff offset + size))
  return (cb.runAll deliveries ⟨offset, buf⟩).map fun p => (p.max - offset, p.buf)

end OpenCompressedFile

theorem Buffer.getElem?_blit {b bytes : Buffer} {start i : Nat}
    (h : start + bytes.length ≤ b.length) :
    (Buffer.blit b start bytes)[i]? =
      if start ≤ i ∧ i < start + bytes.length then bytes[i - start]? else b[i]? := by
  have htake : (b.take start).length = start := by
    rw [List.length_take]
    omega
  rw [Buffer.blit, List.append_assoc]
  by_cases hlo : i < start
  · rw [List.getElem?_append_left (by omega), List.getElem?_take_of_lt hlo, if_neg (by omega)]
  · rw [List.getElem?_append_right (by omega), htake]
    by_cases hhi : i < start + bytes.length
    · rw [List.getElem?_append_left (by omega), if_pos (by omega)]
    · rw [List.getElem?_append_right (by omega), List.getElem?_drop, if_neg (by omega)]
      congr 1
      omega

namespace OpenCompressedFile

variable {bs it : List Block} {b : Block} {decompress : Block → Buffer}
  {cached : Block → Option Buffer} {off : Nat} {size : UInt64} {p : Progress}

/-- The contents of the file. -/
def contents (decompress : Block → Buffer) (bs : List Block) : Buffer := bs.flatMap decompress

/-- Where the copy for a block starts and ends, as offsets of the file. -/
def lo (off : Nat) (b : Block) : Nat := max off b.uoff.toNat
def hi (off : Nat) (size : UInt64) (b : Block) : Nat := min (off + size.toNat) (uend b)

section Content

variable (hlen : ∀ b ∈ bs, (decompress b).length = b.usize.toNat)
include hlen

theorem length_contents : (contents decompress bs).length = total bs := by
  induction bs with
  | nil => rfl
  | cons b bs ih =>
      rw [List.forall_mem_cons] at hlen
      rw [contents, List.flatMap_cons, List.length_append, hlen.1, total_cons, ← ih hlen.2]
      rfl

/-- The bytes of a block, as bytes of the file. -/
theorem contents_getElem? (hc : Contiguous 0 bs) (hlt : total bs < 2 ^ 64) (hb : b ∈ bs) {i : Nat}
    (hlo : b.uoff.toNat ≤ i) (hhi : i < uend b) :
    (contents decompress bs)[i]? = (decompress b)[i - b.uoff.toNat]? := by
  obtain ⟨as, cs, rfl⟩ := List.append_of_mem hb
  have huoff : b.uoff.toNat = total as := by
    simpa using Contiguous.uoff_eq hc (by simpa using hlt)
  have has : (contents decompress as).length = total as :=
    length_contents fun a ha => hlen a (List.mem_append_left _ ha)
  have hbl := hlen b hb
  rw [contents, List.flatMap_append, List.flatMap_cons]
  rw [contents] at has
  rw [uend] at hhi
  rw [List.getElem?_append_right (by omega), List.getElem?_append_left (by omega), has, huoff]

end Content

section Copy

variable (hc : Contiguous 0 bs) (hN : total bs < 2 ^ 63)
  (hlen : ∀ b ∈ bs, (decompress b).length = b.usize.toNat) (hsize : off + size.toNat < 2 ^ 63)
include hc hN hlen hsize

omit hlen in
/-- The callback computes the start and the end of the copy. -/
theorem clip_eq (hb : b ∈ bs) : (Callback.mk size off).omin b = lo off b ∧
    (Callback.mk size off).omax b = hi off size b := by
  have huend := uend_le_total hc (by omega) hb
  have huend_eq : uend b = b.uoff.toNat + b.usize.toNat := rfl
  have hadd : (b.uoff + b.usize.toUInt64).toNat = uend b := by
    rw [UInt64.toNat_add, UInt32.toNat_toUInt64]
    omega
  have hstop : (ofOff (off : Int) + size).toNat = off + size.toNat := by
    rw [UInt64.toNat_add, toNat_ofOff (by omega)]
    omega
  constructor
  · rw [Callback.omin, toOff_of_lt (by omega), lo]
    simp only
    omega
  · simp only [Callback.omax]
    by_cases hlt : uend b < off + size.toNat
    · rw [if_pos (by rw [UInt64.lt_iff_toNat_lt, hadd, hstop]; exact hlt),
        toOff_of_lt (by omega), hadd, hi, Nat.min_eq_right (by omega)]
    · rw [if_neg (by rw [UInt64.lt_iff_toNat_lt, hadd, hstop]; exact hlt),
        toOff_of_lt (by omega), hstop, hi, Nat.min_eq_left (by omega)]

/-- A delivery copies the part of its block that was asked for. -/
theorem run_callback (hb : b ∈ bs) (hlo : off < uend b) (hhi : b.uoff.toNat < off + size.toNat)
    (hbuf : p.buf.length = size.toNat) :
    ∃ p', (Callback.mk size off).run b (decompress b) p = some p' ∧
      p'.buf.length = size.toNat ∧ p'.max = max p.max (hi off size b) ∧
      ∀ i, p'.buf[i]? = if lo off b ≤ off + i ∧ off + i < hi off size b
        then (contents decompress bs)[off + i]? else p.buf[i]? := by
  have huend := uend_le_total hc (by omega) hb
  have hbl := hlen b hb
  have huend_eq : uend b = b.uoff.toNat + b.usize.toNat := rfl
  obtain ⟨homin, homax⟩ := clip_eq hc hN hsize hb
  have hle : lo off b ≤ hi off size b := by
    rw [lo, hi]
    omega
  have hlo64 : lo off b < 2 ^ 64 := by
    rw [lo]
    omega
  have hhi64 : hi off size b < 2 ^ 63 := by
    rw [hi]
    omega
  have hbsize : ((Callback.mk size off).bsize b).toNat = hi off size b - lo off b := by
    rw [Callback.bsize, homax, homin, ← Int.ofNat_sub hle, toNat_ofOff (by omega)]
  have huoff_le : b.uoff.toNat ≤ lo off b := by
    rw [lo]
    omega
  have hbstart : ((Callback.mk size off).bstart b).toNat = lo off b - b.uoff.toNat := by
    rw [Callback.bstart, homin, UInt64.toNat_sub_of_le, toNat_ofOff hlo64]
    rw [UInt64.le_iff_toNat_le, toNat_ofOff hlo64]
    exact huoff_le
  have hoff_le : off ≤ lo off b := by
    rw [lo]
    omega
  have hdst : ((Callback.mk size off).omin b - (off : Int)).toNat = lo off b - off := by
    rw [homin]
    omega
  have hhi_uend : hi off size b ≤ uend b := Nat.min_le_right _ _
  have hhi_stop : hi off size b ≤ off + size.toNat := Nat.min_le_left _ _
  have hbytes : (((decompress b).drop (lo off b - b.uoff.toNat)).take
      (hi off size b - lo off b)).length = hi off size b - lo off b := by
    rw [List.length_take, List.length_drop]
    omega
  have hroom : lo off b - off + (hi off size b - lo off b) ≤ p.buf.length := by omega
  simp only [Callback.run]
  rw [hbsize, hbstart, hdst, if_pos ⟨by omega, hroom⟩, homax]
  refine ⟨_, rfl, ?_, ?_, ?_⟩
  · rw [Buffer.length_blit (by rw [hbytes]; exact hroom), hbuf]
  · exact (max_def_lt p.max _).symm
  · intro i
    rw [Buffer.getElem?_blit (by rw [hbytes]; exact hroom), hbytes]
    by_cases hi' : lo off b ≤ off + i ∧ off + i < hi off size b
    · rw [if_pos hi', if_pos (by omega), List.getElem?_take_of_lt (by omega), List.getElem?_drop,
        contents_getElem? hlen hc (by omega) hb (by omega) (by omega)]
      congr 1
      omega
    · rw [if_neg hi', if_neg (by omega)]

/-- What any sequence of deliveries leaves behind: every byte of the parts copied, and
the furthest end of a part. -/
theorem run_callbacks {ds : List (Block × Buffer)}
    (hds : ∀ d ∈ ds, d.1 ∈ bs ∧ d.2 = decompress d.1 ∧ off < uend d.1 ∧
      d.1.uoff.toNat < off + size.toNat) (hbuf : p.buf.length = size.toNat) :
    ∃ p', (Callback.mk size off).runAll ds p = some p' ∧ p.max ≤ p'.max ∧
      (∀ d ∈ ds, (hi off size d.1 : Int) ≤ p'.max) ∧
      (p'.max = p.max ∨ ∃ d ∈ ds, p'.max = hi off size d.1) ∧
      ∀ i, p'.buf[i]? =
        if ∃ d ∈ ds, lo off d.1 ≤ off + i ∧ off + i < hi off size d.1
        then (contents decompress bs)[off + i]? else p.buf[i]? := by
  induction ds generalizing p with
  | nil =>
      refine ⟨p, rfl, Int.le_refl _, nofun, .inl rfl, ?_⟩
      intro i
      rw [if_neg (by simp)]
  | cons d ds ih =>
      rw [List.forall_mem_cons] at hds
      obtain ⟨⟨hb, hd, hlo, hhi⟩, hds⟩ := hds
      obtain ⟨q, hq, hqbuf, hqmax, hqget⟩ := run_callback hc hN hlen hsize hb hlo hhi hbuf
      obtain ⟨p', hp, hle, hall, hmax, hget⟩ := ih hds hqbuf
      refine ⟨p', ?_, ?_, ?_, ?_, ?_⟩
      · rw [Callback.runAll, List.foldlM_cons, hd, hq]
        exact hp
      · exact le_trans (hqmax ▸ le_max_left _ _) hle
      · rw [List.forall_mem_cons]
        exact ⟨le_trans (hqmax ▸ le_max_right _ _) hle, hall⟩
      · rw [List.exists_mem_cons_iff]
        obtain hmax | hmax := hmax
        · rw [hmax, hqmax]
          obtain h | h := max_choice p.max (hi off size d.1)
          · exact .inl h
          · exact .inr (.inl h)
        · exact .inr (.inr hmax)
      · intro i
        rw [hget, hqget]
        by_cases hrest : ∃ d ∈ ds, lo off d.1 ≤ off + i ∧ off + i < hi off size d.1
        · rw [if_pos hrest, if_pos (List.exists_mem_cons_of_exists hrest)]
        · rw [if_neg hrest]
          by_cases hhere : lo off d.1 ≤ off + i ∧ off + i < hi off size d.1
          · rw [if_pos hhere, if_pos (List.exists_mem_cons_of (p := fun d : Block × Buffer =>
              lo off d.1 ≤ off + i ∧ off + i < hi off size d.1) ds hhere)]
          · rw [if_neg hhere,
              if_neg (by rw [List.exists_mem_cons_iff]; exact not_or.mpr ⟨hhere, hrest⟩)]

end Copy

/-- Whatever is cached and in whatever order the jobs run, every block that was stepped
through is delivered once, with its contents. -/
theorem Delivers.contents {max : Int} {ds : List (Block × Buffer)}
    (hcached : Coherent decompress cached) (h : Delivers decompress cached it max ds) :
    (ds.map Prod.fst).Perm (scanned it max) ∧ ∀ d ∈ ds, d.2 = decompress d.1 := by
  obtain ⟨jobs, hperm, hjobs, rfl⟩ := h
  constructor
  · have hhits : ((scanned it max).filterMap fun b => (cached b).map (b, ·)).map Prod.fst =
        (scanned it max).filter fun b => !(cached b).isNone := by
      rw [List.map_filterMap]
      induction scanned it max with
      | nil => rfl
      | cons b bs ih =>
          cases hb : cached b with
          | none => simpa [List.filterMap_cons, hb] using ih
          | some buf => simpa [List.filterMap_cons, hb] using ih
    rw [List.map_append, List.map_map, hhits]
    refine (List.Perm.append_left _ hperm).trans ?_
    have hsplit := List.filter_append_perm (fun b => !(cached b).isNone) (scanned it max)
    simpa using hsplit
  · intro d hd
    obtain hhit | hjob := List.mem_append.mp hd
    · obtain ⟨b, -, hb⟩ := List.mem_filterMap.mp hhit
      obtain ⟨buf, hbuf, rfl⟩ := Option.map_eq_some_iff.mp hb
      exact hcached b buf hbuf
    · obtain ⟨j, hj, rfl⟩ := List.mem_map.mp hjob
      cases hfind : j.2 j.1 with
      | none => rfl
      | some buf => exact hjobs j hj j.1 buf hfind

section Read

variable (hc : Contiguous 0 bs) (hN : total bs < 2 ^ 63)
include hc hN

theorem scanned_iff (hb : b ∈ bs) :
    toOff b.uoff < ((off + size.toNat : Nat) : Int) ↔ b.uoff.toNat < off + size.toNat := by
  have huend := uend_le_total hc (by omega) hb
  rw [uend] at huend
  rw [toOff_of_lt (by omega)]
  omega

/-- The blocks stepped through hold a part of what was asked for. -/
theorem mem_scanned (hb : b ∈ scanned (bs.drop (endingBefore bs off)) (off + size.toNat : Nat)) :
    b ∈ bs ∧ off < uend b ∧ b.uoff.toNat < off + size.toNat := by
  have hlt := List.mem_takeWhile_imp hb
  have hdrop := (List.takeWhile_sublist _).subset hb
  obtain ⟨i, hi, rfl⟩ := List.getElem_of_mem hdrop
  rw [List.length_drop] at hi
  rw [List.getElem_drop] at hlt ⊢
  have hlen : endingBefore bs off + i < bs.length := by omega
  have hmem : bs[endingBefore bs off + i] ∈ bs := List.getElem_mem hlen
  refine ⟨hmem, ?_, (scanned_iff hc hN hmem).mp (of_decide_eq_true hlt)⟩
  have hnot := (lt_endingBefore off hc (by omega) hlen).not.mp (by omega)
  rw [(getElem_position hc (by omega) hlen).2]
  omega

/-- Every byte asked for, if the file has it, is in one of the blocks stepped through. -/
theorem exists_scanned {i : Nat} (hask : i < size.toNat) (hin : off + i < total bs) :
    ∃ b ∈ scanned (bs.drop (endingBefore bs off)) (off + size.toNat : Nat),
      lo off b ≤ off + i ∧ off + i < hi off size b := by
  have hj := endingBefore_lt_length hc (by omega) hin
  obtain ⟨hlo, hhi⟩ := (holds_iff hc (by omega) (off + i) hj).mpr rfl
  have hle : endingBefore bs off ≤ endingBefore bs (off + i) := by
    by_contra hgt
    have hback := (lt_endingBefore off hc (by omega) hj).mp (by omega)
    rw [(getElem_position hc (by omega) hj).2] at hhi
    omega
  refine ⟨bs[endingBefore bs (off + i)], ?_, ?_, ?_⟩
  · -- The blocks in front of it start no later, so the iterator does not stop there.
    have hlen : endingBefore bs (off + i) - endingBefore bs off <
        (bs.drop (endingBefore bs off)).length := by
      rw [List.length_drop]
      omega
    have htake : endingBefore bs (off + i) - endingBefore bs off <
        (scanned (bs.drop (endingBefore bs off)) (off + size.toNat : Nat)).length := by
      rw [scanned, lt_length_takeWhile hlen]
      intro a ha
      obtain ⟨n, hn, rfl⟩ := List.getElem_of_mem ha
      rw [List.length_take] at hn
      rw [List.getElem_take, List.getElem_drop]
      have hmem : endingBefore bs off + n < bs.length := by omega
      apply decide_eq_true
      rw [scanned_iff hc hN (List.getElem_mem hmem),
        (getElem_position hc (by omega) hmem).1]
      rw [(getElem_position hc (by omega) hj).1] at hlo
      have hmono :=
        total_take_le bs (show endingBefore bs off + n ≤ endingBefore bs (off + i) by omega)
      omega
    have hget : (scanned (bs.drop (endingBefore bs off)) (off + size.toNat : Nat))[
        endingBefore bs (off + i) - endingBefore bs off] = bs[endingBefore bs (off + i)] := by
      rw [List.IsPrefix.getElem (show scanned _ _ <+: _ from List.takeWhile_prefix _) htake,
        List.getElem_drop]
      congr 1
      omega
    rw [← hget]
    exact List.getElem_mem htake
  · exact max_le (Nat.le_add_right off i) hlo
  · exact lt_min (by omega) hhi

end Read

section Deliveries

variable {bs : List Block} {decompress : Block → Buffer} {off : Nat} {size : UInt64}
  {ds : List (Block × Buffer)} {buf : Buffer}

/-- The blocks a read steps through, each with its contents, in some order. -/
def MakesUp (decompress : Block → Buffer) (blocks : List Block) (ds : List (Block × Buffer)) :
    Prop :=
  ds.Perm (blocks.map fun b => (b, decompress b))

variable (hc : Contiguous 0 bs) (hN : total bs < 2 ^ 63)
  (hds : MakesUp decompress (scanned (bs.drop (endingBefore bs off)) (off + size.toNat : Nat)) ds)
include hc hN hds

theorem delivered_mem {d : Block × Buffer} (hd : d ∈ ds) :
    d.1 ∈ bs ∧ d.2 = decompress d.1 ∧ off < uend d.1 ∧ d.1.uoff.toNat < off + size.toNat := by
  obtain ⟨b, hb, rfl⟩ := List.mem_map.mp (hds.mem_iff.mp hd)
  obtain ⟨hmem, hlo, hhi⟩ := mem_scanned hc hN hb
  exact ⟨hmem, rfl, hlo, hhi⟩

/-- The parts that are copied are the bytes asked for that the file has. -/
theorem delivered_iff (i : Nat) :
    (∃ d ∈ ds, lo off d.1 ≤ off + i ∧ off + i < hi off size d.1) ↔
      i < min size.toNat (total bs - off) := by
  constructor
  · rintro ⟨d, hd, -, hlt⟩
    have huend := uend_le_total hc (by omega) (delivered_mem hc hN hds hd).1
    rw [hi] at hlt
    omega
  · intro hin
    obtain ⟨b, hb, hpart⟩ := exists_scanned hc hN
      (show i < size.toNat by omega) (show off + i < total bs by omega)
    exact ⟨(b, decompress b), hds.mem_iff.mpr (List.mem_map_of_mem hb), hpart⟩

/-- The furthest end of a part is where the bytes asked for end. -/
theorem max_delivered {max : Int} (hle : (off : Int) ≤ max)
    (hends : ∀ d ∈ ds, (hi off size d.1 : Int) ≤ max)
    (hmax : max = off ∨ ∃ d ∈ ds, max = hi off size d.1) :
    max = ((off + min size.toNat (total bs - off) : Nat) : Int) := by
  apply le_antisymm
  · obtain h | ⟨d, hd, h⟩ := hmax
    · rw [h]
      omega
    · have huend := uend_le_total hc (by omega) (delivered_mem hc hN hds hd).1
      have hlo := (delivered_mem hc hN hds hd).2.2.1
      rw [h, hi]
      omega
  · obtain hz | hpos := Nat.eq_zero_or_pos (min size.toNat (total bs - off))
    · rw [hz]
      exact hle
    · obtain ⟨d, hd, -, hlt⟩ := (delivered_iff hc hN hds
        (min size.toNat (total bs - off) - 1)).mpr (by omega)
      have hend := hends d hd
      omega

/-- The deliveries of a read leave the bytes asked for in the buffer. -/
theorem runAll_delivered (hlen : ∀ b ∈ bs, (decompress b).length = b.usize.toNat)
    (hsize : off + size.toNat < 2 ^ 63) (hbuf : buf.length = size.toNat) :
    let n := min size.toNat (total bs - off)
    (Callback.mk size off).runAll ds ⟨off, buf⟩ =
      some ⟨(off + n : Nat), ((contents decompress bs).drop off).take n ++ buf.drop n⟩ := by
  intro n
  obtain ⟨p, hrun, hle, hends, hmax, hbytes⟩ :=
    run_callbacks (p := ⟨off, buf⟩) hc hN hlen hsize (fun d hd => delivered_mem hc hN hds hd) hbuf
  have hret := max_delivered hc hN hds hle hends hmax
  have hcl := length_contents hlen
  have hfront : (((contents decompress bs).drop off).take n).length = n := by
    rw [List.length_take, List.length_drop]
    omega
  have hbuf' : p.buf = ((contents decompress bs).drop off).take n ++ buf.drop n := by
    apply List.ext_getElem?
    intro i
    rw [hbytes]
    by_cases hin : i < n
    · rw [if_pos ((delivered_iff hc hN hds i).mpr hin), List.getElem?_append_left (by omega),
        List.getElem?_take_of_lt hin, List.getElem?_drop]
    · rw [if_neg (fun h => hin ((delivered_iff hc hN hds i).mp h)),
        List.getElem?_append_right (by omega), hfront, List.getElem?_drop]
      congr 1
      omega
  rw [hrun, ← hret, ← hbuf']

end Deliveries

/-- Where a request ends. -/
theorem toOff_stop (hsize : off + size.toNat < 2 ^ 63) :
    toOff (ofOff (off : Int) + size) = ((off + size.toNat : Nat) : Int) := by
  have hnat : (ofOff (off : Int) + size).toNat = off + size.toNat := by
    rw [UInt64.toNat_add, toNat_ofOff (by omega)]
    omega
  rw [toOff_of_lt (by omega), hnat]

/-- Whatever is cached and in whatever order the jobs run, every block that was stepped
through is delivered once, with its contents. -/
theorem Delivers.makesUp {max : Int} {ds : List (Block × Buffer)}
    (hcached : Coherent decompress cached) (h : Delivers decompress cached it max ds) :
    MakesUp decompress (scanned it max) ds := by
  obtain ⟨hperm, hds⟩ := h.contents hcached
  have hmap : (ds.map Prod.fst).map (fun b => (b, decompress b)) = ds := by
    have hid : ∀ d ∈ ds, ((fun b => (b, decompress b)) ∘ Prod.fst) d = id d :=
      fun d hd => congrArg (Prod.mk d.1) (hds d hd).symm
    rw [List.map_map, List.map_congr_left hid, List.map_id]
  rw [MakesUp, ← hmap]
  exact hperm.map _

/-- Deliveries that make up the blocks are among those that are allowed. -/
theorem MakesUp.delivers {max : Int} {ds : List (Block × Buffer)}
    (h : MakesUp decompress (scanned it max) ds) :
    Delivers decompress (fun _ => none) it max ds := by
  refine ⟨ds.map fun d => (d.1, fun _ => none), ?_, ?_, ?_⟩
  · have hfst := h.map Prod.fst
    rw [List.map_map] at hfst ⊢
    have hid : (Prod.fst ∘ fun b => (b, decompress b)) = (id : Block → Block) := rfl
    rw [hid, List.map_id] at hfst
    have hall : (scanned it max).filter (fun _ => (none : Option Buffer).isNone) =
        scanned it max := List.filter_eq_self.mpr fun _ _ => rfl
    rw [hall]
    exact hfst
  · intro j hj b buf hbuf
    obtain ⟨d, -, rfl⟩ := List.mem_map.mp hj
    cases hbuf
  · have hnone : (scanned it max).filterMap
        (fun b => (none : Option Buffer).map (b, ·)) = [] :=
      List.filterMap_eq_nil_iff.mpr fun _ _ => rfl
    have hid : ∀ d ∈ ds, (d.1, decompress d.1) = id d := by
      intro d hd
      obtain ⟨b, -, rfl⟩ := List.mem_map.mp (h.mem_iff.mp hd)
      rfl
    rw [hnone, List.nil_append, List.map_map]
    exact ((List.map_congr_left hid).trans (List.map_id ds)).symm

/-- Whatever is cached and in whatever order the jobs run, a read copies the bytes asked
for, as far as the file has them, and nothing else. -/
theorem read_slice {getBlocks : List Block → Int → List (Block × Buffer)} {buf : Buffer}
    (hc : Contiguous 0 bs) (hpos : ∀ b ∈ bs, b.usize ≠ 0) (hN : total bs < 2 ^ 63)
    (hlen : ∀ b ∈ bs, (decompress b).length = b.usize.toNat) (hoff : off < total bs)
    (hsize : off + size.toNat < 2 ^ 63) (hbuf : buf.length = size.toNat)
    (hcached : Coherent decompress cached)
    (hget : ∀ it max, Delivers decompress cached it max (getBlocks it max)) :
    let n := min size.toNat (total bs - off)
    read bs getBlocks buf size off =
      .ok (some (n, ((contents decompress bs).drop off).take n ++ buf.drop n)) := by
  intro n
  have hlead : leadingEmpty bs = 0 := by
    cases bs with
    | nil => rfl
    | cons b bs => simp [leadingEmpty, hpos b List.mem_cons_self]
  have hfind := findBlock_eq_drop hc (by omega) hoff hlead
  have hds :=
    (hget (bs.drop (endingBefore bs off)) ((off + size.toNat : Nat) : Int)).makesUp hcached
  have hrun := runAll_delivered hc hN hds hlen hsize hbuf
  rw [read, hfind]
  dsimp only [bind, Except.bind, pure, Except.pure]
  rw [toOff_stop hsize, hrun]
  dsimp only [Option.map_some]
  rw [Int.natCast_add, add_sub_cancel_left]

/-- Nothing is cached, and the jobs run in order. -/
def inOrder (decompress : Block → Buffer) (it : List Block) (max : Int) : List (Block × Buffer) :=
  (scanned it max).map fun b => (b, decompress b)

theorem inOrder_delivers (decompress : Block → Buffer) (it : List Block) (max : Int) :
    Delivers decompress (fun _ => none) it max (inOrder decompress it max) := by
  refine ⟨(scanned it max).map fun b => (b, fun _ => none), ?_, ?_, ?_⟩
  · simp [Function.comp_def]
  · intro j hj b buf hbuf
    obtain ⟨a, -, rfl⟩ := List.mem_map.mp hj
    cases hbuf
  · simp [inOrder]

theorem coherent_none (decompress : Block → Buffer) : Coherent decompress fun _ => none :=
  fun _ _ h => by cases h

/-- The cached blocks, and then the others from the last one on. -/
def cachedFirst (decompress : Block → Buffer) (cached : Block → Option Buffer) (it : List Block)
    (max : Int) : List (Block × Buffer) :=
  (scanned it max).filterMap (fun b => (cached b).map (b, ·)) ++
    ((scanned it max).filter fun b => (cached b).isNone).reverse.map fun b => (b, decompress b)

theorem cachedFirst_delivers (decompress : Block → Buffer) (cached : Block → Option Buffer)
    (it : List Block) (max : Int) :
    Delivers decompress cached it max (cachedFirst decompress cached it max) := by
  refine ⟨((scanned it max).filter fun b => (cached b).isNone).reverse.map
    fun b => (b, fun _ => none), ?_, ?_, ?_⟩
  · have hid : (Prod.fst ∘ fun b : Block => (b, (fun _ => none : Block → Option Buffer))) = id :=
      rfl
    rw [List.map_map, hid, List.map_id]
    exact List.reverse_perm _
  · intro j hj b buf hbuf
    obtain ⟨a, -, rfl⟩ := List.mem_map.mp hj
    cases hbuf
  · rw [List.map_map]
    rfl

/-- A file of three blocks. -/
def nineBytes : List Block := [⟨3, 9, 0, 0⟩, ⟨2, 9, 3, 9⟩, ⟨4, 9, 5, 18⟩]

def nineBytesPart (b : Block) : Buffer :=
  (([1, 2, 3, 4, 5, 6, 7, 8, 9] : Buffer).drop b.uoff.toNat).take b.usize.toNat

/-- The middle one is cached. -/
def nineBytesCached (b : Block) : Option Buffer :=
  if b.uoff = 3 then some (nineBytesPart b) else none

theorem nineBytes_coherent : Coherent nineBytesPart nineBytesCached := by
  intro b buf h
  rw [nineBytesCached] at h
  split at h
  · cases h
    rfl
  · cases h

/-- Six bytes out of all three blocks, the middle one first and the first one last. -/
theorem read_slice_nine :
    read nineBytes (cachedFirst nineBytesPart nineBytesCached) [0, 0, 0, 0, 0, 0] 6 2 =
      .ok (some (6, [3, 4, 5, 6, 7, 8])) :=
  @read_slice nineBytes nineBytesPart nineBytesCached 2 6 _ _ ⟨rfl, rfl, rfl, trivial⟩ (by decide)
    (by decide) (by decide) (by decide) (by decide) rfl nineBytes_coherent
    (cachedFirst_delivers nineBytesPart nineBytesCached)

/-- Blocks of the largest size, one after the other. -/
def largest (i : Nat) : Block := ⟨4294967295, 0, UInt64.ofNat (i * 4294967295), UInt64.ofNat i⟩

def largestBlocks (k n : Nat) : List Block := (List.range' k n).map largest

theorem largestBlocks_contiguous (k n : Nat) :
    Contiguous (UInt64.ofNat (k * 4294967295)) (largestBlocks k n) := by
  induction n generalizing k with
  | zero => trivial
  | succ n ih =>
      refine ⟨rfl, ?_⟩
      have hnext := ih (k + 1)
      rw [Nat.succ_mul, UInt64.ofNat_add] at hnext
      exact hnext

theorem total_largestBlocks (k n : Nat) : total (largestBlocks k n) = n * 4294967295 := by
  induction n generalizing k with
  | zero => exact (Nat.zero_mul _).symm
  | succ n ih =>
      have hcons : largestBlocks k (n + 1) = largest k :: largestBlocks (k + 1) n := rfl
      have husize : (largest k).usize.toNat = 4294967295 := rfl
      rw [hcons, total_cons, ih, husize]
      omega

theorem leadingEmpty_largestBlocks (k n : Nat) : leadingEmpty (largestBlocks k n) = 0 := by
  cases n with
  | zero => rfl
  | succ n =>
      have hcons : largestBlocks k (n + 1) = largest k :: largestBlocks (k + 1) n := rfl
      rw [hcons, leadingEmpty, List.takeWhile_cons_of_neg]
      · rfl
      · show ¬ decide ((4294967295 : UInt32) = 0) = true
        decide

theorem usize_of_mem_largestBlocks {k n : Nat} (hb : b ∈ largestBlocks k n) :
    b.usize = 4294967295 := by
  rw [largestBlocks] at hb
  obtain ⟨i, -, rfl⟩ := List.mem_map.mp hb
  rfl

/-- The callback leaves the buffer of a block that starts behind the range of `off_t`. -/
theorem run_behind {ubuf : Buffer} (hlen : ubuf.length = 4294967295) (p : Progress) :
    (Callback.mk 2147483647 (9223372034707292160 : Nat)).run (largest 2147483649) ubuf p =
      none := by
  have hbstart : ((Callback.mk 2147483647 (9223372034707292160 : Nat)).bstart
      (largest 2147483649)).toNat = 18446744069414584321 := by decide
  simp only [Callback.run]
  rw [hbstart, if_neg (by omega)]

/-- The offset is in the last block but one. The last block starts behind the range of
`off_t`, so it compares as if it started before the end of the read. -/
theorem read_largestBlocks {n : Nat} (hn : n = 2147483650)
    (hlen : ∀ b, (decompress b).length = 4294967295) (buf : Buffer) :
    read (largestBlocks 0 n) (inOrder decompress) buf 2147483647
      (9223372034707292160 : Nat) = .ok none := by
  have hc : Contiguous 0 (largestBlocks 0 n) := largestBlocks_contiguous 0 n
  have htotal := total_largestBlocks 0 n
  have hlength : (largestBlocks 0 n).length = n := by
    rw [largestBlocks, List.length_map, List.length_range']
  have hi : 2147483648 < (largestBlocks 0 n).length := by omega
  have hget : (largestBlocks 0 n)[2147483648] = largest 2147483648 := by
    simp [largestBlocks]
  have hat : endingBefore (largestBlocks 0 n) 9223372034707292160 = 2147483648 := by
    have hholds := holds_iff hc (by omega) 9223372034707292160 hi
    rw [hget] at hholds
    exact (hholds.mp ⟨by decide, by decide⟩).symm
  have hdrop : (largestBlocks 0 n).drop 2147483648 = [largest 2147483648, largest 2147483649] := by
    have htwo : n - 2147483648 = 2 := by omega
    rw [largestBlocks, ← List.map_drop, List.drop_range', htwo]
    rfl
  have hfind := findBlock_eq_drop hc (by omega)
    (show 9223372034707292160 < total (largestBlocks 0 n) by omega) (leadingEmpty_largestBlocks 0 n)
  rw [hat, hdrop] at hfind
  have hscanned : scanned [largest 2147483648, largest 2147483649]
      (toOff (ofOff ((9223372034707292160 : Nat) : Int) + 2147483647)) =
        [largest 2147483648, largest 2147483649] := by decide
  have hnone : (Callback.mk 2147483647 (9223372034707292160 : Nat)).runAll
      [(largest 2147483648, decompress (largest 2147483648)),
        (largest 2147483649, decompress (largest 2147483649))]
      ⟨(9223372034707292160 : Nat), buf⟩ = none := by
    rw [Callback.runAll, List.foldlM_cons]
    apply Option.bind_eq_none_iff.mpr
    intro p _
    rw [List.foldlM_cons, run_behind (hlen _) p]
    rfl
  have hread : read (largestBlocks 0 n) (inOrder decompress) buf 2147483647
      (9223372034707292160 : Nat) = .ok (((Callback.mk 2147483647
        (9223372034707292160 : Nat)).runAll (inOrder decompress
          [largest 2147483648, largest 2147483649]
          (toOff (ofOff ((9223372034707292160 : Nat) : Int) + 2147483647)))
        ⟨(9223372034707292160 : Nat), buf⟩).map
          fun p => (p.max - (9223372034707292160 : Nat), p.buf)) := by
    rw [read, hfind]
    rfl
  rw [hread, inOrder, hscanned, List.map_cons, List.map_cons, List.map_nil, hnone]
  rfl

/-- A read of a well formed file of `2 ^ 63` bytes and more that copies out of bounds. -/
theorem read_out_of_bounds : ∃ (bs : List Block) (decompress : Block → Buffer) (size : UInt64)
    (off : Nat) (buf : Buffer),
    Contiguous 0 bs ∧ (∀ b ∈ bs, b.usize ≠ 0) ∧ total bs < 2 ^ 64 ∧
      (∀ b ∈ bs, (decompress b).length = b.usize.toNat) ∧ off < total bs ∧
      off + size.toNat < 2 ^ 63 ∧ buf.length = size.toNat ∧
      Coherent decompress (fun _ => none) ∧
      (∀ it max, Delivers decompress (fun _ => none) it max (inOrder decompress it max)) ∧
      read bs (inOrder decompress) buf size off = .ok none := by
  have htotal := total_largestBlocks 0 2147483650
  refine ⟨largestBlocks 0 2147483650, fun _ => List.replicate 4294967295 0, 2147483647,
    9223372034707292160, List.replicate 2147483647 0, largestBlocks_contiguous 0 2147483650,
    ?_, ?_, ?_, ?_, by decide, ?_, coherent_none _, inOrder_delivers _, ?_⟩
  · intro b hb
    rw [usize_of_mem_largestBlocks hb]
    decide
  · omega
  · intro b hb
    rw [usize_of_mem_largestBlocks hb, List.length_replicate]
    rfl
  · omega
  · rw [List.length_replicate]
    rfl
  · exact read_largestBlocks rfl (fun _ => List.length_replicate) _

/-- The lookup of a read that starts at `off`: the block found holds the offset, and the
first callback never computes a length below zero. -/
def LooksUp (bs : List Block) (off : Nat) : Prop :=
  ∃ b rest, findBlock bs off = .ok (b :: rest) ∧ (b.uoff.toNat ≤ off ∧ off < uend b) ∧
    ∀ size : UInt64, off + size.toNat < 2 ^ 63 →
      0 ≤ (Callback.mk size off).omax b - (Callback.mk size off).omin b

/-- Empty blocks do not disturb a lookup, except those in front: then some probe of the
search has to fall behind them and in front of the block that holds the offset. -/
theorem looksUp_iff (hc : Contiguous 0 bs) (hN : total bs < 2 ^ 63) (hoff : off < total bs) :
    LooksUp bs off ↔ leadingEmpty bs = 0 ∨ ∃ k, leadingEmpty bs ≤ bs.length / 2 ^ (k + 1) ∧
      bs.length / 2 ^ (k + 1) < endingBefore bs off := by
  rw [← findsBlock_iff_probe hc (by omega) hoff, FindsBlock]
  constructor
  · rintro ⟨b, rest, hfind, hholds, -⟩
    exact ⟨b, rest, hfind, hholds⟩
  · rintro ⟨b, rest, hfind, hlo, hhi⟩
    refine ⟨b, rest, hfind, ⟨hlo, hhi⟩, ?_⟩
    intro size hsize
    obtain ⟨homin, homax⟩ := clip_eq hc hN hsize (mem_of_findBlock hfind)
    rw [homin, homax, lo, hi]
    omega

/-- An empty block in front is skipped when the search probes the block behind it. -/
theorem looksUp_three : LooksUp [⟨0, 9, 0, 0⟩, ⟨4, 9, 0, 9⟩, ⟨4, 9, 4, 18⟩] 5 :=
  (@looksUp_iff [⟨0, 9, 0, 0⟩, ⟨4, 9, 0, 9⟩, ⟨4, 9, 4, 18⟩] 5 ⟨rfl, rfl, rfl, trivial⟩
    (by decide) (by decide)).mpr (.inr ⟨0, by decide, by decide⟩)

/-- An empty first block is found in place of the block that holds the offset. -/
theorem empty_found : Contiguous 0 [⟨0, 9, 0, 0⟩, ⟨10, 9, 0, 9⟩] ∧
    total [⟨0, 9, 0, 0⟩, ⟨10, 9, 0, 9⟩] < 2 ^ 63 ∧ 5 < total [⟨0, 9, 0, 0⟩, ⟨10, 9, 0, 9⟩] ∧
      ¬ LooksUp [⟨0, 9, 0, 0⟩, ⟨10, 9, 0, 9⟩] 5 := by
  refine ⟨⟨rfl, rfl, trivial⟩, by decide, by decide, ?_⟩
  rintro ⟨b, rest, hfind, ⟨-, hhi⟩, -⟩
  have hzero : below [⟨0, 9, 0, 0⟩, ⟨10, 9, 0, 9⟩] 5 0 = false := by decide
  have hone : below [⟨0, 9, 0, 0⟩, ⟨10, 9, 0, 9⟩] 5 1 = false := by decide
  have hsearch : lowerBound (below [⟨0, 9, 0, 0⟩, ⟨10, 9, 0, 9⟩] ((5 : Nat) : Int)) 0 2 = 0 := by
    simp [lowerBound, hzero, hone]
  rw [findBlock_eq] at hfind
  simp only [List.length_cons, List.length_nil, hsearch] at hfind
  cases hfind
  exact absurd hhi (by decide)

end OpenCompressedFile

end Lzopfs
