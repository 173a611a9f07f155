import Lzopfs.GzipAttempt
import Lzopfs.GzipStream

/-!
# Speculation and the true stream

Between two attempts the live reader follows the stream, and during an attempt the
reader put aside does, at the stop where the attempt began. `OnStream` is this
invariant, together with the records so far. What keeps it is that no attempt that
began off a block start is accepted by the first block it decodes.
-/

namespace Lzopfs

open Verify FileHandle IndexedCompFile

namespace GzipFile

open Indexing

variable {z : Zlib} {file : Buffer} {ms : List Member} {d : Decodes z file ms}
  {rd rd' : Reader z} {g g' : FileHandle} {k j start : Nat} {m : Member} {bs : List GzipBlock}
  {lastIdx o o' coff : Nat} {b p : GzipBlock}

/-- A reader on its way through a member that has a record of its own, or has put out
nothing yet, or has put out everything. -/
structure Committed (d : Decodes z file ms) (bs : List GzipBlock) (lastIdx : Nat) (rd : Reader z)
    (g : FileHandle) (k : Nat) (m : Member) (j start : Nat) : Prop
    extends OnWay d rd g k m j start where
  book : Book ms bs lastIdx rd.opos
  started : HasStart ms bs k ∨ m.outs j = 0 ∨ j = m.count + 1

/-- A reader at a stop that can be examined. -/
structure Examinable (d : Decodes z file ms) (bs : List GzipBlock) (lastIdx : Nat) (rd : Reader z)
    (g : FileHandle) (k : Nat) (m : Member) (j start : Nat) : Prop
    extends AtStop d rd g k m j start where
  book : Book ms bs lastIdx rd.opos
  fresh : HasStart ms bs k ∨ rd.opos = startOut ms k ∨ j = m.count + 1

/-- The output can go on as far as the stop the reader is on its way to. -/
theorem Committed.grow (h : Committed d bs lastIdx rd g k m j start) (hle : rd.opos ≤ o)
    (hto : o ≤ startOut ms k + m.outs j) : Book ms bs lastIdx o := by
  have hk := (List.getElem?_eq_some_iff.mp h.mem).1
  have hlo := h.lo
  refine h.book.grow hk hle ?_
  obtain hstart | hzero | hend := h.started
  · exact .inr ⟨hstart, Nat.le_trans hto (opos_le_startOut h.mem j)⟩
  · left
    omega
  · left
    rw [hend, Nat.add_sub_cancel] at hlo
    rw [hend, m.outs_of_count_le (Nat.le_succ _)] at hto
    rw [m.outs_of_count_le (Nat.le_refl _)] at hlo
    omega

theorem opos_le_inflate (hfed : rd.Fed rd' g g') : rd.opos ≤ rd'.inflate.1.opos := by
  simp only [Reader.opos, Reader.obytes, Reader.inflate, hfed.initOutPos, hfed.outBytes]
  omega

/-- What a step of a committed reader comes to. -/
inductive Commits (d : Decodes z file ms) (bs : List GzipBlock) (lastIdx : Nat) (g : FileHandle)
    (k : Nat) (m : Member) (j start : Nat) : Reader z × Ret → Prop where
  | midway {live : Reader z} (hblock : live.atBlock = false)
      (h : Committed d bs lastIdx live g k m j start) :
      Commits d bs lastIdx g k m j start (live, .ok)
  | atBlock {live : Reader z} (hblock : live.atBlock = true)
      (h : Examinable d bs lastIdx live g k m (j + 1) start) :
      Commits d bs lastIdx g k m j start (live, .ok)
  | atEnd {live : Reader z} (hj : j = m.count + 1) (hopos : live.opos = startOut ms (k + 1))
      (hipos : g.pos - live.availIn + (if live.mWrap = .Gzip then 0 else 8) = startByte ms (k + 1))
      (hbits : live.ibits = 0) (hbook : Book ms bs lastIdx live.opos) :
      Commits d bs lastIdx g k m j start (live, .streamEnd)
  | refused {live : Reader z} {code : Int} (hstart : startOut ms k < start) :
      Commits d bs lastIdx g k m j start (live, .error code)

theorem Committed.commits (h : Committed d bs lastIdx rd g k m j start) (hfile : g.data = file)
    (hsync : rd.Synced g) (hfed : rd.Fed rd' g g') :
    Commits d bs lastIdx g' k m j start rd'.inflate := by
  have hle := opos_le_inflate hfed
  have hsteps := h.toOnWay.steps hfile hsync hfed
  cases hstep : rd'.inflate with
  | mk live err =>
      rw [hstep] at hsteps hle
      cases hsteps with
      | midway hblock hway =>
          exact .midway hblock ⟨hway, h.grow hle hway.hi, h.started⟩
      | atBlock hblock hstop =>
          have hopos : live.opos = startOut ms k + m.outs j := congrArg Place.opos hstop.place
          refine .atBlock hblock ⟨hstop, h.grow hle (Nat.le_of_eq hopos), ?_⟩
          obtain hstart | hzero | hend := h.started
          · exact .inl hstart
          · right
            left
            rw [hopos, hzero, Nat.add_zero]
          · have hcount := hstop.le_count
            omega
      | atEnd hj hopos hipos hbits =>
          refine .atEnd hj hopos hipos hbits (h.grow hle ?_)
          rw [hopos, hj, m.outs_of_count_le (Nat.le_succ _), startOut_succ h.mem]
      | refused hstart => exact .refused hstart

section Record

variable (h : Examinable d bs lastIdx rd g k m j start)
include h

theorem Examinable.add (coff : Nat) (hnear : rd.opos < lastIdx + 2 ^ 32) (hlt : rd.opos < 2 ^ 64)
    (hb : b.block.uoff = UInt64.ofNat rd.opos) :
    Book ms (addBlock bs rd.opos coff b) rd.opos rd.opos :=
  h.book.add hnear hlt hb ⟨k, (List.getElem?_eq_some_iff.mp h.mem).1, h.startOut_le, h.opos_le⟩

theorem Examinable.hasStart (coff : Nat) (hb : placeOfBlock b = placeOf rd g)
    (hstart : IsBlockStart ms (placeOf rd g)) : HasStart ms (addBlock bs o coff b) k := by
  have huoff : b.block.uoff.toNat = rd.opos := congrArg Place.opos hb
  refine hasStart_addBlock (by rwa [hb]) ?_
  rw [huoff]
  exact h.startOut_le

/-- Off the start of a block nothing more is put out in this member, or nothing yet. -/
theorem Examinable.idle (hstart : ¬ IsBlockStart ms (placeOf rd g)) :
    m.outs j = 0 ∨ j = m.count + 1 := by
  rw [h.isBlockStart_iff] at hstart
  have hle := h.le_count
  obtain rfl | hpos := Nat.eq_zero_or_pos j
  · exact .inl rfl
  · right
    omega

/-- A record at the stop, whether a block starts there or not, and the reader goes on. -/
theorem Examinable.record (coff : Nat) (hnear : rd.opos < lastIdx + 2 ^ 32) (hlt : rd.opos < 2 ^ 64)
    (huoff : b.block.uoff = UInt64.ofNat rd.opos) (hb : placeOfBlock b = placeOf rd g) :
    Committed d (addBlock bs rd.opos coff b) rd.opos rd g k m j start := by
  refine ⟨h.toOnWay, h.add coff hnear hlt huoff, ?_⟩
  by_cases hstart : IsBlockStart ms (placeOf rd g)
  · exact .inl (h.hasStart coff hb hstart)
  · exact .inr (h.idle hstart)

end Record

/-- The stops of a member are in front of the next one. -/
theorem stopPlace_ipos_le (hm : ms[k]? = some m) (hj : j ≤ m.count + 1) :
    (stopPlace ms k m j).ipos ≤ startByte ms (k + 1) := by
  rw [startByte_succ hm, Member.size]
  cases j with
  | zero => exact Nat.le_add_right _ _
  | succ i =>
      have hbits := m.bits_mono (Nat.le_of_succ_le_succ hj)
      simp only [stopPlace, blockPlace, blockBit]
      omega

theorem AtStop.ipos_le (h : AtStop d rd g k m j start) :
    g.pos - rd.availIn ≤ startByte ms (k + 1) := by
  have hipos : g.pos - rd.availIn = (stopPlace ms k m j).ipos := congrArg Place.ipos h.place
  rw [hipos]
  exact stopPlace_ipos_le h.mem h.le_count

/-- The place of a new record is where the reader is. -/
theorem placeOfBlock_newBlock {ipos : Nat} (hopos : rd.opos < 2 ^ 64) (hipos : ipos < 2 ^ 64) :
    placeOfBlock (newBlock rd.opos ipos rd.ibits) = ⟨rd.opos, ipos, rd.ibits⟩ := by
  rw [placeOfBlock, newBlock, UInt64.toNat_ofNat_of_lt' hopos,
    UInt64.toNat_ofNat_of_lt' hipos]

variable {s s' s₀ : Indexing z} {saved : Reader z} {fh : FileHandle} {mPath : String}
  {minBlock : Nat} {wild : Reader z → UInt8}

/-- Where the reader put aside goes on in the file. -/
def savedFile (s : Indexing z) (g : FileHandle) : FileHandle := { g with pos := s.rd.mSaveSeek }

/-- No attempt is accepted by its first block unless it began at the start of a block. -/
def AcceptsBlocks (ms : List Member) (s : Indexing z) (g : FileHandle) : Prop :=
  s.indep = true → s.backtrack = false → ∀ live err g',
    s.rd.live.step.run g = .ok ((live, err), g') →
    (s.stepped live).Returns err → (s.stepped live).Suffices err →
    IsBlockStart ms ⟨s.uoff, s.coff, s.bits⟩

/-- No attempt at a block is primed with the byte before the input buffer. -/
def PrimesFromInput (ms : List Member) (s : Indexing z) : Prop :=
  s.indep = true → IsBlockStart ms ⟨s.uoff, s.coff, s.bits⟩ →
    ∀ saved ∈ s.rd.mSave, saved.ibits = 0 ∨ saved.availIn < saved.mInput.length

/-- The reader put aside is at a stop, and the attempt follows the stream if it began
at the start of a block and was primed from the input buffer. -/
structure Trial (d : Decodes z file ms) (s : Indexing z) (g : FileHandle) (saved : Reader z)
    (k : Nat) (m : Member) (j start : Nat) : Prop
    extends AtStop d saved (savedFile s g) k m j start where
  save : s.rd.mSave = some saved
  uoff : s.uoff = saved.opos
  coff : s.coff = s.rd.mSaveSeek - saved.availIn
  bits : s.bits = saved.ibits
  init : s.rd.live.mInitOutPos = saved.opos
  attempt : IsBlockStart ms (placeOf saved (savedFile s g)) →
    saved.ibits = 0 ∨ saved.availIn < saved.mInput.length →
    ∃ i, OnWay d s.rd.live g k m i saved.opos ∧ j ≤ i ∧ (s.backtrack = false → i = j)

/-- An attempt at a stop that can be examined. -/
structure OnTrial (d : Decodes z file ms) (s : Indexing z) (g : FileHandle) (saved : Reader z)
    (k : Nat) (m : Member) (j start : Nat) : Prop
    extends Examinable d s.mBlocks s.lastIdx saved (savedFile s g) k m j start,
      Trial d s g saved k m j start

inductive OnStream (d : Decodes z file ms) (s : Indexing z) (g : FileHandle) : Prop where
  | committed {k j start : Nat} {m : Member} (hindep : s.indep = false)
      (h : Committed d s.mBlocks s.lastIdx s.rd.live g k m j start)
      (hstop : s.inBlock = false → AtStop d s.rd.live g k m j start)
  | onTrial {saved : Reader z} {k j start : Nat} {m : Member} (hindep : s.indep = true)
      (h : OnTrial d s g saved k m j start)

/-- The condition on the state before a turn. -/
structure Faithful (ms : List Member) (mPath : String) (minBlock : Nat) (s : Indexing z)
    (g : FileHandle) : Prop where
  accepts : AcceptsBlocks ms s g
  primes : PrimesFromInput ms s
  /-- A block that may be recorded is less than 4 GiB after the last one. -/
  near : s.indep = true → s.uoff < s.lastIdx + 2 ^ 32
  /-- And so is the end of the output, when it is reached. -/
  last : ∀ bs g', (turn mPath minBlock s).run g = .ok (.done bs, g') →
    startOut ms ms.length < (if s.indep then s.uoff else s.lastIdx) + 2 ^ 32

/-- The file is made of the members, and its sizes are in the range of `off_t`. -/
structure Consists (file : Buffer) (ms : List Member) : Prop where
  length : file.length = startByte ms ms.length
  nonempty : ms ≠ []
  ipos_lt : file.length < 2 ^ 63
  opos_lt : startOut ms ms.length < 2 ^ 63

theorem Consists.opos_lt' (hc : Consists file ms) (hm : ms[k]? = some m)
    (ho : o ≤ startOut ms (k + 1)) : o < 2 ^ 64 := by
  have hk : k + 1 ≤ ms.length := (List.getElem?_eq_some_iff.mp hm).1
  have hle := startOut_mono ms hk
  have hlt := hc.opos_lt
  omega

/-- Where a reader that follows the stream stops: at the next stop of its member, or at the start
of the next member, or behind the last one. -/
theorem OnWay.comes {d : Decodes z fh.data ms} {g₁ : FileHandle} {t : Turn z}
    (hc : Consists fh.data ms) (h : OnWay d s.rd.live g k m j start)
    (hin : InStep fh s g) (hfed : s.rd.live.Fed rd g g₁)
    (hcomes : Comes minBlock (s.stepped rd.inflate.1) rd.inflate.2 g₁ t g') :
    (∀ s₀, t = .examine s₀ →
      (s₀.mBlocks = s.settled.mBlocks ∧ s₀.lastIdx = s.settled.lastIdx) ∧
        (s₀.rd.live.ibits = 0 ∨ s₀.rd.live.Backed g') ∧
          (AtStop d s₀.rd.live g' k m (j + 1) start ∨ j = m.count + 1 ∧
            ∃ m', AtStop d s₀.rd.live g' (k + 1) m' 0 (startOut ms (k + 1)))) ∧
      ∀ bs, t = .done bs → j = m.count + 1 ∧ k + 1 = ms.length ∧
        bs = setLastBlockSize s.settled.mBlocks (startOut ms ms.length) fh.data.length := by
  have hsteps := h.steps hin.data hin.live hfed
  have hbacked : rd.inflate.1.Backed g₁ := (hfed.backed hin.live).inflate
  have hdata : g₁.data = fh.data := hfed.data.trans hin.data
  generalize rd.inflate = p at hsteps hcomes hbacked
  obtain ⟨live, err⟩ := p
  have hsettled : (s.stepped live).settled.mBlocks = s.settled.mBlocks ∧
      (s.stepped live).settled.lastIdx = s.settled.lastIdx := by
    cases hi : s.indep <;> simp [settled, Indexing.stepped, accept, hi]
  cases hcomes with
  | goesOn => constructor <;> intro _ ht <;> cases ht
  | passed => constructor <;> intro _ ht <;> cases ht
  | goesBack => constructor <;> intro _ ht <;> cases ht
  | reached hok hblock hacc =>
      refine ⟨fun s₀ hs => ?_, fun _ ht => (by cases ht)⟩
      cases hs
      cases hok
      cases hsteps with
      | midway hblock' =>
          rw [show live.atBlock = true from hblock] at hblock'
          cases hblock'
      | atBlock hblock' hstop =>
          rw [settled_rd]
          exact ⟨hsettled, .inr hbacked, .inl hstop⟩
  | ended hend hacc hskip hmore =>
      refine ⟨fun s₀ hs => ?_, fun _ ht => (by cases ht)⟩
      cases hs
      cases hend
      cases hsteps with
      | atEnd hj hopos hipos hbits =>
          obtain ⟨m', hstop⟩ := (atStop_next (d := d) h.mem hopos hipos hbits (.inr hbacked) hskip
            (hdata ▸ hc.length)).2 hmore
          exact ⟨hsettled, .inl (Fin.ext (congrArg Place.ibits hstop.place)), .inr ⟨hj, m', hstop⟩⟩
  | @finished live' _ hend hacc hskip hlast =>
      refine ⟨fun _ ht => (by cases ht), fun bs hs => ?_⟩
      cases hs
      cases hend
      cases hsteps with
      | atEnd hj hopos hipos hbits =>
          have hk := (atStop_next (d := d) h.mem hopos hipos hbits (.inr hbacked) hskip
            (hdata ▸ hc.length)).1 hlast
          obtain ⟨rd', g₂, hrun, -, hfile, -, -, hout, -⟩ := Reader.run_skipFooter (.inr hbacked)
          have hskip' : live.skipFooter.run g₁ = .ok (live', g') := hskip
          rw [hrun] at hskip'
          cases hskip'
          refine ⟨hj, hk, ?_⟩
          rw [hlast, hfile, hdata, hsettled.1, hout, hopos, hk]

/-- Where a committed reader stops it can be examined, and where it leaves the loop
the records cover the output. -/
theorem Committed.comes {d : Decodes z fh.data ms} {g₁ : FileHandle} {t : Turn z}
    (hc : Consists fh.data ms)
    (h : Committed d s.settled.mBlocks s.settled.lastIdx s.rd.live g k m j start)
    (hin : InStep fh s g) (hfed : s.rd.live.Fed rd g g₁)
    (hcomes : Comes minBlock (s.stepped rd.inflate.1) rd.inflate.2 g₁ t g') :
    (∀ s₀, t = .examine s₀ → ∃ k m j start,
      Examinable d s₀.mBlocks s₀.lastIdx s₀.rd.live g' k m j start ∧
        (s₀.rd.live.ibits = 0 ∨ s₀.rd.live.Backed g')) ∧
      ∀ bs, t = .done bs → startOut ms ms.length < s.settled.lastIdx + 2 ^ 32 → Covers ms bs := by
  obtain ⟨hexam, hdone⟩ := h.toOnWay.comes hc hin hfed hcomes
  refine ⟨fun s₀ hs => ?_, fun bs hs hnear => ?_⟩
  · obtain ⟨⟨hblocks, hidx⟩, hprime, hstop | ⟨hj, m', hstop⟩⟩ := hexam s₀ hs
    · have hopos : s₀.rd.live.opos = startOut ms k + m.outs j := congrArg Place.opos hstop.place
      refine ⟨k, m, j + 1, start, ⟨hstop, ?_, ?_⟩, hprime⟩
      · rw [hblocks, hidx, hopos]
        exact h.grow h.hi (Nat.le_refl _)
      · rw [hblocks, hopos]
        have hcount := hstop.le_count
        obtain hstart | hzero | hend := h.started
        · exact .inl hstart
        · exact .inr (.inl (by rw [hzero, Nat.add_zero]))
        · omega
    · have hopos : s₀.rd.live.opos = startOut ms (k + 1) := congrArg Place.opos hstop.place
      have hto : startOut ms (k + 1) = startOut ms k + m.outs j := by
        rw [hj, m.outs_of_count_le (Nat.le_succ _), startOut_succ h.mem]
      refine ⟨k + 1, m', 0, _, ⟨hstop, ?_, .inr (.inl hopos)⟩, hprime⟩
      rw [hblocks, hidx, hopos, hto]
      exact h.grow h.hi (Nat.le_refl _)
  · obtain ⟨hj, hk, rfl⟩ := hdone bs hs
    have hto : startOut ms ms.length = startOut ms k + m.outs j := by
      rw [← hk, hj, m.outs_of_count_le (Nat.le_succ _), startOut_succ h.mem]
    have hbook := h.grow h.hi (Nat.le_refl _)
    rw [← hto] at hbook
    exact hbook.covers rfl hnear (Nat.lt_trans hc.opos_lt (by decide))

theorem savedFile_fed {g₁ : FileHandle} (hfed : s.rd.live.Fed rd g g₁) :
    { g₁ with pos := s.rd.mSaveSeek } = savedFile s g := by
  rw [savedFile, FileHandle.mk.injEq]
  exact ⟨hfed.path, hfed.data, rfl⟩

section Trial

variable {d : Decodes z fh.data ms} {g₁ : FileHandle} (h : Trial d s g saved k m j start)
  (hindep : s.indep = true) (hprimes : PrimesFromInput ms s) (hin : InStep fh s g)
  (hfed : s.rd.live.Fed rd g g₁)
include h

theorem Trial.tried : (⟨s.uoff, s.coff, s.bits⟩ : Place) = placeOf saved (savedFile s g) := by
  rw [h.uoff, h.coff, h.bits]
  rfl

theorem Trial.opos_lt (hc : Consists fh.data ms) : saved.opos < 2 ^ 64 :=
  hc.opos_lt' h.mem h.toAtStop.opos_le

theorem Trial.ipos_lt (hc : Consists fh.data ms) : s.rd.mSaveSeek - saved.availIn < 2 ^ 64 := by
  have hk : k + 1 ≤ ms.length := (List.getElem?_eq_some_iff.mp h.mem).1
  have hle := startByte_mono ms hk
  have hipos := h.ipos_le
  have hlt := hc.ipos_lt
  rw [← hc.length] at hle
  simp only [savedFile] at hipos
  omega

theorem Trial.opos_le : saved.opos ≤ s.rd.live.opos := by
  rw [← h.init]
  exact Nat.le_add_right _ _

include hindep hprimes

theorem Trial.onWay (hstart : IsBlockStart ms (placeOf saved (savedFile s g))) :
    ∃ i, OnWay d s.rd.live g k m i saved.opos ∧ j ≤ i ∧ (s.backtrack = false → i = j) :=
  h.attempt hstart (hprimes hindep (h.tried ▸ hstart) saved h.save)

include hin hfed

/-- An attempt that goes on stays on the stream, if it was. -/
theorem Trial.goesOn (hok : rd.inflate.2 = .ok) (hblock : rd.inflate.1.atBlock = false) :
    Trial d { s.stepped rd.inflate.1 with inBlock := true } g₁ saved k m j start := by
  have hfile := savedFile_fed hfed
  refine ⟨by rw [savedFile, Indexing.stepped, hfile]; exact h.toAtStop, h.save, h.uoff, h.coff,
    h.bits, hfed.initOutPos.trans h.init, ?_⟩
  rw [savedFile, Indexing.stepped, hfile]
  intro hstart _
  obtain ⟨i, hway, hle, hi⟩ := h.onWay hindep hprimes hstart
  exact ⟨i, hway.goesOn hin.data hin.live hfed hok hblock, hle, hi⟩

/-- An attempt that comes to a block without having come far enough is at the next stop. -/
theorem Trial.stops (hret : (s.stepped rd.inflate.1).Returns rd.inflate.2)
    (hsuff : ¬ (s.stepped rd.inflate.1).Suffices rd.inflate.2)
    (hstart : IsBlockStart ms (placeOf saved (savedFile s g))) :
    ∃ i, AtStop d rd.inflate.1 g₁ k m (i + 1) saved.opos ∧ j ≤ i := by
  obtain ⟨i, hway, hle, -⟩ := h.onWay hindep hprimes hstart
  obtain ⟨hok, hblock⟩ := hret.resolve_left fun hend => hsuff (.inr hend)
  exact ⟨i, hway.stops hin.data hin.live hfed hok hblock, hle⟩

/-- So it stays on the stream as well. -/
theorem Trial.passed (hret : (s.stepped rd.inflate.1).Returns rd.inflate.2)
    (hsuff : ¬ (s.stepped rd.inflate.1).Suffices rd.inflate.2) :
    Trial d { s.stepped rd.inflate.1 with backtrack := true } g₁ saved k m j start := by
  have hfile := savedFile_fed hfed
  refine ⟨by rw [savedFile, Indexing.stepped, hfile]; exact h.toAtStop, h.save, h.uoff, h.coff,
    h.bits, hfed.initOutPos.trans h.init, ?_⟩
  rw [savedFile, Indexing.stepped, hfile]
  intro hstart _
  obtain ⟨i, hstop, hle⟩ := h.stops hindep hprimes hin hfed hret hsuff hstart
  exact ⟨i + 1, hstop.toOnWay, Nat.le_succ_of_le hle, fun hb => absurd hb.symm Bool.false_ne_true⟩

/-- If it has put out nothing, the blocks it passed are empty. -/
theorem Trial.silent (hret : (s.stepped rd.inflate.1).Returns rd.inflate.2)
    (hsuff : ¬ (s.stepped rd.inflate.1).Suffices rd.inflate.2) (hzero : rd.inflate.1.obytes = 0)
    (hstart : IsBlockStart ms (placeOf saved (savedFile s g))) :
    startOut ms k + m.outs j ≤ saved.opos := by
  obtain ⟨i, hstop, hle⟩ := h.stops hindep hprimes hin hfed hret hsuff hstart
  have hopos : rd.inflate.1.opos = startOut ms k + m.outs i := congrArg Place.opos hstop.place
  have hinit : rd.inflate.1.mInitOutPos = saved.opos := hfed.initOutPos.trans h.init
  have hmono := m.outs_mono hle
  rw [Reader.opos, hzero, hinit] at hopos
  omega

end Trial

section OnTrial

variable {d : Decodes z fh.data ms} {g₁ : FileHandle} (hc : Consists fh.data ms)
  (h : OnTrial d s g saved k m j start) (hindep : s.indep = true) (hin : InStep fh s g)
  (hfaith : Faithful ms mPath minBlock s g) (hfed : s.rd.live.Fed rd g g₁)
include h

include hc hindep hfaith in
/-- An attempt that is accepted without going back began at a block, and its reader
goes on with the stream. -/
theorem OnTrial.accepted (hback : s.backtrack = false)
    (hstart : IsBlockStart ms (placeOf saved (savedFile s g))) :
    Committed d s.settled.mBlocks s.settled.lastIdx s.rd.live g k m j saved.opos := by
  obtain ⟨i, hway, -, hi⟩ := h.toTrial.onWay hindep hfaith.primes hstart
  cases hi hback
  have hplace : placeOfBlock (newBlock s.uoff s.coff s.bits) = placeOf saved (savedFile s g) := by
    rw [h.uoff, h.coff, h.bits,
      placeOfBlock_newBlock (h.toTrial.opos_lt hc) (h.toTrial.ipos_lt hc)]
    rfl
  have hbook := h.add s.coff (b := newBlock s.uoff s.coff s.bits)
    (h.uoff ▸ hfaith.near hindep) (h.toTrial.opos_lt hc) (by rw [h.uoff]; rfl)
  have hhas := h.hasStart s.coff (o := saved.opos) hplace hstart
  have hle := h.toTrial.opos_le
  rw [settled, if_pos hindep, accept]
  simp only [h.uoff] at hbook hhas ⊢
  exact ⟨hway, hbook.grow (List.getElem?_eq_some_iff.mp h.mem).1 hle (.inr ⟨hhas, hway.opos_le⟩),
    .inl hhas⟩

include hindep hin hfaith hfed in
theorem OnTrial.goesOn (hok : rd.inflate.2 = .ok) (hblock : rd.inflate.1.atBlock = false) :
    OnTrial d { s.stepped rd.inflate.1 with inBlock := true } g₁ saved k m j start where
  toTrial := h.toTrial.goesOn hindep hfaith.primes hin hfed hok hblock
  book := h.book
  fresh := h.fresh

include hindep hin hfaith hfed in
theorem OnTrial.passed (hret : (s.stepped rd.inflate.1).Returns rd.inflate.2)
    (hsuff : ¬ (s.stepped rd.inflate.1).Suffices rd.inflate.2) :
    OnTrial d { s.stepped rd.inflate.1 with backtrack := true } g₁ saved k m j start where
  toTrial := h.toTrial.passed hindep hfaith.primes hin hfed hret hsuff
  book := h.book
  fresh := h.fresh

include hindep hin hfaith hfed in
/-- An attempt is given up only where the member has a record, or has put out nothing
with this block, or is over. -/
theorem OnTrial.givenUp
    (hup : (s.stepped rd.inflate.1).Returns rd.inflate.2 ∧
        ¬ (s.stepped rd.inflate.1).Suffices rd.inflate.2 ∧ rd.inflate.1.obytes = 0 ∨
      ∃ code, rd.inflate.2 = .error code) :
    Committed d s.mBlocks s.lastIdx saved (savedFile s g) k m j start := by
  refine ⟨h.toOnWay, h.book, ?_⟩
  by_cases hstart : IsBlockStart ms (placeOf saved (savedFile s g))
  · obtain ⟨hpos, hcount⟩ := h.isBlockStart_iff.mp hstart
    obtain hhas | hout | hend := h.fresh
    · exact .inl hhas
    · right
      left
      obtain ⟨hret, hsuff, hzero⟩ | ⟨code, hcode⟩ := hup
      · have hsilent := h.toTrial.silent hindep hfaith.primes hin hfed hret hsuff hzero hstart
        omega
      · obtain ⟨i, hway, -⟩ := h.toTrial.onWay hindep hfaith.primes hstart
        have hlt := hway.refused hin.data hin.live hfed hcode
        omega
    · omega
  · exact .inr (h.idle hstart)

include hc hindep hin hfaith hfed in
/-- Going back leaves a committed reader at its stop. -/
theorem OnTrial.goesBack {r : Indexing z}
    (hback : GoesBack minBlock (s.stepped rd.inflate.1) rd.inflate.2 saved
      (s.rd.mSaveSeek - saved.availIn) r) : OnStream d r (savedFile s g) := by
  have hopos := h.toTrial.opos_lt hc
  have hipos := h.toTrial.ipos_lt hc
  have hnear : saved.opos < s.lastIdx + 2 ^ 32 := h.uoff ▸ hfaith.near hindep
  cases hback with
  | accepted =>
      have hplace : placeOfBlock (newBlock saved.opos s.coff saved.ibits) =
          placeOf saved (savedFile s g) := by
        rw [h.coff, placeOfBlock_newBlock hopos hipos]
        rfl
      have hrec := h.record s.coff hnear hopos rfl hplace
      refine .committed rfl ?_ fun _ => h.toAtStop
      simp only [Indexing.restored, Indexing.accept, Indexing.stepped, h.uoff, h.bits]
      exact hrec
  | empty hret hsuff hzero =>
      exact .committed rfl (h.givenUp hindep hin hfaith hfed (.inl ⟨hret, hsuff, hzero⟩))
        fun _ => h.toAtStop
  | failed herr =>
      exact .committed rfl (h.givenUp hindep hin hfaith hfed (.inr ⟨_, herr⟩)) fun _ => h.toAtStop
  | failedDict herr =>
      refine .committed rfl (h.record _ hnear hopos rfl ?_) fun _ => h.toAtStop
      exact placeOfBlock_newBlock hopos hipos

end OnTrial

section Runs

variable {d : Decodes z fh.data ms} {t : Turn z}

/-- What a turn of the loop keeps: it goes round on the stream, or comes to a stop that
is examined, or leaves with records that cover the output. -/
theorem OnStream.turn (hc : Consists fh.data ms) (h : OnStream d s g) (hin : InStep fh s g)
    (hfaith : Faithful ms mPath minBlock s g) (hrun : (turn mPath minBlock s).run g = .ok (t, g')) :
    (∀ s', t = .again s' → OnStream d s' g') ∧
      (∀ s₀, t = .examine s₀ → ∃ k m j start,
        Examinable d s₀.mBlocks s₀.lastIdx s₀.rd.live g' k m j start ∧
          (s₀.rd.live.ibits = 0 ∨ s₀.rd.live.Backed g')) ∧
      ∀ bs, t = .done bs → Covers ms bs := by
  obtain ⟨rd, g₁, hfed, hstep, hcomes⟩ := hin.comes hrun
  have hlast : ∀ bs, t = .done bs → startOut ms ms.length < s.settled.lastIdx + 2 ^ 32 := by
    rintro bs rfl
    have hnear := hfaith.last bs g' hrun
    cases hi : s.indep <;> simpa [settled, accept, hi] using hnear
  cases h with
  | @committed k j start m hindep h hstop =>
      have hsettled : s.settled = s := if_neg (by rw [hindep]; exact Bool.false_ne_true)
      have hgo : Committed d s.settled.mBlocks s.settled.lastIdx s.rd.live g k m j start := by
        rw [hsettled]
        exact h
      have hends := hgo.comes hc hin hfed hcomes
      refine ⟨fun s' hs => ?_, hends.1, fun bs hs => hends.2 bs hs (hlast bs hs)⟩
      have hcommits := h.commits hin.data hin.live hfed
      have hoff : (s.stepped rd.inflate.1).indep = false := hindep
      generalize rd.inflate = p at hcommits hcomes hoff
      cases hcomes with
      | goesOn hok hblock =>
          cases hs
          cases hcommits with
          | midway _ hgo => exact .committed hindep hgo fun hi => absurd hi.symm Bool.false_ne_true
          | atBlock hblock' =>
              rw [Indexing.stepped, hblock'] at hblock
              cases hblock
          | atEnd => cases hok
          | refused => cases hok
      | passed hon =>
          rw [hon] at hoff
          cases hoff
      | goesBack hon =>
          rw [hon] at hoff
          cases hoff
      | reached => cases hs
      | ended => cases hs
      | finished => cases hs
  | onTrial hindep h =>
      have hends : s.backtrack = false → (s.stepped rd.inflate.1).Returns rd.inflate.2 →
          (s.stepped rd.inflate.1).Suffices rd.inflate.2 → _ := fun hback hret hsuff =>
        (h.accepted hc hindep hfaith hback (h.toTrial.tried ▸
          hfaith.accepts hindep hback _ _ g₁ hstep hret hsuff)).comes hc hin hfed hcomes
      cases hcomes with
      | goesOn hok hblock =>
          refine ⟨fun s' hs => ?_, fun _ ht => (by cases ht), fun _ ht => (by cases ht)⟩
          cases hs
          exact .onTrial hindep (h.goesOn hindep hin hfaith hfed hok hblock)
      | passed _ hret hsuff =>
          refine ⟨fun s' hs => ?_, fun _ ht => (by cases ht), fun _ ht => (by cases ht)⟩
          cases hs
          exact .onTrial hindep (h.passed hindep hin hfaith hfed hret hsuff)
      | goesBack _ hsave hback =>
          refine ⟨fun s' hs => ?_, fun _ ht => (by cases ht), fun _ ht => (by cases ht)⟩
          cases hs
          cases h.save.symm.trans hsave
          have hfile : { g₁ with pos := (s.stepped rd.inflate.1).rd.mSaveSeek } = savedFile s g :=
            savedFile_fed (s := s) hfed
          rw [hfile]
          exact h.goesBack hc hindep hin hfaith hfed hback
      | reached hok hblock hacc =>
          obtain ⟨hsuff, hback⟩ := hacc hindep
          exact ⟨fun _ ht => (by cases ht), (hends hback (.inr ⟨hok, hblock⟩) hsuff).1,
            fun _ ht => (by cases ht)⟩
      | ended hend hacc =>
          exact ⟨fun _ ht => (by cases ht), (hends (hacc hindep) (.inl hend) (.inr hend)).1,
            fun _ ht => (by cases ht)⟩
      | finished hend hacc =>
          exact ⟨fun _ ht => (by cases ht), fun _ ht => (by cases ht), fun bs hs =>
            (hends (hacc hindep) (.inl hend) (.inr hend)).2 bs hs (hlast bs hs)⟩

/-- Examining a stop starts an attempt that follows the stream from there. -/
theorem AtStop.trial (h : AtStop d s₀.rd.live g k m j start) (hfile : g.data = fh.data)
    (hprime : s₀.rd.live.ibits = 0 ∨ s₀.rd.live.Backed g) :
    Trial d (s₀.examined wild g) g s₀.rd.live k m j start := by
  refine ⟨h, rfl, rfl, rfl, rfl, (SavingReader.takeOver_opos wild s₀.rd.mSave s₀.rd.live).1,
    fun hstart hin => ?_⟩
  refine ⟨j, h.takeOver wild s₀.rd.mSave hstart hfile ?_, Nat.le_refl j, fun _ => rfl⟩
  obtain hzero | hbacked := hprime
  · exact .inl hzero
  · exact hin.imp_right fun hlt => ⟨hbacked, hlt⟩

theorem Examinable.examined
    (h : Examinable d s₀.mBlocks s₀.lastIdx s₀.rd.live g k m j start) (hfile : g.data = fh.data)
    (hprime : s₀.rd.live.ibits = 0 ∨ s₀.rd.live.Backed g) : OnStream d (s₀.examined wild g) g :=
  .onTrial rfl { toTrial := h.toAtStop.trial hfile hprime, book := h.book, fresh := h.fresh }

theorem onStream_start (hc : Consists fh.data ms) :
    OnStream d (GzipFile.start z [] fh).1 (GzipFile.start z [] fh).2 := by
  have hlen : 0 < ms.length := List.length_pos_iff.mpr hc.nonempty
  have hm : ms[0]? = some (ms.get ⟨0, hlen⟩) := List.getElem?_eq_getElem hlen
  have hway : OnWay d (Reader.new z) { fh with pos := 0 } 0 (ms.get ⟨0, hlen⟩) 0 0 :=
    ⟨hm, d.gzip hm, Nat.le_refl 0, Nat.le_refl 0⟩
  refine .committed rfl ⟨hway, ?_, .inr (.inl rfl)⟩ fun _ => ⟨hway, Nat.zero_le _, rfl⟩
  exact ⟨.nil, nofun, nofun, fun _ => rfl, Nat.le_refl 0, nofun, 0, hlen, Nat.le_refl 0,
    Nat.zero_le _⟩

/-- A run of faithful passes stays on the stream. -/
theorem indexes_onStream (hc : Consists fh.data ms)
    (hfaith : ∀ s g, Indexes wild mPath minBlock fh s g → Faithful ms mPath minBlock s g)
    (h : Indexes wild mPath minBlock fh s g) : OnStream d s g := by
  have hstart : Indexes wild mPath minBlock fh (GzipFile.start z [] fh).1
      (GzipFile.start z [] fh).2 :=
    Relation.ReflTransGen.refl
  refine (Reaches.invariant (P := fun p => Indexes wild mPath minBlock fh p.1 p.2 ∧
    OnStream d p.1 p.2) h ⟨hstart, onStream_start hc⟩ ?_).2
  rintro ⟨s, g⟩ ⟨s', g'⟩ ⟨hs, hon⟩ hpass
  refine ⟨hs.tail hpass, ?_⟩
  have hin := indexes_inStep hs
  obtain hrun | ⟨s₀, hrun, rfl⟩ := (pass_again wild).mp (onFile_again.mp hpass)
  · exact (hon.turn hc hin (hfaith s g hs) hrun).1 _ rfl
  · obtain ⟨k, m, j, start, hexam, hprime⟩ := (hon.turn hc hin (hfaith s g hs) hrun).2.1 _ rfl
    exact hexam.examined ((hin.turn hrun).2 _ rfl).2.data hprime

end Runs

end GzipFile

end Lzopfs
