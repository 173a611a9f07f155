import Lzopfs.GzipSpeculation

/-!
# How far apart the blocks of a gzip index are

A block that is more than the block factor's worth of windows behind the last record is
recorded, whether its decode on its own works out or not. So between a record and the next one
no block that puts anything out starts farther away than that. The argument needs that an
attempt at a block decodes the block: then it ends without output only where the block is
empty.
-/

namespace Lzopfs

open Verify FileHandle

namespace GzipFile

open Indexing

/-- A block that is not empty starts at the uncompressed offset `x`. -/
def BlockAt (ms : List Member) (x : Nat) : Prop :=
  ∃ k m j b, ms[k]? = some m ∧ m.blocks[j]? = some b ∧ b.usize ≠ 0 ∧ x = startOut ms k + m.outs j

/-- No such block starts in front of `e` and farther than `gap` behind `a`. -/
def NoneBeyond (ms : List Member) (gap a e : Nat) : Prop := ∀ x, BlockAt ms x → x < e → x ≤ a + gap

/-- No record has a gap inside. -/
def Spaced (ms : List Member) (gap : Nat) (bs : List GzipBlock) : Prop :=
  ∀ b ∈ bs, NoneBeyond ms gap b.block.uoff.toNat (b.block.uoff.toNat + b.block.usize.toNat)

variable {ms : List Member} {gap a e f k j : Nat} {m : Member}

theorem NoneBeyond.mono (h : NoneBeyond ms gap a e) (hle : f ≤ e) : NoneBeyond ms gap a f :=
  fun x hx hlt => h x hx (Nat.lt_of_lt_of_le hlt hle)

theorem outs_succ {b : DeflateBlock} (hb : m.blocks[j]? = some b) :
    m.outs (j + 1) = m.outs j + b.usize := by
  rw [Member.outs, Member.outs, List.take_add_one, hb, List.map_append, List.sum_append]
  simp

/-- Between two stops no block starts. -/
theorem blockAt_le_stop (hm : ms[k]? = some m) {x : Nat} (hx : BlockAt ms x)
    (hlt : x < startOut ms k + m.outs j) : x ≤ startOut ms k + m.outs (j - 1) := by
  obtain ⟨k', m', i, b, hm', hb, hne, rfl⟩ := hx
  have hnext : m'.outs (i + 1) ≤ m'.usize := m'.outs_le_usize _
  rw [outs_succ hb] at hnext
  obtain hk | rfl | hk := Nat.lt_trichotomy k' k
  · have hle := startOut_mono ms (show k' + 1 ≤ k from hk)
    rw [startOut_succ hm'] at hle
    omega
  · rw [hm] at hm'
    cases hm'
    obtain hij | hij := Nat.lt_or_ge i j
    · exact Nat.add_le_add_left (m.outs_mono (Nat.le_sub_one_of_lt hij)) _
    · have hle := m.outs_mono hij
      omega
  · have hle := startOut_mono ms (show k + 1 ≤ k' from hk)
    have hstop := opos_le_startOut hm j
    omega

/-- The next stop is not farther away than the last one is, or nothing comes in between. -/
theorem NoneBeyond.leg (h : NoneBeyond ms gap a (startOut ms k + m.outs (j - 1)))
    (hm : ms[k]? = some m)
    (hnear : startOut ms k + m.outs (j - 1) ≤ a + gap ∨ m.outs j = m.outs (j - 1)) :
    NoneBeyond ms gap a (startOut ms k + m.outs j) := by
  obtain hnear | heq := hnear
  · intro x hx hlt
    exact Nat.le_trans (blockAt_le_stop hm hx hlt) hnear
  · rwa [heq]

/-- The way from one stop to another. No block that is not empty starts in between and farther
than `gap` behind the first one. -/
structure Span (ms : List Member) (gap : Nat) (p q : Place) : Prop where
  start : TruePlace ms p
  stop : TruePlace ms q
  opos_le : p.opos ≤ q.opos
  ipos_le : p.ipos ≤ q.ipos
  none : NoneBeyond ms gap p.opos q.opos

/-- A record of a block at a place. -/
def Records (b : GzipBlock) (p : Place) : Prop :=
  b.block.uoff = UInt64.ofNat p.opos ∧ b.block.coff = UInt64.ofNat p.ipos

/-- A record and the next one. -/
structure Linked (ms : List Member) (gap : Nat) (a b : GzipBlock) : Prop where
  sizes : SizedTo a b
  span : ∃ p q, Span ms gap p q ∧ Records a p ∧ Records b q

/-- What a record behind the last one would be. -/
def endBlock (ms : List Member) : GzipBlock :=
  newBlock (startOut ms ms.length) (startByte ms ms.length) 0

variable {bs : List GzipBlock} {lastIdx ipos i o : Nat} {b : GzipBlock} {p q : Place}

/-- The last record starts at `lastIdx`, and there is no gap up to `e`. `ipos` is the byte of the
stop that has been passed last. -/
structure Ledger (ms : List Member) (gap : Nat) (bs : List GzipBlock) (lastIdx ipos e : Nat) :
    Prop where
  linked : bs.IsChain (Linked ms gap)
  last : ∀ b ∈ bs.getLast?, ∃ p, TruePlace ms p ∧ Records b p ∧ p.opos = lastIdx ∧ p.ipos ≤ ipos
  ahead : NoneBeyond ms gap lastIdx e

theorem Ledger.later (h : Ledger ms gap bs lastIdx ipos e) (hle : ipos ≤ i) :
    Ledger ms gap bs lastIdx i e where
  linked := h.linked
  last b hb := by
    obtain ⟨p, hp, hrec, hopos, hipos⟩ := h.last b hb
    exact ⟨p, hp, hrec, hopos, Nat.le_trans hipos hle⟩
  ahead := h.ahead

/-- A record at a stop. -/
theorem Ledger.add (h : Ledger ms gap bs lastIdx ipos e) (hq : TruePlace ms q)
    (hle : lastIdx ≤ q.opos) (hoe : q.opos ≤ e) (hipos : ipos ≤ q.ipos) (hb : Records b q)
    (hahead : NoneBeyond ms gap q.opos f) :
    Ledger ms gap (addBlock bs q.opos q.ipos b) q.opos q.ipos f where
  linked := by
    apply isChain_addBlock (fun _ _ hab => ⟨hab.sizes, hab.span⟩) h.linked
    intro c hc
    obtain ⟨p, hp, hrec, hopos, hle'⟩ := h.last c hc
    refine ⟨?_, p, q, ⟨hp, hq, hopos ▸ hle, Nat.le_trans hle' hipos, ?_⟩, hrec, hb⟩
    · rw [SizedTo, hb.1, hb.2]
      exact ⟨rfl, rfl⟩
    · rw [hopos]
      exact h.ahead.mono hoe
  last c hc := by
    rw [getLast?_addBlock] at hc
    cases hc
    exact ⟨q, hq, hb, rfl, Nat.le_refl _⟩
  ahead := hahead

/-- The records of a file, with the end of the file behind them. -/
def Closed (ms : List Member) (gap : Nat) (bs : List GzipBlock) : Prop :=
  (bs ++ [endBlock ms]).IsChain (Linked ms gap)

/-- Filling in the last sizes closes the list. -/
theorem Ledger.closed (h : Ledger ms gap bs lastIdx ipos (startOut ms ms.length))
    (hle : lastIdx ≤ startOut ms ms.length) (hipos : ipos ≤ startByte ms ms.length) :
    Closed ms gap (setLastBlockSize bs (startOut ms ms.length) (startByte ms ms.length)) := by
  have hend := h.add (q := memberPlace ms ms.length) (b := endBlock ms) (f := startOut ms ms.length)
    (.member (Nat.le_refl _)) hle (Nat.le_refl _) hipos ⟨rfl, rfl⟩
    fun x _ hlt => Nat.le_trans (Nat.le_of_lt hlt) (Nat.le_add_right _ _)
  exact hend.linked

/-- A record of a closed list is linked to what is behind it. -/
theorem Closed.exists_linked (h : Closed ms gap bs) (hb : b ∈ bs) : ∃ c, Linked ms gap b c := by
  obtain ⟨front, back, rfl⟩ := List.append_of_mem hb
  rw [Closed, List.append_assoc, List.cons_append] at h
  obtain ⟨c, tl, hc⟩ : ∃ c tl, back ++ [endBlock ms] = c :: tl :=
    List.exists_cons_of_ne_nil (by simp)
  rw [hc] at h
  exact ⟨c, (List.isChain_cons_cons.mp (List.isChain_append.mp h).2.1).1⟩

theorem TruePlace.ipos_le (hp : TruePlace ms p) : p.ipos ≤ startByte ms ms.length := by
  cases hp with
  | member hk => exact startByte_mono ms hk
  | block hm hj =>
      exact Nat.le_trans (stopPlace_ipos_le hm (Nat.succ_le_succ hj))
        (startByte_mono ms (List.getElem?_eq_some_iff.mp hm).1)

/-- The differences of two places of a file are not too large. -/
theorem Consists.place_lt {file : Buffer} (hc : Consists file ms) (hp : TruePlace ms p) :
    p.opos < 2 ^ 64 ∧ p.ipos < 2 ^ 64 := by
  have hopos := hp.opos_le
  have hipos := hp.ipos_le
  have hlt := hc.opos_lt
  have hlen := hc.ipos_lt
  rw [hc.length] at hlen
  omega

theorem toNat_ofNat_sub {m n : Nat} (hle : m ≤ n) (hlt : n < 2 ^ 64) :
    (UInt64.ofNat n - UInt64.ofNat m).toNat = n - m := by
  rw [← UInt64.ofNat_sub hle, UInt64.toNat_ofNat_of_lt' (Nat.lt_of_le_of_lt (Nat.sub_le n m) hlt)]

/-- No record has a gap inside. It ends where the next one starts, or in front of that place if
its size does not fit. -/
theorem Closed.spaced {file : Buffer} (hc : Consists file ms) (h : Closed ms gap bs) :
    Spaced ms gap bs := by
  intro b hb
  obtain ⟨c, hsizes, p, q, hspan, hp, hq⟩ := h.exists_linked hb
  have hplt := (hc.place_lt hspan.start).1
  have hqlt := (hc.place_lt hspan.stop).1
  have hopos := hspan.opos_le
  have huoff : b.block.uoff.toNat = p.opos := by
    rw [hp.1, UInt64.toNat_ofNat_of_lt' hplt]
  have husize : b.block.usize.toNat = (q.opos - p.opos) % 2 ^ 32 := by
    rw [hsizes.1, hp.1, hq.1, UInt64.toNat_toUInt32, toNat_ofNat_sub hopos hqlt]
  have hmod := Nat.mod_le (q.opos - p.opos) (2 ^ 32)
  rw [huoff]
  exact hspan.none.mono (by omega)

variable {z : Zlib} {file : Buffer} {d : Decodes z file ms} {s s₀ : Indexing z}
  {fh g g' : FileHandle}
  {rd saved : Reader z} {start minBlock : Nat} {mPath : String} {wild : Reader z → UInt8}

/-- A reader on the way to a stop. What it has passed is covered, and so is the block it is in. -/
structure Leg (d : Decodes z file ms) (gap : Nat) (bs : List GzipBlock) (lastIdx : Nat)
    (rd : Reader z) (g : FileHandle) (k : Nat) (m : Member) (j start : Nat) : Prop
    extends OnWay d rd g k m j start where
  ledger : Ledger ms gap bs lastIdx (stopPlace ms k m j).ipos (startOut ms k + m.outs j)
  le : lastIdx ≤ rd.opos

/-- A reader at a stop that is to be examined. What it has passed is covered. -/
structure Stopped (d : Decodes z file ms) (gap : Nat) (bs : List GzipBlock) (lastIdx : Nat)
    (rd : Reader z) (g : FileHandle) (k : Nat) (m : Member) (j start : Nat) : Prop
    extends AtStop d rd g k m j start where
  ledger : Ledger ms gap bs lastIdx (stopPlace ms k m j).ipos rd.opos
  le : lastIdx ≤ rd.opos

/-- The stop that the reader put aside is at is being examined. -/
structure Tried (d : Decodes z file ms) (gap : Nat) (s : Indexing z) (g : FileHandle)
    (saved : Reader z) (k : Nat) (m : Member) (j start : Nat) : Prop
    extends Stopped d gap s.mBlocks s.lastIdx saved (savedFile s g) k m j start,
      Trial d s g saved k m j start

inductive Tracked (d : Decodes z file ms) (gap : Nat) (s : Indexing z) (g : FileHandle) : Prop where
  | leg {k j start : Nat} {m : Member} (hindep : s.indep = false)
      (h : Leg d gap s.mBlocks s.lastIdx s.rd.live g k m j start)
  | tried {saved : Reader z} {k j start : Nat} {m : Member} (hindep : s.indep = true)
      (h : Tried d gap s g saved k m j start)

theorem Stopped.opos_eq (h : Stopped d gap bs lastIdx rd g k m j start) :
    rd.opos = startOut ms k + m.outs (j - 1) := by
  have hopos : rd.opos = (stopPlace ms k m j).opos := congrArg Place.opos h.place
  rw [hopos]
  cases j with
  | zero => rfl
  | succ j => rfl

/-- A reader goes on from a stop that is near, or that has been recorded, or behind which nothing
is put out before the next one. -/
theorem Stopped.leg (h : Stopped d gap bs lastIdx rd g k m j start)
    (hnear : rd.opos ≤ lastIdx + gap ∨ m.outs j = m.outs (j - 1)) :
    Leg d gap bs lastIdx rd g k m j start := by
  have hahead := h.ledger.ahead
  rw [h.opos_eq] at hahead hnear
  exact ⟨h.toOnWay, ⟨h.ledger.linked, h.ledger.last, hahead.leg h.mem hnear⟩, h.le⟩

theorem Stopped.record (h : Stopped d gap bs lastIdx rd g k m j start) {coff : Nat}
    (hcoff : coff = (placeOf rd g).ipos) (huoff : b.block.uoff = UInt64.ofNat rd.opos)
    (hb : b.block.coff = UInt64.ofNat coff) :
    Ledger ms gap (addBlock bs rd.opos coff b) rd.opos (stopPlace ms k m j).ipos
      (startOut ms k + m.outs j) := by
  have hopos : rd.opos = (stopPlace ms k m j).opos := congrArg Place.opos h.place
  have hipos : coff = (stopPlace ms k m j).ipos := hcoff.trans (congrArg Place.ipos h.place)
  have hahead : NoneBeyond ms gap rd.opos (startOut ms k + m.outs j) := by
    apply NoneBeyond.leg _ h.mem (.inl ?_)
    · rw [← h.opos_eq]
      exact fun x _ hx => Nat.le_trans (Nat.le_of_lt hx) (Nat.le_add_right _ _)
    · rw [← h.opos_eq]
      exact Nat.le_add_right _ _
  have htrue := h.truePlace
  have hle := h.le
  have hledger := h.ledger
  rw [h.place] at htrue
  rw [hipos] at hb ⊢
  rw [hopos] at hle hledger huoff hahead ⊢
  exact hledger.add htrue hle (Nat.le_refl _) (Nat.le_refl _) ⟨huoff, hb⟩ hahead

/-- The stops of a member are in order. -/
theorem stopPlace_ipos_succ (ms : List Member) (k : Nat) (m : Member) (j : Nat) :
    (stopPlace ms k m j).ipos ≤ (stopPlace ms k m (j + 1)).ipos := by
  cases j with
  | zero =>
      simp only [stopPlace, blockPlace, blockBit, memberPlace]
      omega
  | succ i =>
      have hbits : m.bits i ≤ m.bits (i + 1) := m.bits_mono (Nat.le_succ i)
      simp only [stopPlace, blockPlace, blockBit]
      omega

section Turns

variable {d : Decodes z fh.data ms} {g₁ : FileHandle} {t : Turn z}

/-- Where a reader stops what it has passed is covered, and where it leaves the loop the list is
closed. -/
theorem Leg.comes (hc : Consists fh.data ms)
    (h : Leg d gap s.settled.mBlocks s.settled.lastIdx s.rd.live g k m j start)
    (hin : InStep fh s g) (hfed : s.rd.live.Fed rd g g₁)
    (hcomes : Comes minBlock (s.stepped rd.inflate.1) rd.inflate.2 g₁ t g') :
    (∀ s₀, t = .examine s₀ → ∃ k m j start,
      Stopped d gap s₀.mBlocks s₀.lastIdx s₀.rd.live g' k m j start ∧
        (s₀.rd.live.ibits = 0 ∨ s₀.rd.live.Backed g')) ∧
      ∀ bs, t = .done bs → Closed ms gap bs := by
  obtain ⟨hexam, hdone⟩ := h.toOnWay.comes hc hin hfed hcomes
  have hle := Nat.le_trans h.le h.hi
  have hend : j = m.count + 1 → startOut ms k + m.outs j = startOut ms (k + 1) := by
    intro hj
    rw [hj, m.outs_of_count_le (Nat.le_succ _), startOut_succ h.mem]
  refine ⟨fun s₀ hs => ?_, fun bs hs => ?_⟩
  · obtain ⟨⟨hblocks, hidx⟩, hprime, hstop | ⟨hj, m', hstop⟩⟩ := hexam s₀ hs
    · have hopos : s₀.rd.live.opos = startOut ms k + m.outs j := congrArg Place.opos hstop.place
      refine ⟨k, m, j + 1, start, ⟨hstop, ?_, ?_⟩, hprime⟩
      · rw [hblocks, hidx, hopos]
        exact h.ledger.later (stopPlace_ipos_succ ms k m j)
      · rw [hidx, hopos]
        exact hle
    · have hopos : s₀.rd.live.opos = startOut ms (k + 1) := congrArg Place.opos hstop.place
      rw [← hend hj] at hopos
      refine ⟨k + 1, m', 0, _, ⟨hstop, ?_, ?_⟩, hprime⟩
      · rw [hblocks, hidx, hopos]
        exact h.ledger.later (stopPlace_ipos_le h.mem (Nat.le_of_eq hj))
      · rw [hidx, hopos]
        exact hle
  · obtain ⟨hj, hk, rfl⟩ := hdone bs hs
    have hto := hend hj
    have hledger := h.ledger
    have hipos := stopPlace_ipos_le h.mem (Nat.le_of_eq hj)
    rw [hk] at hto hipos
    rw [hto] at hle hledger
    rw [hc.length]
    exact hledger.closed hle hipos

section Trial

variable (h : Tried d gap s g saved k m j start)
include h

variable (hindep : s.indep = true) (hprimes : PrimesFromInput ms s) (hin : InStep fh s g)
  (hfed : s.rd.live.Fed rd g g₁)

include hindep hprimes in
/-- An attempt that is accepted without going back began at a block, and its reader goes on. -/
theorem Tried.accepted (hback : s.backtrack = false)
    (hstart : IsBlockStart ms (placeOf saved (savedFile s g))) :
    Leg d gap s.settled.mBlocks s.settled.lastIdx s.rd.live g k m j saved.opos := by
  obtain ⟨i, hway, -, hi⟩ := h.toTrial.onWay hindep hprimes hstart
  cases hi hback
  have hrec := h.record (b := newBlock saved.opos s.coff s.bits) h.coff rfl rfl
  rw [settled, if_pos hindep, accept]
  simp only [h.uoff]
  exact ⟨hway, hrec, h.toTrial.opos_le⟩

include hindep hprimes hin hfed in
theorem Tried.goesOn (hok : rd.inflate.2 = .ok) (hblock : rd.inflate.1.atBlock = false) :
    Tried d gap { s.stepped rd.inflate.1 with inBlock := true } g₁ saved k m j start where
  toTrial := h.toTrial.goesOn hindep hprimes hin hfed hok hblock
  ledger := h.ledger
  le := h.le

include hindep hprimes hin hfed in
theorem Tried.passed (hret : (s.stepped rd.inflate.1).Returns rd.inflate.2)
    (hsuff : ¬ (s.stepped rd.inflate.1).Suffices rd.inflate.2) :
    Tried d gap { s.stepped rd.inflate.1 with backtrack := true } g₁ saved k m j start where
  toTrial := h.toTrial.passed hindep hprimes hin hfed hret hsuff
  ledger := h.ledger
  le := h.le

include hindep hprimes hin hfed in
/-- A decode that ends without output is that of an empty block. -/
theorem Tried.empty (hret : (s.stepped rd.inflate.1).Returns rd.inflate.2)
    (hsuff : ¬ (s.stepped rd.inflate.1).Suffices rd.inflate.2) (hzero : rd.inflate.1.obytes = 0) :
    m.outs j = m.outs (j - 1) := by
  by_cases hstart : IsBlockStart ms (placeOf saved (savedFile s g))
  · have hsilent := h.toTrial.silent hindep hprimes hin hfed hret hsuff hzero hstart
    have hfrom := h.opos_eq
    have hback := m.outs_mono (Nat.sub_le j 1)
    omega
  · have hcount := h.le_count
    rw [h.isBlockStart_iff] at hstart
    obtain rfl | hpos := Nat.eq_zero_or_pos j
    · rfl
    · have hlast : j = m.count + 1 := by omega
      rw [hlast, m.outs_of_count_le (Nat.le_succ _), Nat.add_sub_cancel]
      exact (m.outs_of_count_le (Nat.le_refl _)).symm

include hindep hprimes hin hfed in
/-- Going back leaves a reader that goes on from its stop. -/
theorem Tried.goesBack {r : Indexing z}
    (hback : GoesBack gap (s.stepped rd.inflate.1) rd.inflate.2 saved
      (s.rd.mSaveSeek - saved.availIn) r) : Tracked d gap r (savedFile s g) := by
  cases hback with
  | accepted =>
      refine @Tracked.leg _ _ _ _ _ _ _ k j start m rfl ⟨h.toOnWay, ?_, ?_⟩
      · simp only [Indexing.restored, Indexing.accept, Indexing.stepped, h.uoff, h.bits]
        exact h.record h.coff rfl rfl
      · exact Nat.le_of_eq h.uoff
  | empty hret hsuff hzero =>
      exact .leg rfl (h.leg (.inr (h.empty hindep hprimes hin hfed hret hsuff hzero)))
  | failed herr hnear =>
      refine .leg rfl (h.leg (.inl ?_))
      have hle : saved.opos - s.lastIdx ≤ gap := hnear
      omega
  | failedDict =>
      exact .leg rfl ⟨h.toOnWay, h.record rfl rfl rfl, Nat.le_refl _⟩

end Trial

/-- What a turn keeps, and what the list it leaves with is. -/
theorem Tracked.turn (hc : Consists fh.data ms) (h : Tracked d gap s g) (hin : InStep fh s g)
    (haccepts : AcceptsBlocks ms s g) (hprimes : PrimesFromInput ms s)
    (hrun : (turn mPath gap s).run g = .ok (t, g')) :
    (∀ s', t = .again s' → Tracked d gap s' g') ∧
      (∀ s₀, t = .examine s₀ → ∃ k m j start,
        Stopped d gap s₀.mBlocks s₀.lastIdx s₀.rd.live g' k m j start ∧
          (s₀.rd.live.ibits = 0 ∨ s₀.rd.live.Backed g')) ∧
      ∀ bs, t = .done bs → Closed ms gap bs := by
  obtain ⟨rd, g₁, hfed, hstep, hcomes⟩ := hin.comes hrun
  cases h with
  | @leg k j start m hindep h =>
      have hsettled : s.settled = s := if_neg (by rw [hindep]; exact Bool.false_ne_true)
      have hleg : Leg d gap s.settled.mBlocks s.settled.lastIdx s.rd.live g k m j start := by
        rw [hsettled]
        exact h
      have hends := hleg.comes hc hin hfed hcomes
      refine ⟨fun s' hs => ?_, hends.1, hends.2⟩
      have hoff : (s.stepped rd.inflate.1).indep = false := hindep
      cases hcomes with
      | goesOn hok hblock =>
          cases hs
          have hopos := opos_le_inflate hfed
          exact .leg hindep ⟨h.toOnWay.goesOn hin.data hin.live hfed hok hblock, h.ledger,
            Nat.le_trans h.le hopos⟩
      | passed hon =>
          rw [hon] at hoff
          cases hoff
      | goesBack hon =>
          rw [hon] at hoff
          cases hoff
      | reached => cases hs
      | ended => cases hs
      | finished => cases hs
  | tried hindep h =>
      have hends : s.backtrack = false → (s.stepped rd.inflate.1).Returns rd.inflate.2 →
          (s.stepped rd.inflate.1).Suffices rd.inflate.2 → _ := fun hback hret hsuff =>
        (h.accepted hindep hprimes hback (h.toTrial.tried ▸
          haccepts hindep hback _ _ g₁ hstep hret hsuff)).comes hc hin hfed hcomes
      cases hcomes with
      | goesOn hok hblock =>
          refine ⟨fun s' hs => ?_, nofun, nofun⟩
          cases hs
          exact .tried hindep (h.goesOn hindep hprimes hin hfed hok hblock)
      | passed _ hret hsuff =>
          refine ⟨fun s' hs => ?_, nofun, nofun⟩
          cases hs
          exact .tried hindep (h.passed hindep hprimes hin hfed hret hsuff)
      | goesBack _ hsave hback =>
          refine ⟨fun s' hs => ?_, nofun, nofun⟩
          cases hs
          cases h.save.symm.trans hsave
          have hfile : { g₁ with pos := (s.stepped rd.inflate.1).rd.mSaveSeek } = savedFile s g :=
            savedFile_fed (s := s) hfed
          rw [hfile]
          exact h.goesBack hindep hprimes hin hfed hback
      | reached hok hblock hacc =>
          obtain ⟨hsuff, hback⟩ := hacc hindep
          exact ⟨nofun, (hends hback (.inr ⟨hok, hblock⟩) hsuff).1, nofun⟩
      | ended hend hacc =>
          exact ⟨nofun, (hends (hacc hindep) (.inl hend) (.inr hend)).1, nofun⟩
      | finished hend hacc =>
          exact ⟨nofun, nofun, (hends (hacc hindep) (.inl hend) (.inr hend)).2⟩

end Turns

section Runs

variable {d : Decodes z fh.data ms}

/-- Examining a stop starts an attempt. -/
theorem Stopped.examined (h : Stopped d gap s₀.mBlocks s₀.lastIdx s₀.rd.live g k m j start)
    (hfile : g.data = fh.data) (hprime : s₀.rd.live.ibits = 0 ∨ s₀.rd.live.Backed g) :
    Tracked d gap (s₀.examined wild g) g :=
  .tried rfl { toTrial := h.toAtStop.trial hfile hprime, ledger := h.ledger, le := h.le }

theorem tracked_start (hc : Consists fh.data ms) :
    Tracked d gap (GzipFile.start z [] fh).1 (GzipFile.start z [] fh).2 := by
  have hlen : 0 < ms.length := List.length_pos_iff.mpr hc.nonempty
  have hm : ms[0]? = some (ms.get ⟨0, hlen⟩) := List.getElem?_eq_getElem hlen
  have hway : OnWay d (Reader.new z) { fh with pos := 0 } 0 (ms.get ⟨0, hlen⟩) 0 0 :=
    ⟨hm, d.gzip hm, Nat.le_refl 0, Nat.le_refl 0⟩
  refine .leg rfl ⟨hway, ⟨.nil, nofun, ?_⟩, Nat.le_refl 0⟩
  exact fun x _ hlt => absurd hlt (Nat.not_lt_zero x)

theorem indexes_tracked (hc : Consists fh.data ms)
    (haccepts : ∀ s g, Indexes wild mPath gap fh s g → AcceptsBlocks ms s g)
    (hprimes : ∀ s g, Indexes wild mPath gap fh s g → PrimesFromInput ms s)
    (h : Indexes wild mPath gap fh s g) : Tracked d gap s g := by
  have hstart : Indexes wild mPath gap fh (GzipFile.start z [] fh).1 (GzipFile.start z [] fh).2 :=
    Relation.ReflTransGen.refl
  refine (Reaches.invariant (P := fun p => Indexes wild mPath gap fh p.1 p.2 ∧
    Tracked d gap p.1 p.2) h ⟨hstart, tracked_start hc⟩ ?_).2
  rintro ⟨s, g⟩ ⟨s', g'⟩ ⟨hs, htrack⟩ hpass
  refine ⟨hs.tail hpass, ?_⟩
  have hin := indexes_inStep hs
  obtain hrun | ⟨s₀, hrun, rfl⟩ := (pass_again wild).mp (onFile_again.mp hpass)
  · exact (htrack.turn hc hin (haccepts s g hs) (hprimes s g hs) hrun).1 _ rfl
  · obtain ⟨k, m, j, start, hstop, hprime⟩ :=
      (htrack.turn hc hin (haccepts s g hs) (hprimes s g hs) hrun).2.1 _ rfl
    exact hstop.examined ((hin.turn hrun).2 _ rfl).2.data hprime

/-- The index of a run whose attempts at blocks are primed from the input buffer is closed. -/
theorem buildIndex_closed {mBlockFactor fuel : Nat} {bs : List GzipBlock} (d : Decodes z fh.data ms)
    (hc : Consists fh.data ms)
    (haccepts : ∀ s g, Indexes wild mPath (mBlockFactor * WindowSize) fh s g → AcceptsBlocks ms s g)
    (hprimes : ∀ s g, Indexes wild mPath (mBlockFactor * WindowSize) fh s g → PrimesFromInput ms s)
    (h : buildIndex wild mPath mBlockFactor fuel [] fh = some (.ok bs)) :
    Closed ms (mBlockFactor * WindowSize) bs := by
  obtain ⟨s, g, g', hs, hrun⟩ := buildIndex_ok wild h
  have htrack : Tracked d (mBlockFactor * WindowSize) s g := indexes_tracked hc haccepts hprimes hs
  exact (htrack.turn hc (indexes_inStep hs) (haccepts s g hs) (hprimes s g hs) hrun).2.2 bs rfl

/-- No record in it has a gap inside. -/
theorem buildIndex_spaced {mBlockFactor fuel : Nat} {bs : List GzipBlock} (d : Decodes z fh.data ms)
    (hc : Consists fh.data ms)
    (haccepts : ∀ s g, Indexes wild mPath (mBlockFactor * WindowSize) fh s g → AcceptsBlocks ms s g)
    (hprimes : ∀ s g, Indexes wild mPath (mBlockFactor * WindowSize) fh s g → PrimesFromInput ms s)
    (h : buildIndex wild mPath mBlockFactor fuel [] fh = some (.ok bs)) :
    Spaced ms (mBlockFactor * WindowSize) bs :=
  (buildIndex_closed d hc haccepts hprimes h).spaced hc

end Runs

/-- The streams of the file below: at byte `i`, with `o` bytes put out; a raw one that no call has
been made on; and one primed with other bits than those of the second block. -/
inductive GapStream where
  | at (w : Wrapper) (i o : Nat)
  | fresh
  | bad

/-- What a stream at byte `i` answers. The first block puts out all it has when its bytes are
used, and the second block starts with the last three bits of them. -/
def gapReply (c : Nat) (w : Wrapper) (i o len room : Nat) : GapStream × Reply :=
  if i < 10 then
    if i + len < 10 then (.at w (i + len) 0, ⟨0, len, [], .ok, 0⟩)
    else (.at w 10 0, ⟨0, 10 - i, [], .ok, 128⟩)
  else if o < 32769 then
    if i + len < c + 11 then (.at w (i + len) o, ⟨0, len, [], .ok, 0⟩)
    else if 32769 ≤ o + room then
      (.at w (c + 11) 32769, ⟨0, c + 11 - i, List.replicate (32769 - o) 0x61, .ok, 131⟩)
    else (.at w (c + 11) (o + room), ⟨0, c + 11 - i, List.replicate room 0x61, .ok, 0⟩)
  else if o = 32769 then (.at w (c + 12) 32770, ⟨0, 1, [0x61], .ok, 192⟩)
  else if w = .Raw then (.at w i o, ⟨0, 0, [], .streamEnd, 64⟩)
  else if i + len < c + 20 then (.at w (i + len) o, ⟨0, len, [], .ok, 0⟩)
  else (.at w (c + 20) o, ⟨0, c + 20 - i, [], .streamEnd, 64⟩)

/-- A raw stream finds a block where the first one starts. With wrong bits in front of it the
second block reads as an empty one. -/
def gapAnswer (c : Nat) (s : GapStream) (input : Buffer) (room : Nat) : GapStream × Reply :=
  match s with
  | .at w i o => gapReply c w i o input.length room
  | .fresh =>
      if input.head? = some 0xff then gapReply c .Raw 10 0 input.length room
      else (.fresh, ⟨0, 0, [], .error (-3), 0⟩)
  | .bad => (.bad, ⟨0, 1, [], .ok, 128⟩)

def gapZlib (c : Nat) : Zlib where
  Stream := GapStream
  init
    | .Gzip => .at .Gzip 0 0
    | .Raw => .fresh
  prime _ _ byte := if byte = 7 then .at .Raw (c + 11) 32769 else .bad
  inflate s input availOut :=
    let r := gapAnswer c s input availOut
    { stream := r.1
      consumed := min r.2.consumed input.length
      out := r.2.out.take availOut
      ret := r.2.ret
      dataType := r.2.dataType
      consumed_le := Nat.min_le_right _ _
      out_le := List.length_take_le _ _ }
  msg _ := "(null)"

/-- A header, a block of 32769 bytes that ends three bits in front of the end of a byte, a block of
one byte, and a trailer. With `c` at 4085 this is the last byte of the first chunk. -/
def gapFile (c : Nat) : FileHandle where
  path := "gap.gz"
  data := 0x1f :: List.replicate 9 0 ++ List.replicate (c + 2) 0xff ++ List.replicate 8 0
  pos := 0

def gapMember (c : Nat) : Member :=
  ⟨10, [⟨8 * c + 5, 32769, Nat.succ_pos _⟩, ⟨11, 1, by decide⟩], letterMember.header_pos⟩

/-- Where the streams of that file are. -/
inductive GapMid (c : Nat) : Wrapper → (k j start ipos opos : Nat) → GapStream → Prop where
  | header {i : Nat} (h : i < 10) : GapMid c .Gzip 0 0 0 i 0 (.at .Gzip i 0)
  | first {w : Wrapper} {i o : Nat} (hlo : 10 ≤ i) (hhi : i ≤ c + 11) (ho : o < 32769) :
      GapMid c w 0 1 0 i o (.at w i o)
  | fresh : GapMid c .Raw 0 1 0 10 0 .fresh
  | second {w : Wrapper} {start : Nat} : GapMid c w 0 2 start (c + 11) 32769 (.at w (c + 11) 32769)
  | trailer {w : Wrapper} {start i : Nat} (hlo : c + 12 ≤ i) (hhi : i < c + 20)
      (hraw : w = .Raw → i = c + 12) : GapMid c w 0 3 start i 32770 (.at w i 32770)

/-- Where its blocks start and end. -/
theorem gap_places (c : Nat) : blockPlace [gapMember c] 0 (gapMember c) 0 = ⟨0, 10, 0⟩ ∧
    blockPlace [gapMember c] 0 (gapMember c) 1 = ⟨32769, c + 11, 3⟩ ∧
      blockPlace [gapMember c] 0 (gapMember c) 2 = ⟨32770, c + 12, 0⟩ := by
  have hbit : ∀ n, blockBit [gapMember c] 0 (gapMember c) n = 80 + (gapMember c).bits n :=
    fun _ => rfl
  have hout : startOut [gapMember c] 0 + (gapMember c).outs 1 = 32769 ∧
      startOut [gapMember c] 0 + (gapMember c).outs 2 = 32770 := by
    simp [startOut, Member.outs, gapMember]
  have hzero : (gapMember c).bits 0 = 0 := rfl
  have hone : (gapMember c).bits 1 = 8 * c + 5 := Nat.add_zero _
  have htwo : (gapMember c).bits 2 = 8 * c + 5 + 11 := rfl
  refine ⟨?_, ?_, ?_⟩
  · rw [blockPlace, hbit, hzero, Place.mk.injEq]
    exact ⟨rfl, rfl, rfl⟩
  · rw [blockPlace, hbit, hone, Place.mk.injEq]
    refine ⟨hout.1, ?_, ?_⟩ <;> omega
  · rw [blockPlace, hbit, htwo, Place.mk.injEq]
    refine ⟨hout.2, ?_, ?_⟩ <;> omega

theorem gap_size (c : Nat) : startByte [gapMember c] 1 = c + 20 := by
  have hbits : (gapMember c).bits 2 = 8 * c + 5 + 11 := rfl
  have hsize : startByte [gapMember c] 1 = (gapMember c).size + 0 := rfl
  have hmember : (gapMember c).size = 10 + ((gapMember c).bits 2 + 7) / 8 + 8 := rfl
  omega

section Gap

variable {w : Wrapper} {c j start ipos opos taken dataType : Nat} {s s' : GapStream}
  {input out : Buffer}
  {availOut : Nat} {ret : Ret}

/-- The answer at byte `ipos` of the file, on the way to stop `j`. -/
abbrev GapAnswer (c : Nat) (w : Wrapper) (j start ipos opos : Nat) (s : GapStream) (input : Buffer)
    (availOut : Nat) : Prop :=
  Answer [gapMember c] (z := gapZlib c) (GapMid c) w 0 (gapMember c) j start ipos opos
    ((gapZlib c).inflate s input availOut)

theorem gap_inflate (hr : gapAnswer c s input availOut = (s', ⟨0, taken, out, ret, dataType⟩))
    (hc : taken ≤ input.length) (hout : out.length ≤ availOut) :
    ((gapZlib c).inflate s input availOut).stream = s' ∧
      ((gapZlib c).inflate s input availOut).consumed = taken ∧
      ((gapZlib c).inflate s input availOut).out = out ∧
      ((gapZlib c).inflate s input availOut).ret = ret ∧
      ((gapZlib c).inflate s input availOut).dataType = dataType := by
  simp only [gapZlib, hr, Nat.min_eq_left hc, List.take_of_length_le hout, and_self]

theorem gap_midway (hr : gapAnswer c s input availOut = (s', ⟨0, taken, out, .ok, 0⟩))
    (hc : taken ≤ input.length) (hout : out.length ≤ availOut)
    (hle : opos + out.length ≤ (gapMember c).outs j)
    (hmid : GapMid c w 0 j start (ipos + taken) (opos + out.length) s') :
    GapAnswer c w j start ipos opos s input availOut := by
  obtain ⟨hs, hcons, ho, hret, hdata⟩ := gap_inflate hr hc hout
  refine .midway hret ?_ ?_ ?_
  · rw [hdata]
    decide
  · rw [ho]
    exact Nat.le_trans hle (Nat.le_add_left _ _)
  · rw [hs, hcons, ho]
    exact hmid

/-- All the input is used, and nothing put out. -/
theorem gap_quiet (hr : gapAnswer c s input availOut = (s', ⟨0, input.length, [], .ok, 0⟩))
    (hle : opos ≤ (gapMember c).outs j)
    (hmid : GapMid c w 0 j start (ipos + input.length) opos s') :
    GapAnswer c w j start ipos opos s input availOut :=
  gap_midway hr (Nat.le_refl _) (Nat.zero_le _) hle hmid

theorem gap_atBlock (hr : gapAnswer c s input availOut = (s', ⟨0, taken, out, .ok, dataType⟩))
    (hc : taken ≤ input.length) (hout : out.length ≤ availOut) (hstop : dataType / 128 % 2 = 1)
    (hj : j ≤ 2) (hplace : blockPlace [gapMember c] 0 (gapMember c) j =
      ⟨opos + out.length, ipos + taken, dataType % 8⟩)
    (hmid : GapMid c w 0 (j + 1) start (ipos + taken) (opos + out.length) s') :
    GapAnswer c w j start ipos opos s input availOut := by
  obtain ⟨hs, hcons, ho, hret, hdata⟩ := gap_inflate hr hc hout
  refine .atBlock hret ?_ hj ?_ ?_
  · rw [hdata]
    exact hstop
  · rw [hdata, hcons, ho]
    exact hplace
  · rw [hs, hcons, ho]
    exact hmid

theorem gap_atEnd (hr : gapAnswer c s input availOut = (s', ⟨0, taken, [], .streamEnd, 64⟩))
    (hc : taken ≤ input.length) (hipos : ipos + taken + (if w = .Gzip then 0 else 8) = c + 20) :
    GapAnswer c w 3 start ipos 32770 s input availOut := by
  obtain ⟨-, hcons, ho, hret, hdata⟩ := gap_inflate hr hc (Nat.zero_le _)
  refine .atEnd hret rfl ?_ ?_ ?_
  · rw [ho]
    rfl
  · rw [hcons]
    exact hipos.trans (gap_size c).symm
  · rw [hdata]

/-- The first block. -/
theorem gap_first {i o : Nat} (hlo : 10 ≤ i) (hhi : i ≤ c + 11) (ho : o < 32769)
    (hs : gapAnswer c s input availOut = gapReply c w i o input.length availOut) :
    GapAnswer c w 1 0 i o s input availOut := by
  have hnot : ¬ i < 10 := Nat.not_lt.mpr hlo
  rw [gapReply, if_neg hnot, if_pos ho] at hs
  by_cases hto : i + input.length < c + 11
  · rw [if_pos hto] at hs
    exact gap_quiet hs (Nat.le_of_lt ho) (.first (by omega) (Nat.le_of_lt hto) ho)
  · rw [if_neg hto] at hs
    have hi : i + (c + 11 - i) = c + 11 := Nat.add_sub_cancel' hhi
    by_cases hroom : 32769 ≤ o + availOut
    · rw [if_pos hroom] at hs
      have hlen : o + (List.replicate (32769 - o) (0x61 : UInt8)).length = 32769 := by
        rw [List.length_replicate, Nat.add_sub_cancel' (Nat.le_of_lt ho)]
      refine gap_atBlock hs (by omega) (by omega) (by decide) (by decide) ?_ ?_
      · rw [hlen, hi]
        exact (gap_places c).2.1
      · rw [hlen, hi]
        exact .second
    · rw [if_neg hroom] at hs
      have hlen : (List.replicate availOut (0x61 : UInt8)).length = availOut :=
        List.length_replicate
      refine gap_midway hs (by omega) (Nat.le_of_eq hlen) ?_ ?_
      · rw [hlen]
        exact Nat.le_of_lt (Nat.lt_of_not_le hroom)
      · rw [hlen, hi]
        exact .first (by omega) (Nat.le_refl _) (Nat.lt_of_not_le hroom)

theorem gap_drop (c : Nat) : (gapFile c).data.drop 10 =
    List.replicate c 0xff ++ (0xff :: 0xff :: List.replicate 8 0) := by
  have hten : (0x1f :: List.replicate 9 (0 : UInt8)).length = 10 := rfl
  have hbody : List.replicate (c + 2) (0xff : UInt8) = List.replicate c 0xff ++ [0xff, 0xff] :=
    List.replicate_append_replicate.symm
  rw [gapFile, List.append_assoc, List.drop_left' hten, hbody, List.append_assoc]
  rfl

/-- The bits that the second block starts with. -/
theorem gap_primed (c : Nat) :
    primedAt (gapZlib c) (gapFile c).data ⟨32769, c + 11, 3⟩ = .at .Raw (c + 11) 32769 := by
  have hlast : (gapFile c).data.drop (c + 11 - 1) = 0xff :: 0xff :: List.replicate 8 0 := by
    rw [show c + 11 - 1 = 10 + c by omega, ← List.drop_drop, gap_drop]
    exact List.drop_left' List.length_replicate
  have hbits : (3 : Nat) ≠ 0 := Nat.succ_ne_zero 2
  rw [primedAt, if_pos hbits]
  simp only [hlast]
  rfl

/-- zlib decodes the two blocks. -/
def gapDecodes (c : Nat) : Decodes (gapZlib c) (gapFile c).data [gapMember c] where
  Mid := GapMid c
  gzip {k m} hm := by
    cases k with
    | zero => exact .header (Nat.succ_pos 9)
    | succ k => cases hm
  raw {k m j} hm hj := by
    cases k with
    | zero =>
        cases hm
        obtain rfl | rfl : j = 0 ∨ j = 1 := by
          have : (gapMember c).count = 2 := rfl
          omega
        · rw [(gap_places c).1]
          exact .fresh
        · rw [(gap_places c).2.1, gap_primed]
          exact .second
    | succ k => cases hm
  inflate {w k m j start ipos opos stream input availOut} hm hmid hne hprefix hroom := by
    have hlen := List.length_pos_iff.mpr hne
    obtain rfl : gapMember c = m := by cases hmid <;> exact Option.some.inj hm
    cases hmid with
    | header h =>
        by_cases hto : ipos + input.length < 10
        · have hr : gapAnswer c (.at .Gzip ipos 0) input availOut =
              (.at .Gzip (ipos + input.length) 0, ⟨0, input.length, [], .ok, 0⟩) := by
            simp only [gapAnswer, gapReply, h, hto, if_true]
          exact gap_quiet hr (Nat.zero_le _) (.header hto)
        · have hi : ipos + (10 - ipos) = 10 := Nat.add_sub_cancel' (Nat.le_of_lt h)
          have hr : gapAnswer c (.at .Gzip ipos 0) input availOut =
              (.at .Gzip 10 0, ⟨0, 10 - ipos, [], .ok, 128⟩) := by
            simp only [gapAnswer, gapReply, h, hto, if_true, if_false]
          refine gap_atBlock hr (by omega) (Nat.zero_le _) (by decide) (by decide) ?_ ?_
          · rw [hi]
            exact (gap_places c).1
          · rw [hi]
            exact .first (by decide) (by omega) (by decide)
    | first hlo hhi ho => exact gap_first hlo hhi ho rfl
    | fresh =>
        have hhead : input.head? = some 0xff := by
          obtain ⟨tl, htl⟩ := hprefix
          have hfile : ((gapFile c).data.drop 10).head? = some 0xff := by
            rw [gap_drop]
            cases c <;> rfl
          rw [← htl, List.head?_append_of_ne_nil _ hne] at hfile
          exact hfile
        exact gap_first (by decide) (by omega) (by decide) (if_pos hhead)
    | second =>
        have hr : gapAnswer c (.at w (c + 11) 32769) input availOut =
            (.at w (c + 12) 32770, ⟨0, 1, [0x61], .ok, 192⟩) := by
          have hnot : ¬ c + 11 < 10 := by omega
          simp [gapAnswer, gapReply, hnot]
        exact gap_atBlock hr hlen hroom (by decide) (by decide) (gap_places c).2.2
          (.trailer (Nat.le_refl _) (by omega) fun _ => rfl)
    | trailer hlo hhi hraw =>
        have hnot : ¬ ipos < 10 := by omega
        cases w with
        | Raw =>
            obtain rfl := hraw rfl
            have hr : gapAnswer c (.at .Raw (c + 12) 32770) input availOut =
                (.at .Raw (c + 12) 32770, ⟨0, 0, [], .streamEnd, 64⟩) := by
              simp [gapAnswer, gapReply, hnot]
            exact gap_atEnd hr (Nat.zero_le _) rfl
        | Gzip =>
            by_cases hto : ipos + input.length < c + 20
            · have hr : gapAnswer c (.at .Gzip ipos 32770) input availOut =
                  (.at .Gzip (ipos + input.length) 32770, ⟨0, input.length, [], .ok, 0⟩) := by
                simp [gapAnswer, gapReply, hnot, hto]
              exact gap_quiet hr (Nat.le_refl 32770) (.trailer (by omega) hto nofun)
            · have hr : gapAnswer c (.at .Gzip ipos 32770) input availOut =
                  (.at .Gzip (c + 20) 32770, ⟨0, c + 20 - ipos, [], .streamEnd, 64⟩) := by
                simp [gapAnswer, gapReply, hnot, hto]
              refine gap_atEnd hr (by omega) ?_
              rw [if_pos rfl]
              omega

end Gap

theorem gap_consists (hc : c < 2 ^ 62) : Consists (gapFile c).data [gapMember c] := by
  have hlen : (gapFile c).data.length = c + 20 := by
    simp only [gapFile, List.length_append, List.length_cons, List.length_replicate]
    omega
  have hout : startOut [gapMember c] [gapMember c].length = 32770 := by
    simp [startOut, Member.usize, Member.outs, Member.count, gapMember]
  refine ⟨hlen.trans (gap_size c).symm, List.cons_ne_nil _ _, ?_, ?_⟩
  · rw [hlen]
    omega
  · rw [hout]
    decide

/-- An attempt has input, and only the one at the first block may be accepted by its first block. -/
def gapTest (c : Nat) (p : Indexing (gapZlib c) × FileHandle) : Bool :=
  !p.1.indep || !decide (p.1.rd.live.availIn = 0 ∧ p.2.rest = []) &&
    match p.1.rd.live.step.run p.2 with
    | .ok ((live, .ok), _) => p.1.backtrack || decide (live.obytes ≤ WindowSize) ||
        decide (p.1.uoff = 0 ∧ p.1.coff = 10 ∧ p.1.bits = 0)
    | .ok ((_, .streamEnd), _) => p.1.backtrack
    | _ => true

theorem gapTest_accepts {s : Indexing (gapZlib c)} {g : FileHandle} (h : gapTest c (s, g) = true) :
    AcceptsBlocks [gapMember c] s g ∧ (s.indep = true → ¬ s.rd.live.Starved g) := by
  have htest : s.indep = true → ¬ s.rd.live.Starved g ∧ _ := fun hindep => by
    rw [gapTest, hindep, Bool.not_true, Bool.false_or, Bool.and_eq_true, Bool.not_eq_true',
      decide_eq_false_iff_not] at h
    exact h
  refine ⟨fun hindep hback live err g' hstep hret hsuff => ?_, fun hindep => (htest hindep).1⟩
  have hmatch := (htest hindep).2
  simp only [hstep, hback, Bool.false_or] at hmatch
  cases err with
  | error code => rcases hret with hend | ⟨hok, -⟩ <;> contradiction
  | streamEnd => cases hmatch
  | ok =>
      rw [Bool.or_eq_true, decide_eq_true_eq, decide_eq_true_eq] at hmatch
      obtain hle | ⟨huoff, hcoff, hbits⟩ := hmatch
      · obtain hgt | hend := hsuff
        · exact absurd hle (Nat.not_le.mpr hgt)
        · cases hend
      · rw [huoff, hcoff, hbits]
        exact ⟨0, gapMember c, 0, rfl, Nat.succ_pos _, (gap_places c).1.symm⟩

/-- In a short file an attempt is also primed from the input. -/
def shortTest (p : Indexing (gapZlib 89) × FileHandle) : Bool :=
  gapTest 89 p && p.1.rd.mSave.all fun saved =>
    saved.ibits = 0 ∨ saved.availIn < saved.mInput.length

theorem short_primes {s : Indexing (gapZlib 89)} {g : FileHandle}
    (h : @Indexes (gapZlib 89) (fun _ => 0) "gap.gz" (1 * WindowSize) (gapFile 89) s g) :
    AcceptsBlocks [gapMember 89] s g ∧ PrimesFromInput [gapMember 89] s := by
  have hall : allStates (onFile (pass (fun _ => 0) "gap.gz" (1 * WindowSize))) shortTest 8
      (start (gapZlib 89) [] (gapFile 89)) = true := by decide +kernel
  have htest : shortTest (s, g) = true := Reaches.of_allStates h hall
  rw [shortTest, Bool.and_eq_true] at htest
  refine ⟨(gapTest_accepts htest.1).1, fun _ _ saved hsaved => ?_⟩
  have hsave := htest.2
  rw [Option.mem_def.mp hsaved] at hsave
  exact of_decide_eq_true hsave

/-- And its second block, more than a window behind the first one, is recorded. -/
theorem buildIndex_spaced_short : ∃ bs,
    @buildIndex (gapZlib 89) (fun _ => 0) "gap.gz" 1 8 [] (gapFile 89) = some (.ok bs) ∧
      bs.length = 2 ∧ Spaced [gapMember 89] (1 * WindowSize) bs := by
  have hrun : (@buildIndex (gapZlib 89) (fun _ => 0) "gap.gz" 1 8 [] (gapFile 89)).any (fun r =>
      match r with
      | .ok bs => bs.length = 2
      | .error _ => false) = true := by decide +kernel
  obtain ⟨r, hr, htwo⟩ := (Option.any_eq_true _ _).mp hrun
  cases r with
  | error e => cases htwo
  | ok bs =>
      exact ⟨bs, hr, of_decide_eq_true htwo, buildIndex_spaced (gapDecodes 89)
        (gap_consists (by decide)) (fun _ _ hs => (short_primes hs).1)
        (fun _ _ hs => (short_primes hs).2) hr⟩

/-- The second block starts farther behind the first one than a window, and is not recorded: the
attempt at it is primed with a byte that is not the file's. -/
theorem gap_not_spaced :
    Nonempty (Decodes (gapZlib 4085) (gapFile 4085).data [gapMember 4085]) ∧
      Consists (gapFile 4085).data [gapMember 4085] ∧
      (∀ s g, @Indexes (gapZlib 4085) (fun _ => 0) "gap.gz" (1 * WindowSize) (gapFile 4085) s g →
        AcceptsBlocks [gapMember 4085] s g ∧ (s.indep = true → ¬ s.rd.live.Starved g)) ∧
      ∃ bs, @buildIndex (gapZlib 4085) (fun _ => 0) "gap.gz" 1 8 [] (gapFile 4085) = some (.ok bs) ∧
        ¬ Spaced [gapMember 4085] (1 * WindowSize) bs := by
  refine ⟨⟨gapDecodes 4085⟩, gap_consists (by decide), fun s g hs => ?_, ?_⟩
  · have hall : allStates (onFile (pass (fun _ => 0) "gap.gz" (1 * WindowSize))) (gapTest 4085) 8
        (start (gapZlib 4085) [] (gapFile 4085)) = true := by decide +kernel
    exact gapTest_accepts (Reaches.of_allStates hs hall)
  · have hrun : (@buildIndex (gapZlib 4085) (fun _ => 0) "gap.gz" 1 8 [] (gapFile 4085)).any
      (fun r =>
        match r with
        | .ok bs => bs.head?.any fun b => b.block.uoff = 0 ∧ b.block.usize = 32770
        | .error _ => false) = true := by decide +kernel
    obtain ⟨r, hr, htest⟩ := (Option.any_eq_true _ _).mp hrun
    cases r with
    | error e => cases htest
    | ok bs =>
        obtain ⟨b, hb, hfields⟩ := (Option.any_eq_true _ _).mp htest
        obtain ⟨huoff, husize⟩ := of_decide_eq_true hfields
        refine ⟨bs, hr, fun hspaced => ?_⟩
        have hnone := hspaced b (List.mem_of_mem_head? hb)
        rw [huoff, husize] at hnone
        have hblock : BlockAt [gapMember 4085] 32769 :=
          ⟨0, gapMember 4085, 1, ⟨11, 1, by decide⟩, rfl, rfl, by decide, by decide⟩
        have hle := hnone 32769 hblock (by decide)
        exact absurd hle (by decide)

end GzipFile

end Lzopfs
