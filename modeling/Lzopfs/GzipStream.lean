import Lzopfs.GzipMembers
import Lzopfs.GzipRecords

/-!
# Indexing stays on the stream

As long as no attempt is accepted that began elsewhere than at the start of a
block, the reader that is not on trial decodes the members from the start of the
file. The invariant `OnStream` says where it is, and that the current member has a
record at its first output. A run that keeps to this ends with records that tile
the output, each one at a block start and inside one member.
-/

namespace Lzopfs

open Verify FileHandle IndexedCompFile

namespace GzipFile

variable {z : Zlib} {file : Buffer} {ms : List Member}

/-- The place a reader is at. -/
def placeOf (rd : Reader z) (g : FileHandle) : Place := ⟨rd.opos, g.pos - rd.availIn, rd.ibits⟩

/-- The reader was started at `start` and is on the way to the `j`-th stop of member `k`. -/
structure OnWay (d : Decodes z file ms) (rd : Reader z) (g : FileHandle) (k : Nat) (m : Member)
    (j start : Nat) : Prop where
  mem : ms[k]? = some m
  mid : d.Mid rd.mWrap k j start (g.pos - rd.availIn) rd.opos rd.mStream
  lo : startOut ms k + m.outs (j - 1) ≤ rd.opos
  hi : rd.opos ≤ startOut ms k + m.outs j

/-- The stop before the `j`-th one: the start of the member, or of a block. -/
def stopPlace (ms : List Member) (k : Nat) (m : Member) : Nat → Place
  | 0 => memberPlace ms k
  | j + 1 => blockPlace ms k m j

/-- The reader is at the stop before the `j`-th one. -/
structure AtStop (d : Decodes z file ms) (rd : Reader z) (g : FileHandle) (k : Nat) (m : Member)
    (j start : Nat) : Prop extends OnWay d rd g k m j start where
  le_count : j ≤ m.count + 1
  place : placeOf rd g = stopPlace ms k m j

variable {d : Decodes z file ms} {rd rd' : Reader z} {g g' : FileHandle} {k j start : Nat}
  {m : Member}

theorem AtStop.truePlace (h : AtStop d rd g k m j start) : TruePlace ms (placeOf rd g) := by
  rw [h.place]
  cases j with
  | zero => exact .member (Nat.le_of_lt (List.getElem?_eq_some_iff.mp h.mem).1)
  | succ j => exact .block h.mem (Nat.le_of_succ_le_succ h.le_count)

/-- A stop is at a block start unless it is at the start of a member or at the end of
its last block. -/
theorem AtStop.isBlockStart_iff (h : AtStop d rd g k m j start) :
    IsBlockStart ms (placeOf rd g) ↔ 0 < j ∧ j ≤ m.count := by
  rw [h.place]
  cases j with
  | zero =>
      exact ⟨fun hs => absurd hs (not_isBlockStart h.mem (.inr rfl)),
        fun hs => absurd hs.1 (Nat.lt_irrefl 0)⟩
  | succ j =>
      obtain hlt | hge := Nat.lt_or_ge j m.count
      · exact ⟨fun _ => ⟨Nat.succ_pos _, hlt⟩, fun _ => ⟨k, m, j, h.mem, hlt, rfl⟩⟩
      · have hj : j = m.count := Nat.le_antisymm (Nat.le_of_succ_le_succ h.le_count) hge
        subst hj
        refine ⟨fun hs => absurd hs (not_isBlockStart h.mem (.inl rfl)), fun hs => ?_⟩
        exact absurd hs.2 (Nat.not_succ_le_self _)

theorem AtStop.opos_le (h : AtStop d rd g k m j start) : rd.opos ≤ startOut ms (k + 1) :=
  Nat.le_trans h.hi (opos_le_startOut h.mem j)

theorem OnWay.startOut_le (h : OnWay d rd g k m j start) : startOut ms k ≤ rd.opos :=
  Nat.le_trans (Nat.le_add_right _ _) h.lo

theorem OnWay.opos_le (h : OnWay d rd g k m j start) : rd.opos ≤ startOut ms (k + 1) :=
  Nat.le_trans h.hi (opos_le_startOut h.mem j)

theorem ipos_inflate (hb : rd.Backed g) :
    g.pos - rd.inflate.1.availIn = g.pos - rd.availIn +
      (z.inflate rd.mStream rd.nextIn rd.availOut).consumed := by
  have hin := rd.availIn_le
  have hpos := hb.1
  have hcons := Nat.le_trans (z.inflate rd.mStream rd.nextIn rd.availOut).consumed_le
    (Nat.le_of_eq rd.length_nextIn)
  simp only [Reader.inflate]
  omega

/-- What a step of a reader that follows the stream can come to. -/
inductive Steps (d : Decodes z file ms) (rd : Reader z) (g : FileHandle) (k : Nat) (m : Member)
    (j start : Nat) : Reader z × Ret → Prop where
  | midway {live : Reader z} (hblock : live.atBlock = false) (hway : OnWay d live g k m j start) :
      Steps d rd g k m j start (live, .ok)
  | atBlock {live : Reader z} (hblock : live.atBlock = true)
      (hstop : AtStop d live g k m (j + 1) start) :
      Steps d rd g k m j start (live, .ok)
  | atEnd {live : Reader z} (hj : j = m.count + 1) (hopos : live.opos = startOut ms (k + 1))
      (hipos : g.pos - live.availIn + (if live.mWrap = .Gzip then 0 else 8) = startByte ms (k + 1))
      (hbits : live.ibits = 0) :
      Steps d rd g k m j start (live, .streamEnd)
  | refused {live : Reader z} {code : Int} (hstart : startOut ms k < start) :
      Steps d rd g k m j start (live, .error code)

theorem OnWay.steps (h : OnWay d rd g k m j start) (hfile : g.data = file)
    (hsync : rd.Synced g) (hfed : rd.Fed rd' g g') :
    Steps d rd g' k m j start rd'.inflate := by
  have hbacked := hfed.backed hsync
  have hunread := (Reader.Synced.unread (.inr hbacked)).2
  have hne : rd'.nextIn ≠ [] := by
    apply List.ne_nil_of_length_pos
    rw [Reader.length_nextIn]
    exact hfed.input
  have hprefix : rd'.nextIn <+: file.drop (g.pos - rd.availIn) := by
    rw [← hfed.ipos, ← hfile, ← hfed.data, ← hunread]
    exact List.prefix_append _ _
  have hmid := h.mid
  rw [← hfed.stream, ← hfed.wrap] at hmid
  have hopos : rd'.opos = rd.opos := by
    rw [Reader.opos, Reader.opos, Reader.obytes, Reader.obytes, hfed.initOutPos, hfed.outBytes]
  have hipos' := ipos_inflate hbacked
  rw [hfed.ipos] at hipos'
  have hopos' : rd'.inflate.1.opos =
      rd.opos + (z.inflate rd'.mStream rd'.nextIn rd'.availOut).out.length := by
    rw [← hopos]
    exact (Nat.add_assoc _ _ _).symm
  have hlo := h.lo
  cases d.inflate h.mem hmid hne hprefix hfed.room with
  | midway hret hstop hle hmid' =>
      have hway : OnWay d rd'.inflate.1 g' k m j start :=
        ⟨h.mem, by rw [hipos', hopos']; exact hmid', by rw [hopos']; omega,
          by rw [hopos']; exact hle⟩
      have hpair : rd'.inflate = (rd'.inflate.1, .ok) := Prod.ext rfl hret
      rw [hpair]
      exact .midway (decide_eq_false hstop) hway
  | atBlock hret hstop hj hplace hmid' =>
      have hplace' : blockPlace ms k m j = placeOf rd'.inflate.1 g' := by
        rw [hplace, placeOf, hipos', hopos']
        rfl
      have hout : startOut ms k + m.outs j = rd'.inflate.1.opos := congrArg Place.opos hplace'
      have hpair : rd'.inflate = (rd'.inflate.1, .ok) := Prod.ext rfl hret
      rw [hpair]
      refine .atBlock (decide_eq_true hstop) ⟨⟨h.mem, ?_, Nat.le_of_eq hout, ?_⟩,
        Nat.succ_le_succ hj, hplace'.symm⟩
      · rw [hipos', hopos']
        exact hmid'
      · rw [← hout]
        exact Nat.add_le_add_left (m.outs_mono (Nat.le_succ j)) _
  | atEnd hret hj hopos'' hipos'' hbits =>
      have hpair : rd'.inflate = (rd'.inflate.1, .streamEnd) := Prod.ext rfl hret
      have hwrap : rd'.inflate.1.mWrap = rd'.mWrap := rfl
      rw [hpair]
      refine .atEnd hj (hopos'.trans hopos'') ?_ (Fin.ext hbits)
      rw [hipos', hwrap]
      exact hipos''
  | refused hret hstart =>
      have hpair : rd'.inflate = (rd'.inflate.1, .error _) := Prod.ext rfl hret
      rw [hpair]
      exact .refused hstart

/-- A step that does not stop stays on the way. -/
theorem OnWay.goesOn (h : OnWay d rd g k m j start) (hfile : g.data = file) (hsync : rd.Synced g)
    (hfed : rd.Fed rd' g g') (hok : rd'.inflate.2 = .ok) (hblock : rd'.inflate.1.atBlock = false) :
    OnWay d rd'.inflate.1 g' k m j start := by
  have hsteps := h.steps hfile hsync hfed
  generalize rd'.inflate = p at hsteps hok hblock
  cases hsteps with
  | midway _ hway => exact hway
  | atBlock hblock' =>
      rw [hblock] at hblock'
      cases hblock'
  | atEnd => cases hok
  | refused => cases hok

/-- A step that stops comes to the next stop. -/
theorem OnWay.stops (h : OnWay d rd g k m j start) (hfile : g.data = file) (hsync : rd.Synced g)
    (hfed : rd.Fed rd' g g') (hok : rd'.inflate.2 = .ok) (hblock : rd'.inflate.1.atBlock = true) :
    AtStop d rd'.inflate.1 g' k m (j + 1) start := by
  have hsteps := h.steps hfile hsync hfed
  generalize rd'.inflate = p at hsteps hok hblock
  cases hsteps with
  | midway hblock' =>
      rw [hblock] at hblock'
      cases hblock'
  | atBlock _ hstop => exact hstop
  | atEnd => cases hok
  | refused => cases hok

/-- Only a raw start behind the first byte of its member is refused. -/
theorem OnWay.refused (h : OnWay d rd g k m j start) (hfile : g.data = file) (hsync : rd.Synced g)
    (hfed : rd.Fed rd' g g') {code : Int} (herr : rd'.inflate.2 = .error code) :
    startOut ms k < start := by
  have hsteps := h.steps hfile hsync hfed
  generalize rd'.inflate = p at hsteps herr
  cases hsteps with
  | midway => cases herr
  | atBlock => cases herr
  | atEnd => cases herr
  | refused hstart => exact hstart

theorem byteBefore_eq {wild : Reader z → UInt8} (hb : rd.Backed g)
    (hin : rd.availIn < rd.mInput.length) :
    rd.byteBefore wild = (g.data.drop (g.pos - rd.availIn - 1)).headD 0 := by
  obtain ⟨n, hn, hbyte⟩ := hb.byteBefore wild hin
  rw [hn, Nat.add_sub_cancel, hbyte]
  rfl

/-- An attempt at the start of a block follows the stream, if it is primed from the
input buffer. -/
theorem AtStop.takeOver (wild : Reader z → UInt8) (spare : Option (Reader z))
    (h : AtStop d rd g k m j start) (hstart : IsBlockStart ms (placeOf rd g))
    (hfile : g.data = file)
    (hprime : rd.ibits = 0 ∨ rd.Backed g ∧ rd.availIn < rd.mInput.length) :
    OnWay d (SavingReader.takeOver wild spare rd) g k m j rd.opos := by
  obtain ⟨hpos, hcount⟩ := h.isBlockStart_iff.mp hstart
  obtain ⟨i, rfl⟩ := Nat.exists_eq_succ_of_ne_zero (Nat.ne_of_gt hpos)
  have hplace : blockPlace ms k m i = placeOf rd g := h.place.symm
  have hopos : (SavingReader.takeOver wild spare rd).opos = rd.opos := by
    obtain ⟨hinit, hbytes⟩ := SavingReader.takeOver_opos wild spare rd
    rw [Reader.opos, Reader.obytes, hinit, hbytes, Nat.add_zero]
  have hstream : (SavingReader.takeOver wild spare rd).mStream =
      primedAt z file (placeOf rd g) := by
    rw [SavingReader.takeOver_stream, primedAt]
    by_cases hbits : rd.ibits = 0
    · have hzero : (placeOf rd g).ibits = 0 := congrArg Fin.val hbits
      rw [if_neg (not_not.mpr hbits), if_neg (not_not.mpr hzero)]
    · have hne : (placeOf rd g).ibits ≠ 0 := fun h0 => hbits (Fin.ext h0)
      obtain ⟨hbacked, hin⟩ := hprime.resolve_left hbits
      rw [if_pos hbits, if_pos hne, byteBefore_eq hbacked hin, hfile]
      rfl
  obtain ⟨havail, hwrap⟩ := SavingReader.takeOver_input wild spare rd
  have hmid := d.raw h.mem hcount
  rw [hplace, ← hstream] at hmid
  refine ⟨h.mem, ?_, by rw [hopos]; exact h.lo, by rw [hopos]; exact h.hi⟩
  rw [hopos, havail, hwrap]
  exact hmid

/-- Behind the trailer the next member starts. -/
theorem atStop_next {live live' : Reader z} (hm : ms[k]? = some m)
    (hopos : live.opos = startOut ms (k + 1))
    (hipos : g.pos - live.availIn + (if live.mWrap = .Gzip then 0 else 8) = startByte ms (k + 1))
    (hbits : live.ibits = 0) (hsync : live.Synced g)
    (hskip : live.skipFooter.run g = .ok (live', g'))
    (hlen : g.data.length = startByte ms ms.length) :
    (g'.pos - live'.availIn = g'.data.length → k + 1 = ms.length) ∧
      (g'.pos - live'.availIn ≠ g'.data.length → ∃ m',
        AtStop d (live'.reset .Gzip) g' (k + 1) m' 0 (startOut ms (k + 1))) := by
  obtain ⟨rd, h, hrun, -, hdata, -, -, hopos', hbits', -, hipos'⟩ := Reader.run_skipFooter hsync
  rw [hskip] at hrun
  cases hrun
  rw [hipos] at hipos'
  rw [hipos', hdata, hlen]
  refine ⟨length_of_startByte hm, fun hne => ?_⟩
  have hk := (List.getElem?_eq_some_iff.mp hm).1
  have hlt : k + 1 < ms.length := by
    refine Nat.lt_of_le_of_ne hk fun heq => hne ?_
    rw [heq]
  have hnext := List.getElem?_eq_getElem hlt
  have hreset : (live'.reset .Gzip).opos = startOut ms (k + 1) := hopos'.trans hopos
  have hzero : (live'.reset .Gzip).ibits = 0 := by
    rw [← hbits]
    exact Fin.ext (congrArg (· % 8) hbits')
  have hmid := d.gzip hnext
  refine ⟨_, ⟨⟨hnext, ?_, Nat.le_of_eq hreset.symm, Nat.le_of_eq hreset⟩, Nat.zero_le _, ?_⟩⟩
  · rw [hreset]
    have hpos : g'.pos - (live'.reset .Gzip).availIn = startByte ms (k + 1) := hipos'
    rw [hpos]
    exact hmid
  · have hpos : g'.pos - (live'.reset .Gzip).availIn = startByte ms (k + 1) := hipos'
    rw [placeOf, hreset, hpos, hzero]
    rfl

/-- The place a record points to. -/
def placeOfBlock (b : GzipBlock) : Place := ⟨b.block.uoff.toNat, b.block.coff.toNat, b.bits⟩

/-- A record that ends at uncompressed offset `o`: its size is right, it starts at a
block unless it is empty, and it lies inside one member. -/
structure JoinedTo (ms : List Member) (b : GzipBlock) (o : Nat) : Prop where
  le : b.block.uoff.toNat ≤ o
  usize : b.block.usize.toNat = o - b.block.uoff.toNat
  isStart : IsBlockStart ms (placeOfBlock b) ∨ o = b.block.uoff.toNat
  inside : ∃ k < ms.length, startOut ms k ≤ b.block.uoff.toNat ∧ o ≤ startOut ms (k + 1)

def Joined (ms : List Member) (a b : GzipBlock) : Prop := JoinedTo ms a b.block.uoff.toNat

/-- The records so far, the last of them at `lastIdx`, when the output has come to `o`. -/
structure Book (ms : List Member) (bs : List GzipBlock) (lastIdx o : Nat) : Prop where
  chain : bs.IsChain (Joined ms)
  head : ∀ b ∈ bs.head?, b.block.uoff = 0
  last : ∀ b ∈ bs.getLast?, b.block.uoff.toNat = lastIdx
  empty : bs = [] → o = 0
  le : lastIdx ≤ o
  isStart : ∀ b ∈ bs.getLast?, IsBlockStart ms (placeOfBlock b) ∨ o = lastIdx
  inside : ∃ k < ms.length, startOut ms k ≤ lastIdx ∧ o ≤ startOut ms (k + 1)

/-- The last record starts at a block of member `k` or of one behind it. -/
def HasStart (ms : List Member) (bs : List GzipBlock) (k : Nat) : Prop :=
  ∃ b ∈ bs.getLast?, IsBlockStart ms (placeOfBlock b) ∧ startOut ms k ≤ b.block.uoff.toNat

variable {bs : List GzipBlock} {lastIdx o o' coff : Nat} {b p : GzipBlock}

/-- Closing the last record joins it to where the output has come to. -/
theorem Book.joinedTo (h : Book ms bs lastIdx o) (hp : p ∈ bs.getLast?)
    (hnear : o < lastIdx + 2 ^ 32) (hlt : o < 2 ^ 64) : JoinedTo ms (sized p o coff) o := by
  have hidx := h.last p hp
  have hle : p.block.uoff.toNat ≤ o := by rw [hidx]; exact h.le
  refine ⟨hle, ?_, ?_, ?_⟩
  · have hfollows := follows_sized coff (b := newBlock o 0 0) hle hlt rfl
    have hsize := congrArg UInt32.toNat hfollows.2
    have hnat : (UInt64.ofNat o).toNat = o := UInt64.toNat_ofNat_of_lt' hlt
    simp only [newBlock, hnat, UInt32.toNat_ofNat'] at hsize
    rw [hsize]
    simp only [sized]
    omega
  · rw [← hidx] at h
    exact h.isStart p hp
  · rw [← hidx] at h
    exact h.inside

/-- The output goes on inside a member that has a record, or not at all. -/
theorem Book.grow (h : Book ms bs lastIdx o) (hk : k < ms.length) (hle : o ≤ o')
    (hto : o' = o ∨ HasStart ms bs k ∧ o' ≤ startOut ms (k + 1)) : Book ms bs lastIdx o' := by
  obtain rfl | ⟨⟨p, hp, hstart, hin⟩, hto⟩ := hto
  · exact h
  · have hidx := h.last p hp
    refine ⟨h.chain, h.head, h.last, fun hnil => ?_, Nat.le_trans h.le hle, fun b hb => ?_,
      k, hk, ?_, hto⟩
    · rw [hnil] at hp
      cases hp
    · rw [Option.mem_unique hb hp]
      exact .inl hstart
    · rw [← hidx]
      exact hin

theorem head_addBlock (hne : bs ≠ []) :
    ∀ c ∈ (addBlock bs o coff b).head?, ∃ c' ∈ bs.head?, c.block.uoff = c'.block.uoff := by
  intro c hc
  obtain rfl | ⟨as, p, rfl⟩ := List.eq_nil_or_concat bs
  · exact absurd rfl hne
  · rw [List.concat_eq_append, addBlock, setLastBlockSize_concat] at hc
    rw [List.concat_eq_append]
    cases as with
    | nil =>
        cases hc
        exact ⟨p, rfl, rfl⟩
    | cons a as =>
        cases hc
        exact ⟨_, rfl, rfl⟩

/-- A record where the output has come to. -/
theorem Book.add (h : Book ms bs lastIdx o) (hnear : o < lastIdx + 2 ^ 32) (hlt : o < 2 ^ 64)
    (hb : b.block.uoff = UInt64.ofNat o)
    (hin : ∃ k < ms.length, startOut ms k ≤ o ∧ o ≤ startOut ms (k + 1)) :
    Book ms (addBlock bs o coff b) o o := by
  have hnat : b.block.uoff.toNat = o := by rw [hb, UInt64.toNat_ofNat_of_lt' hlt]
  refine ⟨?_, ?_, ?_, ?_, Nat.le_refl o, fun _ _ => .inr rfl, hin⟩
  · refine isChain_addBlock (fun _ _ hj => hj) h.chain fun p hp => ?_
    rw [Joined, hnat]
    exact h.joinedTo hp hnear hlt
  · intro c hc
    by_cases hnil : bs = []
    · rw [hnil] at hc
      cases hc
      rw [hb, h.empty hnil]
      rfl
    · obtain ⟨c', hc', heq⟩ := head_addBlock hnil c hc
      rw [heq]
      exact h.head c' hc'
  · intro c hc
    rw [getLast?_addBlock] at hc
    cases hc
    exact hnat
  · intro hnil
    have := getLast?_addBlock bs o coff b
    rw [hnil] at this
    cases this

/-- Records that cover the output of all members. -/
structure Covers (ms : List Member) (bs : List GzipBlock) : Prop where
  chain : bs.IsChain (Joined ms)
  head : ∀ b ∈ bs.head?, b.block.uoff = 0
  last : ∀ b ∈ bs.getLast?, JoinedTo ms b (startOut ms ms.length)
  empty : bs = [] → startOut ms ms.length = 0

theorem Book.covers (h : Book ms bs lastIdx o) (ho : o = startOut ms ms.length)
    (hnear : o < lastIdx + 2 ^ 32) (hlt : o < 2 ^ 64) : Covers ms (setLastBlockSize bs o coff) := by
  obtain rfl | ⟨as, p, rfl⟩ := List.eq_nil_or_concat bs
  · refine ⟨.nil, nofun, nofun, fun _ => ?_⟩
    rw [← ho, h.empty rfl]
  · rw [List.concat_eq_append] at h ⊢
    have hp : p ∈ (as ++ [p]).getLast? := List.getLast?_concat
    refine ⟨isChain_setLastBlockSize (fun _ _ hj => hj) h.chain, ?_, ?_, ?_⟩
    · intro c hc
      rw [setLastBlockSize_concat] at hc
      cases as with
      | nil =>
          cases hc
          exact h.head p rfl
      | cons a as =>
          cases hc
          exact h.head _ rfl
    · intro c hc
      rw [setLastBlockSize_concat, List.getLast?_concat] at hc
      cases hc
      rw [← ho]
      exact h.joinedTo hp hnear hlt
    · intro hnil
      rw [setLastBlockSize_concat] at hnil
      exact absurd hnil (List.concat_ne_nil _ _)

theorem hasStart_addBlock (hb : IsBlockStart ms (placeOfBlock b))
    (hk : startOut ms k ≤ b.block.uoff.toNat) : HasStart ms (addBlock bs o coff b) k :=
  ⟨b, getLast?_addBlock _ _ _ b, hb, hk⟩

end GzipFile

end Lzopfs
