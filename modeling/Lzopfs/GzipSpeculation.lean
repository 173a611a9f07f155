import Lzopfs.GzipCommit

/-!
# When speculation stays on the true stream

A run whose passes are faithful stays on the stream, and the records it returns tile
the output. zlib is only assumed to decode the members; what a raw `inflate` answers
where no block starts is open. The last part is a file and such an answer with which
indexing takes a reader that decodes no member for the one that does.
-/

namespace Lzopfs

open Verify FileHandle IndexedCompFile BlockListCompFile

namespace GzipFile

variable {z : Zlib} {ms : List Member} {fh : FileHandle} {mPath : String}
  {wild : Reader z → UInt8} {b : GzipBlock} {bs : List GzipBlock} {o : Nat}

/-- The blocks that are not empty start where deflate blocks do, lie inside one member
each, and follow on each other from the start of the output to its end. -/
structure Tiles (ms : List Member) (bs : List GzipBlock) : Prop where
  isBlockStart : ∀ b ∈ bs, b.block.usize ≠ 0 → IsBlockStart ms (placeOfBlock b)
  inside : ∀ b ∈ bs, b.block.usize ≠ 0 → ∃ k < ms.length,
    startOut ms k ≤ b.block.uoff.toNat ∧
      b.block.uoff.toNat + b.block.usize.toNat ≤ startOut ms (k + 1)
  contiguous : Contiguous 0 ((bs.map GzipBlock.block).filter fun b => b.usize ≠ 0)
  total : (bs.map fun b => b.block.usize.toNat).sum = startOut ms ms.length

theorem JoinedTo.toNat_uoff_add (h : JoinedTo ms b o) :
    b.block.uoff.toNat + b.block.usize.toNat = o := by
  have hle := h.le
  rw [h.usize]
  omega

theorem JoinedTo.uoff_add (h : JoinedTo ms b o) :
    b.block.uoff + b.block.usize.toUInt64 = UInt64.ofNat o := by
  have hadd := h.toNat_uoff_add
  rw [← UInt64.toNat_inj, UInt64.toNat_add, UInt32.toNat_toUInt64, hadd, UInt64.toNat_ofNat']

/-- The blocks of a chain follow on each other, those of size zero left out. -/
theorem contiguous_of_chain {e : Nat} (he : e < 2 ^ 64) {uoff : UInt64}
    (hchain : bs.IsChain (Joined ms)) (hhead : ∀ b ∈ bs.head?, b.block.uoff = uoff)
    (hlast : ∀ b ∈ bs.getLast?, JoinedTo ms b e) (hempty : bs = [] → uoff.toNat = e) :
    Contiguous uoff ((bs.map GzipBlock.block).filter fun b => b.usize ≠ 0) ∧
      uoff.toNat + (bs.map fun b => b.block.usize.toNat).sum = e ∧
      ∀ b ∈ bs, ∃ o, JoinedTo ms b o := by
  induction bs generalizing uoff with
  | nil => exact ⟨trivial, hempty rfl, nofun⟩
  | cons a bs ih =>
      have ha := hhead a rfl
      obtain ⟨o, hjoin, ho, hnext, hend⟩ : ∃ o, JoinedTo ms a o ∧ o < 2 ^ 64 ∧
          (∀ b ∈ bs.head?, b.block.uoff = UInt64.ofNat o) ∧ (bs = [] → o = e) := by
        cases bs with
        | nil => exact ⟨e, hlast a rfl, he, nofun, fun _ => rfl⟩
        | cons b bs =>
            refine ⟨b.block.uoff.toNat, (List.isChain_cons_cons.mp hchain).1, b.block.uoff.toNat_lt,
              fun c hc => ?_, nofun⟩
            cases hc
            exact UInt64.ofNat_toNat.symm
      have hnat := UInt64.toNat_ofNat_of_lt' ho
      obtain ⟨hcont, hsum, hjoined⟩ := ih hchain.tail hnext
        (fun c hc => hlast c (by rw [List.getLast?_cons, hc]; rfl))
        (fun hnil => by rw [hnat, hend hnil])
      have hadd := hjoin.toNat_uoff_add
      rw [hnat] at hsum
      refine ⟨?_, ?_, List.forall_mem_cons.mpr ⟨⟨o, hjoin⟩, hjoined⟩⟩
      · rw [← hjoin.uoff_add] at hcont
        rw [List.map_cons]
        by_cases hz : a.block.usize = 0
        · rw [List.filter_cons_of_neg (by simpa using hz), ← ha]
          rwa [uoff_add_usize hz] at hcont
        · rw [List.filter_cons_of_pos (by simpa using hz), ← ha]
          exact ⟨rfl, hcont⟩
      · rw [List.map_cons, List.sum_cons, ← ha]
        omega

theorem Covers.tiles (h : Covers ms bs) (hlt : startOut ms ms.length < 2 ^ 64) : Tiles ms bs := by
  obtain ⟨hcont, hsum, hjoined⟩ := contiguous_of_chain hlt h.chain h.head h.last
    fun hnil => (h.empty hnil).symm
  refine ⟨fun b hb hne => ?_, fun b hb hne => ?_, hcont, by simpa using hsum⟩
  · obtain ⟨o, ho⟩ := hjoined b hb
    refine ho.isStart.resolve_right fun heq => hne ?_
    rw [← UInt32.toNat_inj, ho.usize, heq, Nat.sub_self]
    rfl
  · obtain ⟨o, ho⟩ := hjoined b hb
    rw [ho.toNat_uoff_add]
    exact ho.inside

/-- Wherever the loop is not examining a block its reader is where a decoder of the
members comes to, and what it returns tiles the output. -/
structure StaysOnStream (ms : List Member) (wild : Reader z → UInt8) (mPath : String)
    (mBlockFactor : Nat) (fh : FileHandle) : Prop where
  committed : ∀ s g, Indexes wild mPath (mBlockFactor * WindowSize) fh s g → s.indep = false →
    s.inBlock = false → TruePlace ms (placeOf s.rd.live g)
  examines : ∀ s₀ g₀, Examines wild mPath (mBlockFactor * WindowSize) fh s₀ g₀ →
    TruePlace ms (placeOf s₀.rd.live g₀)
  tiles : ∀ fuel bs, buildIndex wild mPath mBlockFactor fuel [] fh = some (.ok bs) → Tiles ms bs

/-- A run whose passes are all faithful stays on the stream. -/
theorem staysOnStream {mBlockFactor : Nat} (d : Decodes z fh.data ms) (hc : Consists fh.data ms)
    (hfaith : ∀ s g, Indexes wild mPath (mBlockFactor * WindowSize) fh s g →
      Faithful ms mPath (mBlockFactor * WindowSize) s g) :
    StaysOnStream ms wild mPath mBlockFactor fh := by
  have hon : ∀ s g, Indexes wild mPath (mBlockFactor * WindowSize) fh s g → OnStream d s g :=
    fun s g hs => indexes_onStream hc hfaith hs
  have hturn := fun s g (hs : Indexes wild mPath (mBlockFactor * WindowSize) fh s g) =>
    fun t g' hrun => (hon s g hs).turn (t := t) hc (indexes_inStep hs) (hfaith s g hs)
      (show (turn mPath (mBlockFactor * WindowSize) s).run g = .ok (t, g') from hrun)
  refine ⟨fun s g hs hindep hblock => ?_, ?_, fun fuel bs hbuild => ?_⟩
  · cases hon s g hs with
    | committed _ _ hstop => exact (hstop hblock).truePlace
    | onTrial htrial =>
        rw [hindep] at htrial
        cases htrial
  · rintro s₀ g₀ ⟨s, g, hs, hrun⟩
    obtain ⟨k, m, j, start, hexam, -⟩ := (hturn s g hs _ _ hrun).2.1 s₀ rfl
    exact hexam.truePlace
  · obtain ⟨s, g, g', hs, hrun⟩ := buildIndex_ok wild hbuild
    exact ((hturn s g hs _ _ hrun).2.2 bs rfl).tiles (Nat.lt_trans hc.opos_lt (by decide))

/-- The answer on the way from byte `i` to a stop. -/
def upTo (i stop len : Nat) (out : Buffer) (ret : Ret) (dataType : Nat) : Reply :=
  if i + len < stop then ⟨i + len, len, [], .ok, 0⟩ else ⟨stop, stop - i, out, ret, dataType⟩

/-- What zlib answers on the file below: streams below 21 decode the member, those from
110 on its block alone, and `blind` what follows the block. -/
def letterReply (blind : Nat → Reply) (i : Nat) (input : Buffer) : Reply :=
  if i < 10 then upTo i 10 input.length [] .ok 128
  else if i < 13 then upTo i 13 input.length [0x61] .ok 198
  else if i < 21 then upTo i 21 input.length [] .streamEnd 64
  else if i < 113 then upTo i 113 input.length [0x61] .ok 198
  else if i = 113 then ⟨113, 0, [], .streamEnd, 64⟩
  else blind (i - 200)

def letterZlib (blind : Nat → Reply) : Zlib := Zlib.replay 110 200 (letterReply blind)

/-- The letter `a` compressed by gzip, into 18 bits. -/
def letterFile : FileHandle where
  path := "a.gz"
  data := [0x1f, 0x8b, 0x08, 0, 0, 0, 0, 0, 0, 3, 0x4b, 0x04, 0,
    0x43, 0xbe, 0xb7, 0xe8, 1, 0, 0, 0]
  pos := 0

def letterMember : Member := ⟨10, [⟨18, 1, by decide⟩], by decide⟩

/-- Where the streams of that file are. -/
inductive LetterMid : Wrapper → (k j start ipos opos : Nat) → Nat → Prop where
  | header {i : Nat} (h : i < 10) : LetterMid .Gzip 0 0 0 i 0 i
  | block {i : Nat} (hlo : 10 ≤ i) (hhi : i < 13) : LetterMid .Gzip 0 1 0 i 0 i
  | trailer {i : Nat} (hlo : 13 ≤ i) (hhi : i < 21) : LetterMid .Gzip 0 2 0 i 1 i
  | rawBlock {i : Nat} (hlo : 10 ≤ i) (hhi : i < 13) : LetterMid .Raw 0 1 0 i 0 (100 + i)
  | rawEnd : LetterMid .Raw 0 2 0 13 1 113

section Letter

variable {blind : Nat → Reply} {w : Wrapper} {j ipos opos i : Nat} {input : Buffer}
  {availOut : Nat}

/-- The answer at byte `ipos` of the file, on the way to stop `j`. -/
abbrev LetterAnswer (blind : Nat → Reply) (w : Wrapper) (j ipos opos i : Nat) (input : Buffer)
    (availOut : Nat) : Prop :=
  Answer [letterMember] (z := letterZlib blind) LetterMid w 0 letterMember j 0 ipos opos
    ((letterZlib blind).inflate i input availOut)

theorem letter_midway
    (hr : letterReply blind i input = ⟨i + input.length, input.length, [], .ok, 0⟩)
    (hle : opos ≤ letterMember.outs j)
    (hmid : LetterMid w 0 j 0 (ipos + input.length) opos (i + input.length)) :
    LetterAnswer blind w j ipos opos i input availOut := by
  refine .midway (congrArg Reply.ret hr) ?_ ?_ ?_ <;>
    simp only [letterZlib, Zlib.replay, hr, List.take_nil, List.length_nil, Nat.min_self]
  · decide
  · exact Nat.le_trans hle (Nat.le_add_left _ _)
  · exact hmid

theorem letter_atBlock (stop c dataType : Nat) (out : Buffer) (hout : out.length ≤ availOut)
    (hr : letterReply blind i input = ⟨stop, c, out, .ok, dataType⟩) (hc : c ≤ input.length)
    (hstop : dataType / 128 % 2 = 1) (hj : j ≤ 1)
    (hplace : blockPlace [letterMember] 0 letterMember j =
      ⟨opos + out.length, ipos + c, dataType % 8⟩)
    (hmid : LetterMid w 0 (j + 1) 0 (ipos + c) (opos + out.length) stop) :
    LetterAnswer blind w j ipos opos i input availOut := by
  refine .atBlock (congrArg Reply.ret hr) ?_ hj ?_ ?_ <;>
    simp only [letterZlib, Zlib.replay, hr, List.take_of_length_le hout, Nat.min_eq_left hc]
  · exact hstop
  · exact hplace
  · exact hmid

theorem letter_atEnd (stop c : Nat) (hopos : opos = 1)
    (hr : letterReply blind i input = ⟨stop, c, [], .streamEnd, 64⟩) (hc : c ≤ input.length)
    (hipos : ipos + c + (if w = .Gzip then 0 else 8) = 21) :
    LetterAnswer blind w 2 ipos opos i input availOut := by
  refine .atEnd (congrArg Reply.ret hr) rfl ?_ ?_ ?_ <;>
    simp only [letterZlib, Zlib.replay, hr, List.take_nil, List.length_nil, Nat.min_eq_left hc]
  · exact hopos
  · exact hipos

/-- Whatever is answered where no block starts, the member is decoded. -/
def letterDecodes (blind : Nat → Reply) :
    Decodes (letterZlib blind) letterFile.data [letterMember] where
  Mid := LetterMid
  gzip {k m} hm := by
    cases k with
    | zero => exact .header (by decide)
    | succ k => cases hm
  raw {k m j} hm hj := by
    cases k with
    | zero =>
        cases hm
        obtain rfl : j = 0 := Nat.lt_one_iff.mp hj
        exact .rawBlock (i := 10) (by decide) (by decide)
    | succ k => cases hm
  inflate {w k m j start ipos opos stream input availOut} hm hmid hne hprefix hroom := by
    have hlen := List.length_pos_iff.mpr hne
    obtain rfl : letterMember = m := by cases hmid <;> exact Option.some.inj hm
    cases hmid with
    | header h =>
        by_cases hto : ipos + input.length < 10
        · exact letter_midway (by simp [letterReply, upTo, h, hto]) (Nat.zero_le _) (.header hto)
        · refine letter_atBlock 10 (10 - ipos) 128 []
            (Nat.zero_le _) (by simp [letterReply, upTo, h, hto]) (by omega) (by decide)
            (by decide) ?_ ?_ <;> rw [Nat.add_sub_cancel' (Nat.le_of_lt h)]
          · decide
          · exact .block (by decide) (by decide)
    | block hlo hhi =>
        have hnot : ¬ ipos < 10 := Nat.not_lt.mpr hlo
        by_cases hto : ipos + input.length < 13
        · exact letter_midway (by simp [letterReply, upTo, hnot, hhi, hto]) (Nat.zero_le _)
            (.block (by omega) hto)
        · refine letter_atBlock 13 (13 - ipos) 198 [0x61]
            hroom (by simp [letterReply, upTo, hnot, hhi, hto]) (by omega) (by decide)
            (by decide) ?_ ?_ <;> rw [Nat.add_sub_cancel' (Nat.le_of_lt hhi)]
          · decide
          · exact .trailer (by decide) (by decide)
    | trailer hlo hhi =>
        have hnot : ¬ ipos < 10 ∧ ¬ ipos < 13 := by omega
        by_cases hto : ipos + input.length < 21
        · exact letter_midway (by simp [letterReply, upTo, hnot, hhi, hto]) (by decide)
            (.trailer (by omega) hto)
        · refine letter_atEnd 21 (21 - ipos) rfl
            (by simp [letterReply, upTo, hnot, hhi, hto]) (by omega) ?_
          rw [if_pos rfl]
          omega
    | rawBlock hlo hhi =>
        have hnot : ¬ 100 + ipos < 10 ∧ ¬ 100 + ipos < 13 ∧ ¬ 100 + ipos < 21 ∧
            100 + ipos < 113 := by
          omega
        by_cases hto : ipos + input.length < 13
        · have hto' : 100 + ipos + input.length < 113 := by omega
          refine letter_midway (by simp [letterReply, upTo, hnot, hto']) (Nat.zero_le _) ?_
          rw [Nat.add_assoc]
          exact .rawBlock (by omega) hto
        · have hto' : ¬ 100 + ipos + input.length < 113 := by omega
          refine letter_atBlock 113 (113 - (100 + ipos)) 198 [0x61] hroom
            (by simp [letterReply, upTo, hnot, hto']) (by omega)
            (by decide) (by decide) ?_ ?_ <;>
            rw [show ipos + (113 - (100 + ipos)) = 13 by omega]
          · decide
          · exact .rawEnd
    | rawEnd =>
        exact letter_atEnd 113 0 rfl rfl (Nat.zero_le _) rfl

end Letter

/-- zlib finds no block in the trailer. -/
def noBlock : Nat → Reply := fun _ => ⟨0, 0, [], .error (-3), 0⟩

/-- The trailer reads as a block of 32769 bytes. -/
def longBlock (i : Nat) : Reply :=
  if i < 8 then ⟨201 + i, if i = 0 then 2 else 0, List.replicate 4096 0, .ok, 0⟩
  else ⟨209, 0, [0], .ok, 128⟩

/-- The passes over the file, with the default block factor. -/
def letterPass (blind : Nat → Reply) :
    Indexing (letterZlib blind) × FileHandle →
      Except Exn (Pass (Indexing (letterZlib blind) × FileHandle) (List GzipBlock × FileHandle)) :=
  onFile (pass (fun _ => 0) "a.gz" (32 * WindowSize))

theorem letter_consists : Consists letterFile.data [letterMember] :=
  ⟨rfl, List.cons_ne_nil _ _, by decide, by decide⟩

/-- The next step of the reader fails. -/
def fails (s : Indexing z) (g : FileHandle) : Bool :=
  match s.rd.live.step.run g with
  | .ok ((_, .error _), _) => true
  | _ => false

/-- In every state of the run, an attempt either began at the block or fails at once. -/
theorem letter_attempts : ∀ i < 6, ∀ p ∈ after (letterPass noBlock) i (start _ [] letterFile),
    p.1.indep = true → (p.1.uoff, p.1.coff, p.1.bits) = (0, 10, 0) ∨
      fails p.1 p.2 = true := by
  decide +kernel

theorem letter_saved : ∀ i < 6, ∀ p ∈ after (letterPass noBlock) i (start _ [] letterFile),
    p.1.indep = true → p.1.uoff < p.1.lastIdx + 2 ^ 32 ∧
      ∀ saved ∈ p.1.rd.mSave, saved.ibits = 0 ∨ saved.availIn < saved.mInput.length := by
  decide +kernel

theorem letter_faithful {s : Indexing (letterZlib noBlock)} {g : FileHandle}
    (h : Indexes (fun _ => 0) "a.gz" (32 * WindowSize) letterFile s g) :
    Faithful [letterMember] "a.gz" (32 * WindowSize) s g := by
  have hover : after (letterPass noBlock) 6 (start _ [] letterFile) = none :=
    Option.isNone_iff_eq_none.mp (by decide +kernel)
  have hat := h.of_after hover letter_attempts
  have hsave := h.of_after hover letter_saved
  refine ⟨fun hindep _ live err g' hstep hret hsuff => ?_, fun hindep _ => (hsave hindep).2,
    fun hindep => (hsave hindep).1, fun _ _ _ => ?_⟩
  · obtain hplace | hfail := hat hindep
    · simp only [Prod.mk.injEq] at hplace
      rw [hplace.1, hplace.2.1, hplace.2.2]
      exact ⟨0, letterMember, 0, rfl, by decide, rfl⟩
    · simp only [fails, hstep] at hfail
      cases err with
      | error code => rcases hret with hend | ⟨hok, -⟩ <;> contradiction
      | ok => cases hfail
      | streamEnd => cases hfail
  · have hone : startOut [letterMember] [letterMember].length = 1 := rfl
    omega

/-- With the answer zlib really gives, indexing stays on the stream. -/
theorem letter_staysOnStream :
    StaysOnStream (z := letterZlib noBlock) [letterMember] (fun _ => 0) "a.gz" 32 letterFile :=
  staysOnStream (letterDecodes noBlock) letter_consists fun _ _ => letter_faithful

/-- Where the trailer reads as a long block, indexing goes on behind that block. -/
theorem letter_leaves :
    Nonempty (Decodes (letterZlib longBlock) letterFile.data [letterMember]) ∧
      Consists letterFile.data [letterMember] ∧
      ¬ StaysOnStream (z := letterZlib longBlock) [letterMember] (fun _ => 0) "a.gz" 32
        letterFile := by
  refine ⟨⟨letterDecodes longBlock⟩, letter_consists, fun hstays => ?_⟩
  have hplace : ∀ p ∈ after (letterPass longBlock) 15 (start _ [] letterFile),
      p.1.indep = false ∧ p.1.inBlock = false ∧ placeOf p.1.rd.live p.2 = ⟨32770, 15, 0⟩ := by
    decide +kernel
  have hrun : (after (letterPass longBlock) 15 (start _ [] letterFile)).isSome := by decide +kernel
  obtain ⟨⟨s, g⟩, hs⟩ := Option.isSome_iff_exists.mp hrun
  obtain ⟨hindep, hblock, hat⟩ := hplace _ hs
  have htrue := hstays.committed s g (after_reaches hs) hindep hblock
  rw [hat] at htrue
  exact absurd htrue.opos_le (by decide)

end GzipFile

end Lzopfs
