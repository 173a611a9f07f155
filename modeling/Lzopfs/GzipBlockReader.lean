import Lzopfs.BlockInput
import Lzopfs.GzipFile

/-!
# Decompressing a gzip block

A `GzipBlockReader` starts a raw inflate at a bit of the file, with the window of the block,
and runs it until the buffer of the block is full. The end of the deflate stream is no reason
to stop: if it comes early, the reader asks inflate again and again, as long as there is input
to ask it with.
-/

namespace Lzopfs

open Verify

/-- zlib, as far as the decompression of a block uses it. -/
structure BlockZlib extends Zlib where
  /-- `inflateSetDictionary`. -/
  setDictionary : Stream → Buffer → Except Int Stream
  /-- `inflate` with `Z_NO_FLUSH`. -/
  inflateOn : Stream → (input : Buffer) → (availOut : Nat) →
    Answer Stream UInt8 Ret input.length availOut

namespace BlockZlib

def decoder (z : BlockZlib) : Decoder UInt8 UInt8 Ret := ⟨z.Stream, z.inflateOn⟩

/-- A stream that has reported its end. -/
def Ended (z : BlockZlib) (s : z.Stream) : Prop :=
  ∃ s₀ input availOut, (z.inflateOn s₀ input availOut).ret = .streamEnd ∧
    (z.inflateOn s₀ input availOut).state = s

/-- Called again behind its end, `inflate` reports it again and does nothing. -/
def StaysEnded (z : BlockZlib) : Prop :=
  ∀ s, z.Ended s → ∀ input availOut, (z.inflateOn s input availOut).ret = .streamEnd ∧
    (z.inflateOn s input availOut).consumed = 0 ∧ (z.inflateOn s input availOut).out = []

/-- A call that returns `Z_OK` consumes input or produces output. -/
def Progresses (z : BlockZlib) : Prop :=
  ∀ s input availOut, (z.inflateOn s input availOut).ret = .ok →
    0 < (z.inflateOn s input availOut).consumed ∨ (z.inflateOn s input availOut).out ≠ []

end BlockZlib

namespace GzipBlockReader

variable (z : BlockZlib) (fh : FileHandle) (b : GzipBlock)

/-- A reader at work. -/
abbrev State : Type := Feed z.decoder (fh.source ChunkSize chunkSize_pos)

/-- `setDict`. -/
def setDict (dict : Buffer) : Except Exn z.Stream :=
  if dict = [] then .ok (z.init .Raw)
  else (z.setDictionary (z.init .Raw) dict).mapError fun _ => .runtime "setDict"

/-- The constructor. -/
def new : Except Exn (State z fh) := do
  let mPos := toOff (b.block.coff - if b.bits ≠ 0 then 1 else 0)
  let s ← setDict z b.dict
  if b.bits ≠ 0 then
    let byte ← fh.preadAt mPos 1
    let s := z.prime s b.bits (UInt8.ofNat ((byte.headD 0).toNat >>> (8 - b.bits.val)))
    return ⟨s, [], mPos + 1, b.block.usize.toNat, []⟩
  else return ⟨s, [], mPos, b.block.usize.toNat, []⟩

/-- `stepThrow`: the end of the stream is not an error. -/
def stepThrow : Ret → Except Exn Bool
  | .ok => .ok false
  | .streamEnd => .ok false
  | .error _ => .error (.runtime "inflate")

/-- `read`: step until the buffer is full. -/
def read : Pump z.decoder (fh.source ChunkSize chunkSize_pos) where
  enough f := f.room = 0
  judge := stepThrow

end GzipBlockReader

open GzipBlockReader

/-- `GzipFile::decompressBlock`, within so many steps of the reader. -/
def GzipFile.decompressBlock (z : BlockZlib) (fuel : Nat) (fh : FileHandle) (b : GzipBlock)
    (ubuf : Buffer) : Option (Except Exn Decoded) :=
  match new z fh b with
  | .error e => some (.error e)
  | .ok rd => (iterate (read z fh).body fuel rd).map fun r =>
      r.map fun rd => .fill ubuf b.block.usize rd.out

namespace GzipBlockReader

variable {z : BlockZlib} {fh : FileHandle} {b : GzipBlock} {f f' g rd : State z fh}
  {ubuf : Buffer}

theorem new_size (h : new z fh b = .ok rd) :
    rd.out = [] ∧ rd.room = b.block.usize.toNat ∧ rd.hand = [] := by
  rw [new] at h
  cases hdict : setDict z b.dict with
  | error e =>
      rw [hdict] at h
      cases h
  | ok s =>
      rw [hdict] at h
      dsimp only [bind, Except.bind, pure, Except.pure] at h
      split at h
      · split at h
        · cases h
        · cases h
          exact ⟨rfl, rfl, rfl⟩
      · cases h
        exact ⟨rfl, rfl, rfl⟩

/-- A new reader is at the start of its work. -/
theorem new_at (h : new z fh b = .ok rd) (accepts : Ret → Prop) :
    Pump.At accepts rd.state rd.left rd.room [] rd := by
  obtain ⟨hout, -⟩ := new_size h
  refine ⟨?_, rfl, ?_⟩
  · rw [hout]
    exact .start
  · rw [hout]
    exact Nat.zero_add _

/-- What a run of the reader leaves behind fills the buffer. -/
theorem full_of_decompressBlock {fuel : Nat} {r : Decoded}
    (h : GzipFile.decompressBlock z fuel fh b ubuf = some (.ok r)) : r.Full b.block.usize := by
  rw [GzipFile.decompressBlock] at h
  cases hnew : new z fh b with
  | error e =>
      rw [hnew] at h
      cases h
  | ok rd =>
      rw [hnew] at h
      obtain ⟨out, hrun, hout⟩ := Option.map_eq_some_iff.mp h
      cases out with
      | error e => cases hout
      | ok f =>
          cases hout
          obtain ⟨-, hroom, -⟩ := new_size hnew
          obtain ⟨t, hreach, hdone⟩ := iterate_ok hrun
          have hstart := new_at hnew fun _ => True
          obtain ⟨given, hat⟩ := hstart.reaches (fun _ _ _ => trivial) hreach
          rw [Decoded.full_fill]
          obtain ⟨henough, rfl⟩ | ⟨g, -, hret, -⟩ := Pump.of_body_done hdone
          · have hsize := hat.size
            have hzero : f.room = 0 := of_decide_eq_true henough
            omega
          · exfalso
            change stepThrow g.answer.ret = .ok true at hret
            cases hg : g.answer.ret <;> rw [hg] at hret <;> cases hret

/-- The stream ends at this call, with the buffer not full and input left. -/
def EndsEarly (g : State z fh) : Prop :=
  g.answer.ret = .streamEnd ∧ g.call.room ≠ 0 ∧ g.call.left ≠ []

/-- A stream that has ended early keeps the loop going. -/
theorem not_ends_of_ended (hended : z.StaysEnded) (hs : z.Ended f.state) (hroom : f.room ≠ 0)
    (hleft : f.left ≠ []) : ¬ Ends (read z fh).body f := by
  apply not_ends (P := fun f : State z fh => z.Ended f.state ∧ f.room ≠ 0 ∧ f.left ≠ [])
    ⟨hs, hroom, hleft⟩
  rintro t ⟨ht, htroom, htleft⟩
  have henough : (read z fh).enough t = false := decide_eq_false htroom
  cases hrefill : t.refill with
  | error e => exact absurd (Feed.refill_error hrefill) htleft
  | ok g =>
      obtain ⟨-, hgleft, hgstate, hgroom, -⟩ := Feed.refill_ok hrefill
      have hcalls : (read z fh).Calls t g := ⟨henough, hrefill⟩
      obtain ⟨hret, hconsumed, hout⟩ := hended g.state (hgstate ▸ ht) g.hand g.room
      have hjudge : (read z fh).judge g.answer.ret = .ok false := by
        show stepThrow (z.inflateOn g.state g.hand g.room).ret = _
        rw [hret]
        rfl
      refine ⟨g.call, hcalls.again hjudge, ⟨g.state, g.hand, g.room, hret, rfl⟩, ?_, ?_⟩
      · show g.room - (z.inflateOn g.state g.hand g.room).out.length ≠ 0
        rw [hout, hgroom]
        exact htroom
      · have hcall := g.left_call
        have hnone : g.answer.consumed = 0 := hconsumed
        rw [hnone, List.take_zero, List.nil_append, hgleft] at hcall
        rw [← hcall]
        exact htleft

/-- A full buffer or the end of the file ends the loop. -/
theorem ends_of_spent (h : f.room = 0 ∨ f.left = []) : Ends (read z fh).body f := by
  by_cases hroom : f.room = 0
  · exact ends_of_done (Pump.body_enough (decide_eq_true hroom))
  · have hleft := h.resolve_left hroom
    cases hrefill : f.refill with
    | error e => exact ends_of_error (Pump.body_refill_error (decide_eq_false hroom) hrefill)
    | ok g =>
        obtain ⟨hne, hgleft, -⟩ := Feed.refill_ok hrefill
        rw [hleft, Feed.left] at hgleft
        exact absurd (List.append_eq_nil_iff.mp hgleft).1 hne

/-- Without an early end, every call that goes on leaves less to do. -/
theorem ends_of_not_early (hprogress : z.Progresses)
    (h : ∀ t g, Reaches (read z fh).body f t → (read z fh).Calls t g → ¬ EndsEarly g) :
    Ends (read z fh).body f := by
  induction hn : f.left.length + f.room using Nat.strongRecOn generalizing f with
  | ind n ih =>
      rcases (read z fh).body_cases f with
        ⟨-, hb⟩ | ⟨-, e, -, hb⟩ | ⟨g, hg, ⟨e, -, hb⟩ | ⟨-, hb⟩ | ⟨hret, hb⟩⟩
      · exact ends_of_done hb
      · exact ends_of_error hb
      · exact ends_of_error hb
      · exact ends_of_done hb
      · apply (ends_again hb).mpr
        change stepThrow g.answer.ret = .ok false at hret
        cases hg' : g.answer.ret with
        | ok =>
            have hless := g.todo_call (hprogress g.state g.hand g.room hg')
            obtain ⟨-, hleft, -, hroom, -⟩ := Feed.refill_ok hg.2
            refine ih _ ?_ (fun t g ht => h t g (.head hb ht)) rfl
            rw [hleft, hroom] at hless
            omega
        | streamEnd =>
            apply ends_of_spent
            by_contra hnot
            obtain ⟨hroom, hleft⟩ := not_or.mp hnot
            exact h f g .refl hg ⟨hg', hroom, hleft⟩
        | error code =>
            rw [hg'] at hret
            cases hret

end GzipBlockReader

namespace GzipFile

variable {z : BlockZlib} {fh : FileHandle} {b : GzipBlock} {ubuf : Buffer}

/-- The decompression of the block comes to a call at which the stream ends early. -/
def StreamEndsEarly (z : BlockZlib) (fh : FileHandle) (b : GzipBlock) : Prop :=
  ∃ rd f g, new z fh b = .ok rd ∧ Reaches (read z fh).body rd f ∧ (read z fh).Calls f g ∧
    EndsEarly g

theorem decompressBlock_some_iff :
    (∃ fuel r, decompressBlock z fuel fh b ubuf = some r) ↔
      ∀ rd, new z fh b = .ok rd → Ends (read z fh).body rd := by
  cases hnew : new z fh b with
  | error e =>
      refine iff_of_true ⟨0, .error e, ?_⟩ nofun
      rw [decompressBlock, hnew]
  | ok rd =>
      constructor
      · rintro ⟨fuel, r, hrun⟩ rd' hrd
        cases hrd
        rw [decompressBlock, hnew] at hrun
        obtain ⟨out, hout, -⟩ := Option.map_eq_some_iff.mp hrun
        exact ⟨fuel, out, hout⟩
      · intro h
        obtain ⟨fuel, out, hout⟩ := h rd rfl
        refine ⟨fuel, out.map fun rd => .fill ubuf b.block.usize rd.out, ?_⟩
        rw [decompressBlock, hnew]
        exact Option.map_eq_some_iff.mpr ⟨out, hout, rfl⟩

/-- The decompression ends as it should exactly if no stream ends early. -/
theorem decompressBlock_full_iff (hended : z.StaysEnded) (hprogress : z.Progresses) :
    (∃ fuel r, decompressBlock z fuel fh b ubuf = some r ∧
      ∀ d, r = .ok d → d.Full b.block.usize) ↔ ¬ StreamEndsEarly z fh b := by
  constructor
  · rintro ⟨fuel, r, hrun, -⟩ ⟨rd, f, g, hnew, hreach, hcalls, hret, hroom, hleft⟩
    have hends := decompressBlock_some_iff.mp ⟨fuel, r, hrun⟩ rd hnew
    have hjudge : (read z fh).judge g.answer.ret = .ok false := by
      rw [hret]
      rfl
    have hnext : Reaches (read z fh).body rd g.call := .tail hreach (hcalls.again hjudge)
    exact not_ends_of_ended hended ⟨g.state, g.hand, g.room, hret, rfl⟩ hroom hleft
      (hnext.ends_iff.mp hends)
  · intro hnot
    obtain ⟨fuel, r, hrun⟩ := (@decompressBlock_some_iff z fh b ubuf).mpr fun rd hnew =>
      ends_of_not_early hprogress fun f g hreach hcalls hearly =>
        hnot ⟨rd, f, g, hnew, hreach, hcalls, hearly⟩
    refine ⟨fuel, r, hrun, ?_⟩
    rintro d rfl
    exact full_of_decompressBlock hrun

/-- Behind the place where the reader `rd` starts the file has a whole stream, which decodes to
less than the record says, and more bytes behind it. -/
def StreamShort (rd : State z fh) (contents : Buffer → Option Buffer) : Prop :=
  ∃ front behind c, rd.left = front ++ behind ∧ behind ≠ [] ∧ contents front = some c ∧
    c.length < rd.room

section Contents

variable {rd f g : State z fh} {contents : Buffer → Option Buffer} {given : Buffer}
  (hdoc : z.decoder.Delimits .ok .streamEnd rd.state contents)
include hdoc

/-- The end of the stream is where its bytes end. -/
theorem streamShort_of_early (hat : Pump.At (· = .ok) rd.state rd.left rd.room given g)
    (hearly : EndsEarly g) : StreamShort rd contents := by
  obtain ⟨hret, hroom, hleft⟩ := hearly
  have hsize := g.size_call
  rw [hat.size] at hsize
  refine ⟨given ++ g.hand.take g.answer.consumed, g.call.left, g.call.out, ?_, hleft,
    hdoc.ended given g.out g.state g.hand g.room hat.fed hret, by omega⟩
  rw [List.append_assoc, ← g.left_call]
  exact hat.input_eq.symm

/-- The loop works on the stream, or its end has come when the buffer was not full. -/
theorem at_or_short (hreach : Reaches (read z fh).body rd f) (hnew : new z fh b = .ok rd) :
    (∃ given, Pump.At (· = .ok) rd.state rd.left rd.room given f) ∨
      (f.room ≠ 0 → f.left ≠ [] → StreamShort rd contents) := by
  refine Reaches.invariant (P := fun f => (∃ given,
    Pump.At (· = .ok) rd.state rd.left rd.room given f) ∨
      (f.room ≠ 0 → f.left ≠ [] → StreamShort rd contents)) hreach
        (.inl ⟨[], new_at hnew _⟩) ?_
  intro t t' ht hpass
  obtain ⟨g, hcalls, hjudge, rfl⟩ := Pump.of_body_again hpass
  obtain ⟨-, hgleft, -, hgroom, -⟩ := Feed.refill_ok hcalls.2
  obtain ⟨given, hat⟩ | hshort := ht
  · have hg := hat.refill hcalls.2
    cases hret : g.answer.ret with
    | ok => exact .inl ⟨_, hg.call hret⟩
    | streamEnd => exact .inr fun hroom hleft => streamShort_of_early hdoc hg ⟨hret, hroom, hleft⟩
    | error code =>
        change stepThrow g.answer.ret = .ok false at hjudge
        rw [hret] at hjudge
        cases hjudge
  · refine .inr fun hroom hleft => hshort ?_ ?_
    · intro hzero
      have hcall : g.call.room = g.room - g.answer.out.length := rfl
      omega
    · intro hnil
      have hcall := g.left_call
      rw [hgleft, hnil] at hcall
      exact hleft (List.append_eq_nil_iff.mp hcall.symm).2

/-- With a stream of the file that is too short, the loop comes to its end. -/
theorem early_of_short {front behind c : Buffer}
    (hstops : z.decoder.StopsAtEnd .ok .streamEnd rd.state contents)
    (hfile : rd.left = front ++ behind) (hbehind : behind ≠ []) (hc : contents front = some c)
    (hless : c.length < rd.room) (hat : Pump.At (· = .ok) rd.state rd.left rd.room given f)
    (hpart : contents given = none) :
    ∃ f' g, Reaches (read z fh).body f f' ∧ (read z fh).Calls f' g ∧ EndsEarly g := by
  have hwhole : contents rd.left = some c := hfile ▸ hdoc.contents_front front behind c hc
  induction hn : f.left.length + f.room using Nat.strongRecOn generalizing f given with
  | ind n ih =>
      have hinput := hat.input_eq
      have hsize := hat.size
      have hmade : f.out.length ≤ c.length :=
        hstops.within given f.out f.state f.left c hat.fed (hinput.symm ▸ hwhole)
      have hroom : f.room ≠ 0 := by omega
      have hleft : f.left ≠ [] := by
        intro hnil
        rw [hnil, List.append_nil] at hinput
        rw [hinput, hwhole] at hpart
        cases hpart
      cases hrefill : f.refill with
      | error e => exact absurd (Feed.refill_error hrefill) hleft
      | ok g =>
          obtain ⟨hne, hgleft, -, hgroom, -⟩ := Feed.refill_ok hrefill
          have hg := hat.refill hrefill
          have hcalls : (read z fh).Calls f g := ⟨decide_eq_false hroom, hrefill⟩
          rcases hdoc.inside given g.out g.state g.hand g.room _ c hg.fed hne
            (hg.input_eq.symm ▸ hwhole) (by rw [hg.size]; exact hless) with
            hret | ⟨hret, hmore, hnone⟩
          · have hended := hdoc.ended given g.out g.state g.hand g.room hg.fed hret
            have hsplit : given ++ g.hand.take g.answer.consumed ++ g.call.left = rd.left := by
              rw [List.append_assoc, ← g.left_call]
              exact hg.input_eq
            have hall : contents rd.left = some g.call.out :=
              hsplit ▸ hdoc.contents_front _ g.call.left _ hended
            rw [hwhole] at hall
            cases hall
            have hcall := g.size_call
            rw [hg.size] at hcall
            refine ⟨f, g, .refl, hcalls, hret, by omega, fun hnil => ?_⟩
            rw [hnil, List.append_nil, hfile] at hsplit
            have hnone := hstops.exact given g.out g.state g.hand g.room front behind hg.fed hret
              hbehind hsplit
            rw [hc] at hnone
            cases hnone
          · have hjudge : (read z fh).judge g.answer.ret = .ok false := by
              show stepThrow _ = _
              rw [show g.answer.ret = .ok from hret]
              rfl
            have hless := g.todo_call hmore
            rw [hgleft, hgroom] at hless
            obtain ⟨f', g', hreach, hearly⟩ := ih _ (hn ▸ hless) (hg.call hret) hnone rfl
            exact ⟨f', g', .head (hcalls.again hjudge) hreach, hearly⟩

/-- For an inflate of a format that says itself where a stream ends, it is the bytes of the file
that decide. -/
theorem streamEndsEarly_iff_short (hstops : z.decoder.StopsAtEnd .ok .streamEnd rd.state contents)
    (hnew : new z fh b = .ok rd) : StreamEndsEarly z fh b ↔ StreamShort rd contents := by
  constructor
  · rintro ⟨rd', f, g, hnew', hreach, hcalls, hearly⟩
    rw [hnew] at hnew'
    cases hnew'
    obtain ⟨given, hat⟩ | hshort := at_or_short hdoc hreach hnew
    · exact streamShort_of_early hdoc (hat.refill hcalls.2) hearly
    · obtain ⟨hne, hleft, -⟩ := Feed.refill_ok hcalls.2
      refine hshort (of_decide_eq_false hcalls.1) fun hnil => hne ?_
      rw [hnil] at hleft
      exact (List.append_eq_nil_iff.mp hleft).1
  · rintro ⟨front, behind, c, hfile, hbehind, hc, hless⟩
    obtain ⟨f, g, hreach, hcalls, hearly⟩ :=
      early_of_short hdoc hstops hfile hbehind hc hless (new_at hnew _) hdoc.contents_nil
    exact ⟨rd, f, g, hnew, hreach, hcalls, hearly⟩

end Contents

/-- The decompression of a block ends, with a full buffer or an exception, exactly if the
stream does not end while the buffer has room and the file has bytes behind it: if the file does
not have a whole stream there that decodes to less than the record says, with more behind it. -/
theorem decompressBlock_ends_iff (hended : z.StaysEnded) (hprogress : z.Progresses) :
    ((∃ fuel r, decompressBlock z fuel fh b ubuf = some r ∧
      ∀ d, r = .ok d → d.Full b.block.usize) ↔ ¬ StreamEndsEarly z fh b) ∧
    ∀ rd contents, new z fh b = .ok rd →
      z.decoder.Delimits .ok .streamEnd rd.state contents →
      z.decoder.StopsAtEnd .ok .streamEnd rd.state contents →
      (StreamEndsEarly z fh b ↔ StreamShort rd contents) :=
  ⟨decompressBlock_full_iff hended hprogress,
    fun _ _ hnew hdoc hstops => streamEndsEarly_iff_short hdoc hstops hnew⟩

/-- An inflate that knows the deflate stream of no bytes, `03 00`, and has taken `s` of them. -/
def emptyAnswer (s : Nat) (input : Buffer) (availOut : Nat) :
    Answer Nat UInt8 Ret input.length availOut :=
  if s = 2 then .nothing 2 .streamEnd _ _
  else if [3, 0].drop s <+: input then
    ⟨2, min (2 - s) input.length, [], .streamEnd, Nat.min_le_right _ _, Nat.zero_le _⟩
  else if s = 0 ∧ input = [3] then
    ⟨1, min 1 input.length, [], .ok, Nat.min_le_right _ _, Nat.zero_le _⟩
  else .nothing s (.error (-3)) _ _

def emptyInflate : BlockZlib where
  Stream := Nat
  init _ := 0
  prime s _ _ := s
  inflate s _ _ :=
    { stream := s, consumed := 0, out := [], ret := .error (-3), dataType := 0,
      consumed_le := Nat.zero_le _, out_le := Nat.zero_le _ }
  msg _ := "invalid"
  setDictionary s _ := .ok s
  inflateOn := emptyAnswer

/-- What a call does. -/
theorem emptyAnswer_cases (s : Nat) (input : Buffer) (availOut : Nat) :
    (emptyAnswer s input availOut).out = [] ∧
      ((emptyAnswer s input availOut).ret = .error (-3) ∨
        s = 0 ∧ input = [3] ∧ (emptyAnswer s input availOut).ret = .ok ∧
          (emptyAnswer s input availOut).state = 1 ∧
            (emptyAnswer s input availOut).consumed = 1 ∨
        (s = 2 ∨ [3, 0].drop s <+: input ∧
            (emptyAnswer s input availOut).consumed = min (2 - s) input.length) ∧
          (emptyAnswer s input availOut).ret = .streamEnd ∧
            (emptyAnswer s input availOut).state = 2) := by
  by_cases htwo : s = 2
  · subst htwo
    exact ⟨rfl, .inr (.inr ⟨.inl rfl, rfl, rfl⟩)⟩
  · by_cases hwhole : [3, 0].drop s <+: input
    · rw [emptyAnswer, if_neg htwo, if_pos hwhole]
      exact ⟨rfl, .inr (.inr ⟨.inr ⟨hwhole, rfl⟩, rfl, rfl⟩)⟩
    · by_cases hone : s = 0 ∧ input = [3]
      · obtain ⟨rfl, rfl⟩ := hone
        exact ⟨rfl, .inr (.inl ⟨rfl, rfl, rfl, rfl, rfl⟩)⟩
      · rw [emptyAnswer, if_neg htwo, if_neg hwhole, if_neg hone]
        exact ⟨rfl, .inl rfl⟩

theorem emptyInflate_staysEnded : emptyInflate.StaysEnded := by
  rintro s ⟨s₀, input₀, availOut₀, hret, rfl⟩ input availOut
  have hended : (emptyInflate.inflateOn s₀ input₀ availOut₀).state = (2 : Nat) := by
    change (emptyAnswer s₀ input₀ availOut₀).ret = .streamEnd at hret
    obtain ⟨-, h | ⟨-, -, h, -⟩ | ⟨-, -, h⟩⟩ := emptyAnswer_cases s₀ input₀ availOut₀
    · cases h.symm.trans hret
    · cases h.symm.trans hret
    · exact h
  rw [hended]
  exact ⟨rfl, rfl, rfl⟩

theorem emptyInflate_progresses : emptyInflate.Progresses := by
  intro s input availOut hret
  change (emptyAnswer s input availOut).ret = .ok at hret
  obtain ⟨-, h | ⟨-, -, -, -, h⟩ | ⟨-, h, -⟩⟩ := emptyAnswer_cases s input availOut
  · cases h.symm.trans hret
  · exact .inl (lt_of_lt_of_eq Nat.one_pos h.symm)
  · cases h.symm.trans hret

theorem emptyInflate_fed {given out : Buffer} {s : emptyInflate.decoder.State}
    (h : emptyInflate.decoder.Fed (· = .ok) (0 : Nat) given out s) :
    out = [] ∧ (given = [] ∧ s = (0 : Nat) ∨ given = [3] ∧ s = (1 : Nat)) := by
  induction h with
  | start => exact ⟨rfl, .inl ⟨rfl, rfl⟩⟩
  | @call given made out s input availOut _ hret hmade ih =>
      change (emptyAnswer s input availOut).ret = .ok at hret
      obtain ⟨rfl, hgiven⟩ := ih
      obtain ⟨hout, h | ⟨rfl, rfl, -, hstate, hconsumed⟩ | ⟨-, h, -⟩⟩ :=
        emptyAnswer_cases s input availOut
      · cases h.symm.trans hret
      · obtain ⟨rfl, -⟩ | ⟨-, h⟩ := hgiven
        · refine ⟨hout, .inr ⟨?_, hstate⟩⟩
          rw [hmade]
          exact congrArg (List.take · _) hconsumed
        · cases h
      · cases h.symm.trans hret

/-- The stream ends behind its two bytes. -/
theorem emptyInflate_end {given out input : Buffer} {s : emptyInflate.decoder.State}
    {availOut : Nat} (h : emptyInflate.decoder.Fed (· = .ok) (0 : Nat) given out s)
    (hret : (emptyInflate.inflateOn s input availOut).ret = .streamEnd) :
    given ++ input.take (emptyInflate.inflateOn s input availOut).consumed = [3, 0] := by
  change (emptyAnswer s input availOut).ret = .streamEnd at hret
  show given ++ input.take (emptyAnswer s input availOut).consumed = [3, 0]
  obtain ⟨-, hgiven⟩ := emptyInflate_fed h
  obtain ⟨-, h | ⟨-, -, h, -⟩ | ⟨rfl | ⟨hwhole, hconsumed⟩, -⟩⟩ :=
    emptyAnswer_cases s input availOut
  · cases h.symm.trans hret
  · cases h.symm.trans hret
  · obtain ⟨-, h⟩ | ⟨-, h⟩ := hgiven
    · cases h
    · cases h
  · rw [hconsumed]
    obtain ⟨behind, rfl⟩ := hwhole
    obtain ⟨rfl, rfl⟩ | ⟨rfl, rfl⟩ := hgiven
    · simp
    · simp

/-- What it decodes to. -/
def emptyContents (buf : Buffer) : Option Buffer := if [3, 0] <+: buf then some [] else none

theorem emptyInflate_delimits :
    emptyInflate.decoder.Delimits .ok .streamEnd (0 : Nat) emptyContents where
  contents_nil := rfl
  contents_front a b c h := by
    by_cases hwhole : [3, 0] <+: a
    · rw [emptyContents, if_pos hwhole] at h
      rw [emptyContents, if_pos (hwhole.trans (List.prefix_append a b)), h]
    · rw [emptyContents, if_neg hwhole] at h
      cases h
  ended given out s input availOut h hret := by
    have hend := emptyInflate_end h hret
    have hout : (emptyInflate.inflateOn s input availOut).out = [] :=
      (emptyAnswer_cases s input availOut).1
    change emptyContents (given ++ input.take (emptyInflate.inflateOn s input availOut).consumed) =
      some (out ++ (emptyInflate.inflateOn s input availOut).out)
    rw [hend, hout, (emptyInflate_fed h).1]
    rfl
  inside given out s input availOut behind c h hne hwhole _ := by
    obtain ⟨-, hgiven⟩ := emptyInflate_fed h
    have hfront : [3, 0] <+: given ++ (input ++ behind) := by
      by_contra hnot
      rw [emptyContents, if_neg hnot] at hwhole
      cases hwhole
    obtain ⟨x, input, rfl⟩ := List.exists_cons_of_ne_nil hne
    obtain ⟨rfl, rfl⟩ | ⟨rfl, rfl⟩ := hgiven
    · obtain ⟨rfl, hrest⟩ := List.cons_prefix_cons.mp hfront
      cases input with
      | nil => exact .inr ⟨rfl, .inl Nat.one_pos, rfl⟩
      | cons y input =>
          obtain ⟨rfl, -⟩ := List.cons_prefix_cons.mp hrest
          exact .inl rfl
    · obtain ⟨-, hrest⟩ := List.cons_prefix_cons.mp hfront
      obtain ⟨rfl, -⟩ := List.cons_prefix_cons.mp hrest
      exact .inl rfl

theorem emptyInflate_stopsAtEnd :
    emptyInflate.decoder.StopsAtEnd .ok .streamEnd (0 : Nat) emptyContents where
  within given out s behind c h _ := by
    rw [(emptyInflate_fed h).1]
    exact Nat.zero_le _
  exact given out s input availOut front behind h hret hne hsplit := by
    have hlen := congrArg List.length ((emptyInflate_end h hret).symm.trans hsplit)
    rw [List.length_append] at hlen
    have hpos := List.length_pos_iff.mpr hne
    apply if_neg
    intro hwhole
    have hle := hwhole.length_le
    simp only [List.length_cons, List.length_nil] at hlen hle
    omega

/-- The gzip file of an empty file. -/
def emptyFile : FileHandle :=
  ⟨"e.gz", [0x1f, 0x8b, 8, 0, 0, 0, 0, 0, 0, 3, 3, 0, 0, 0, 0, 0, 0, 0, 0, 0], 0⟩

/-- A record of an index that says that a byte is stored there. -/
def staleBlock : GzipBlock where
  block := ⟨1, 10, 0, 10⟩
  bits := 0
  dict := []
  dict_length := GzipBlock.no_dict

def staleReader : State emptyInflate emptyFile := ⟨(0 : Nat), [], (10 : Int), 1, []⟩

theorem decompressBlock_ends_iff_empty :
    ((∃ fuel r, decompressBlock emptyInflate fuel emptyFile staleBlock [] = some r ∧
      ∀ d, r = .ok d → d.Full staleBlock.block.usize) ↔
        ¬ StreamEndsEarly emptyInflate emptyFile staleBlock) ∧
    (StreamEndsEarly emptyInflate emptyFile staleBlock ↔
      StreamShort staleReader emptyContents) := by
  obtain ⟨hends, hshort⟩ := @decompressBlock_ends_iff _ emptyFile staleBlock []
    emptyInflate_staysEnded emptyInflate_progresses
  exact ⟨hends, hshort staleReader emptyContents rfl emptyInflate_delimits
    emptyInflate_stopsAtEnd⟩

/-- The decompression of the stale record never ends. -/
theorem staleBlock_never_ends :
    ¬ ∃ fuel r, decompressBlock emptyInflate fuel emptyFile staleBlock [] = some r := by
  rintro ⟨fuel, r, hrun⟩
  have hends := decompressBlock_some_iff.mp ⟨fuel, r, hrun⟩ staleReader rfl
  have hcalls : (read emptyInflate emptyFile).Calls staleReader
      ⟨(0 : Nat), [3, 0, 0, 0, 0, 0, 0, 0, 0, 0], (20 : Int), 1, []⟩ := ⟨rfl, rfl⟩
  have hnext := (ends_again (hcalls.again rfl)).mp hends
  exact not_ends_of_ended emptyInflate_staysEnded
    ⟨(0 : Nat), [3, 0, 0, 0, 0, 0, 0, 0, 0, 0], 1, rfl, rfl⟩ (by decide) (by decide) hnext

end GzipFile

end Lzopfs
