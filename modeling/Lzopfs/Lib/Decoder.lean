import Lzopfs.Lib.Loop

/-!
# Streaming decoders

A call of a streaming decoder consumes a part of the input in hand and produces output into
the room it is given. A `Pump` is a loop around such calls: it fetches input from a source
when none is in hand, and the return codes of the decoder or a test of its own end it. What
the decoder has been given and has produced up to a state is a relation of its own, `Fed`,
in which a library's documentation can be stated.
-/

namespace Verify

/-- The effect of one call. -/
structure Answer (σ β ρ : Type) (availIn availOut : Nat) where
  state : σ
  consumed : Nat
  out : List β
  ret : ρ
  consumed_le : consumed ≤ availIn
  out_le : out.length ≤ availOut

/-- A call that does nothing. -/
abbrev Answer.nothing {σ β ρ : Type} (state : σ) (ret : ρ) (availIn availOut : Nat) :
    Answer σ β ρ availIn availOut :=
  ⟨state, 0, [], ret, Nat.zero_le availIn, Nat.zero_le availOut⟩

structure Decoder (α β ρ : Type) where
  State : Type
  call : State → (input : List α) → (availOut : Nat) → Answer State β ρ input.length availOut

/-- Where input comes from. `rest` is all that is still to come. -/
structure Source (α ε : Type) where
  State : Type
  more : State → Except ε (List α × State)
  rest : State → List α
  more_ok : ∀ {s c s'}, more s = .ok (c, s') → c ≠ [] ∧ rest s = c ++ rest s'
  more_error : ∀ {s e}, more s = .error e → rest s = []

variable {α β ρ ε : Type} {d : Decoder α β ρ} {src : Source α ε}

/-- What the decoder has consumed and produced, in calls with accepted return codes only. -/
inductive Decoder.Fed (d : Decoder α β ρ) (accepts : ρ → Prop) (start : d.State) :
    List α → List β → d.State → Prop
  | start : Fed d accepts start [] [] start
  | call {given made : List α} {out : List β} {s : d.State} {input : List α} {availOut : Nat}
      (h : Fed d accepts start given out s) (hret : accepts (d.call s input availOut).ret)
      (hmade : made = given ++ input.take (d.call s input availOut).consumed) :
      Fed d accepts start made (out ++ (d.call s input availOut).out)
        (d.call s input availOut).state

/-- A decoder of a format in which every front of an input decodes to something: `contents` is
what it decodes to, as far as it is `valid`. -/
structure Decoder.Streams (d : Decoder α β ρ) (accepts : ρ → Prop) (start : d.State)
    (valid : List α → Prop) (contents : List α → List β) : Prop where
  valid_nil : valid []
  valid_front : ∀ a b, valid (a ++ b) → valid a
  contents_nil : contents [] = []
  contents_front : ∀ a b, contents a <+: contents (a ++ b)
  /-- What is accepted is valid. -/
  accepted : ∀ given out s input availOut, d.Fed accepts start given out s →
    accepts (d.call s input availOut).ret →
      valid (given ++ input.take (d.call s input availOut).consumed)
  /-- A call with input and room fails only on an input that is not valid. -/
  rejected : ∀ given out s input availOut, d.Fed accepts start given out s → input ≠ [] →
    0 < availOut → ¬ accepts (d.call s input availOut).ret → ¬ valid (given ++ input)
  produced : ∀ given out s, d.Fed accepts start given out s → out <+: contents given
  /-- A call that leaves room has produced everything it could. -/
  flushed : ∀ given out s input availOut, d.Fed accepts start given out s →
    accepts (d.call s input availOut).ret → (d.call s input availOut).out.length < availOut →
      out ++ (d.call s input availOut).out =
        contents (given ++ input.take (d.call s input availOut).consumed)
  progress : ∀ given out s input availOut, d.Fed accepts start given out s → input ≠ [] →
    0 < availOut → accepts (d.call s input availOut).ret →
      0 < (d.call s input availOut).consumed ∨ (d.call s input availOut).out ≠ []

theorem Decoder.Streams.valid_fed {accepts : ρ → Prop} {start s : d.State}
    {valid : List α → Prop} {contents : List α → List β} {given : List α} {out : List β}
    (h : d.Streams accepts start valid contents) (hfed : d.Fed accepts start given out s) :
    valid given := by
  cases hfed with
  | start => exact h.valid_nil
  | call hfed hret hmade =>
      rw [hmade]
      exact h.accepted _ _ _ _ _ hfed hret

/-- A decoder that has nothing left to produce takes its input without room. -/
def Decoder.TakesRest (d : Decoder α β ρ) (accepts : ρ → Prop) (start : d.State)
    (valid : List α → Prop) (contents : List α → List β) : Prop :=
  ∀ given out s input, d.Fed accepts start given out s → input ≠ [] → valid (given ++ input) →
    out = contents (given ++ input) →
      accepts (d.call s input 0).ret ∧ 0 < (d.call s input 0).consumed

/-- A decoder of a format in which an input says itself where it ends: `contents` is what an
input decodes to that has its end in it. -/
structure Decoder.Delimits (d : Decoder α β ρ) (ok done : ρ) (start : d.State)
    (contents : List α → Option (List β)) : Prop where
  contents_nil : contents [] = none
  contents_front : ∀ a b c, contents a = some c → contents (a ++ b) = some c
  ended : ∀ given out s input availOut, d.Fed (· = ok) start given out s →
    (d.call s input availOut).ret = done →
      contents (given ++ input.take (d.call s input availOut).consumed) =
        some (out ++ (d.call s input availOut).out)
  /-- With enough room, a call inside a whole input reports its end, or it consumes input or
  produces output and is not yet at the end. -/
  inside : ∀ given out s input availOut behind c, d.Fed (· = ok) start given out s →
    input ≠ [] → contents (given ++ (input ++ behind)) = some c →
      c.length < out.length + availOut → (d.call s input availOut).ret = done ∨
        (d.call s input availOut).ret = ok ∧
          (0 < (d.call s input availOut).consumed ∨ (d.call s input availOut).out ≠ []) ∧
            contents (given ++ input.take (d.call s input availOut).consumed) = none

/-- A decoder that needs no more room than for what an input decodes to. -/
def Decoder.EndsWithin (d : Decoder α β ρ) (ok done : ρ) (start : d.State)
    (contents : List α → Option (List β)) : Prop :=
  ∀ given out s input availOut behind c, d.Fed (· = ok) start given out s →
    input ≠ [] → contents (given ++ (input ++ behind)) = some c →
      c.length ≤ out.length + availOut → (d.call s input availOut).ret = done ∨
        (d.call s input availOut).ret = ok ∧
          (0 < (d.call s input availOut).consumed ∨ (d.call s input availOut).out ≠ []) ∧
            contents (given ++ input.take (d.call s input availOut).consumed) = none

/-- A decoder that takes nothing behind the end of its input, and has produced nothing that
the input does not decode to. -/
structure Decoder.StopsAtEnd (d : Decoder α β ρ) (ok done : ρ) (start : d.State)
    (contents : List α → Option (List β)) : Prop where
  within : ∀ given out s behind c, d.Fed (· = ok) start given out s →
    contents (given ++ behind) = some c → out.length ≤ c.length
  exact : ∀ given out s input availOut front behind, d.Fed (· = ok) start given out s →
    (d.call s input availOut).ret = done → behind ≠ [] →
      given ++ input.take (d.call s input availOut).consumed = front ++ behind →
        contents front = none

/-- A decoder that makes a value of an input which says itself where it ends: `parse` is the
value of an input that has its end in it. -/
structure Decoder.Parses {γ : Type} (d : Decoder α β ρ) (ok done : ρ) (start : d.State)
    (value : d.State → γ) (parse : List α → Option γ) : Prop where
  parse_nil : parse [] = none
  /-- Inside a whole input, a call reports its end and has the value, or it consumes input
  and is not yet at the end. -/
  inside : ∀ given out s input availOut behind v, d.Fed (· = ok) start given out s →
    input ≠ [] → parse (given ++ (input ++ behind)) = some v →
      (d.call s input availOut).ret = done ∧ value (d.call s input availOut).state = v ∨
        (d.call s input availOut).ret = ok ∧ 0 < (d.call s input availOut).consumed ∧
          parse (given ++ input.take (d.call s input availOut).consumed) = none

/-- A decoder at work: the input in hand, the room that is left and the output so far. -/
structure Feed (d : Decoder α β ρ) (src : Source α ε) where
  state : d.State
  hand : List α
  source : src.State
  room : Nat
  out : List β

namespace Feed

/-- The input still to come. -/
def left (f : Feed d src) : List α := f.hand ++ src.rest f.source

def answer (f : Feed d src) : Answer d.State β ρ f.hand.length f.room :=
  d.call f.state f.hand f.room

/-- One call of the decoder. -/
def call (f : Feed d src) : Feed d src where
  state := f.answer.state
  hand := f.hand.drop f.answer.consumed
  source := f.source
  room := f.room - f.answer.out.length
  out := f.out ++ f.answer.out

/-- Fetch input if none is in hand. -/
def refill (f : Feed d src) : Except ε (Feed d src) :=
  if f.hand.isEmpty then do
    let (hand, source) ← src.more f.source
    return { f with hand, source }
  else .ok f

variable {f g : Feed d src} {e : ε}

theorem refill_ok (h : f.refill = .ok g) :
    g.hand ≠ [] ∧ g.left = f.left ∧ g.state = f.state ∧ g.room = f.room ∧ g.out = f.out := by
  rw [refill] at h
  cases hhand : f.hand with
  | nil =>
      rw [hhand] at h
      cases hmore : src.more f.source with
      | error e =>
          rw [hmore] at h
          cases h
      | ok p =>
          rw [hmore] at h
          cases h
          obtain ⟨hne, hrest⟩ := src.more_ok hmore
          refine ⟨hne, ?_, rfl, rfl, rfl⟩
          rw [left, left, hhand, List.nil_append]
          exact hrest.symm
  | cons a as =>
      rw [hhand] at h
      cases h
      exact ⟨by rw [hhand]; exact List.cons_ne_nil _ _, rfl, rfl, rfl, rfl⟩

theorem refill_error (h : f.refill = .error e) : f.left = [] := by
  rw [refill] at h
  cases hhand : f.hand with
  | nil =>
      rw [hhand] at h
      cases hmore : src.more f.source with
      | error e =>
          rw [left, hhand]
          exact src.more_error hmore
      | ok p =>
          rw [hmore] at h
          cases h
  | cons a as =>
      rw [hhand] at h
      cases h

theorem left_call (f : Feed d src) : f.left = f.hand.take f.answer.consumed ++ f.call.left := by
  show f.hand ++ src.rest f.source = _ ++ (f.hand.drop _ ++ src.rest f.source)
  rw [← List.append_assoc, List.take_append_drop]

theorem size_call (f : Feed d src) :
    f.call.out.length + f.call.room = f.out.length + f.room := by
  have hle := f.answer.out_le
  show (f.out ++ f.answer.out).length + (f.room - f.answer.out.length) = _
  rw [List.length_append]
  omega

/-- A call that consumes or produces leaves less to do. -/
theorem todo_call (h : 0 < f.answer.consumed ∨ f.answer.out ≠ []) :
    f.call.left.length + f.call.room < f.left.length + f.room := by
  have hleft := congrArg List.length f.left_call
  have hin := f.answer.consumed_le
  have hout := f.answer.out_le
  have hroom : f.call.room = f.room - f.answer.out.length := rfl
  rw [List.length_append, List.length_take] at hleft
  obtain h | h := h
  · omega
  · have hpos := List.length_pos_iff.mpr h
    omega

end Feed

/-- A loop around a decoder. -/
structure Pump (d : Decoder α β ρ) (src : Source α ε) where
  /-- The test before a call. -/
  enough : Feed d src → Bool
  /-- Does the return code end the loop? -/
  judge : ρ → Except ε Bool

namespace Pump

def body (p : Pump d src) (f : Feed d src) : Except ε (Pass (Feed d src) (Feed d src)) :=
  if p.enough f then .ok (.done f)
  else do
    let g ← f.refill
    if ← p.judge g.answer.ret then return .done g.call else return .again g.call

variable {p : Pump d src} {f f' g : Feed d src} {e : ε}

/-- The decoder is called for `g`. -/
def Calls (p : Pump d src) (f g : Feed d src) : Prop := p.enough f = false ∧ f.refill = .ok g

theorem body_enough (h : p.enough f = true) : p.body f = .ok (.done f) := if_pos h

theorem body_refill_error (h : p.enough f = false) (he : f.refill = .error e) :
    p.body f = .error e := by
  rw [body, h, he]
  rfl

theorem Calls.body (h : p.Calls f g) :
    p.body f = (p.judge g.answer.ret).map fun b => if b then .done g.call else .again g.call := by
  rw [Pump.body, h.1, h.2]
  show (do if ← p.judge g.answer.ret then return Pass.done g.call else return Pass.again g.call) = _
  cases p.judge g.answer.ret with
  | error e => rfl
  | ok b =>
      cases b with
      | false => rfl
      | true => rfl

theorem Calls.again (h : p.Calls f g) (hret : p.judge g.answer.ret = .ok false) :
    p.body f = .ok (.again g.call) := by
  rw [h.body, hret]
  rfl

theorem Calls.done (h : p.Calls f g) (hret : p.judge g.answer.ret = .ok true) :
    p.body f = .ok (.done g.call) := by
  rw [h.body, hret]
  rfl

theorem Calls.error (h : p.Calls f g) (hret : p.judge g.answer.ret = .error e) :
    p.body f = .error e := by
  rw [h.body, hret]
  rfl

/-- Everything a pass can do. -/
theorem body_cases (p : Pump d src) (f : Feed d src) :
    (p.enough f = true ∧ p.body f = .ok (.done f)) ∨
      (p.enough f = false ∧ ∃ e, f.refill = .error e ∧ p.body f = .error e) ∨
      ∃ g, p.Calls f g ∧ ((∃ e, p.judge g.answer.ret = .error e ∧ p.body f = .error e) ∨
        (p.judge g.answer.ret = .ok true ∧ p.body f = .ok (.done g.call)) ∨
        p.judge g.answer.ret = .ok false ∧ p.body f = .ok (.again g.call)) := by
  cases henough : p.enough f with
  | true => exact .inl ⟨rfl, body_enough henough⟩
  | false =>
      refine .inr ?_
      cases hrefill : f.refill with
      | error e => exact .inl ⟨rfl, e, rfl, body_refill_error henough hrefill⟩
      | ok g =>
          have hcalls : p.Calls f g := ⟨henough, hrefill⟩
          refine .inr ⟨g, hcalls, ?_⟩
          cases hret : p.judge g.answer.ret with
          | error e => exact .inl ⟨e, rfl, hcalls.error hret⟩
          | ok b =>
              cases b with
              | false => exact .inr (.inr ⟨rfl, hcalls.again hret⟩)
              | true => exact .inr (.inl ⟨rfl, hcalls.done hret⟩)

theorem of_body_again (h : p.body f = .ok (.again f')) :
    ∃ g, p.Calls f g ∧ p.judge g.answer.ret = .ok false ∧ f' = g.call := by
  rcases p.body_cases f with
    ⟨-, hb⟩ | ⟨-, e, -, hb⟩ | ⟨g, hg, ⟨e, -, hb⟩ | ⟨-, hb⟩ | ⟨hret, hb⟩⟩
  · rw [hb] at h
    cases h
  · rw [hb] at h
    cases h
  · rw [hb] at h
    cases h
  · rw [hb] at h
    cases h
  · rw [hb] at h
    cases h
    exact ⟨g, hg, hret, rfl⟩

theorem of_body_done (h : p.body f = .ok (.done f')) :
    (p.enough f = true ∧ f' = f) ∨
      ∃ g, p.Calls f g ∧ p.judge g.answer.ret = .ok true ∧ f' = g.call := by
  rcases p.body_cases f with
    ⟨henough, hb⟩ | ⟨-, e, -, hb⟩ | ⟨g, hg, ⟨e, -, hb⟩ | ⟨hret, hb⟩ | ⟨-, hb⟩⟩
  · rw [hb] at h
    cases h
    exact .inl ⟨henough, rfl⟩
  · rw [hb] at h
    cases h
  · rw [hb] at h
    cases h
  · rw [hb] at h
    cases h
    exact .inr ⟨g, hg, hret, rfl⟩
  · rw [hb] at h
    cases h

/-- How a loop stands that started with a decoder in state `start`, with `input` to come
and room for `total`. -/
structure At (accepts : ρ → Prop) (start : d.State) (input : List α) (total : Nat)
    (given : List α) (f : Feed d src) : Prop where
  fed : d.Fed accepts start given f.out f.state
  input_eq : given ++ f.left = input
  size : f.out.length + f.room = total

variable {accepts : ρ → Prop} {start : d.State} {input given : List α} {total : Nat}

theorem At.refill (h : At accepts start input total given f) (hg : f.refill = .ok g) :
    At accepts start input total given g := by
  obtain ⟨-, hleft, hstate, hroom, hout⟩ := Feed.refill_ok hg
  refine ⟨?_, ?_, ?_⟩
  · rw [hstate, hout]
    exact h.fed
  · rw [hleft]
    exact h.input_eq
  · rw [hroom, hout]
    exact h.size

/-- A call that is accepted moves input behind the decoder. -/
theorem At.call (h : At accepts start input total given g) (hret : accepts g.answer.ret) :
    At accepts start input total (given ++ g.hand.take g.answer.consumed) g.call := by
  refine ⟨.call h.fed hret rfl, ?_, ?_⟩
  · rw [List.append_assoc, ← g.left_call]
    exact h.input_eq
  · rw [g.size_call]
    exact h.size

theorem At.again (hjudge : ∀ r b, p.judge r = .ok b → accepts r)
    (h : At accepts start input total given f) (hb : p.body f = .ok (.again f')) :
    ∃ given', At accepts start input total given' f' := by
  obtain ⟨g, hg, hret, rfl⟩ := of_body_again hb
  exact ⟨_, (h.refill hg.2).call (hjudge _ _ hret)⟩

/-- With room left, everything that was given has been decoded. -/
theorem At.call_flushed {valid : List α → Prop} {contents : List α → List β}
    (hs : d.Streams accepts start valid contents) (h : At accepts start input total given g)
    (hret : accepts g.answer.ret) (hroom : 0 < g.call.room) :
    g.call.out = contents (given ++ g.hand.take g.answer.consumed) := by
  apply hs.flushed _ _ _ _ _ h.fed hret
  have hle := g.answer.out_le
  have hpos : 0 < g.room - g.answer.out.length := hroom
  exact Nat.lt_of_sub_pos hpos

/-- A loop around a decoder that makes a value of the input ends with this value, within as
many passes as there is input. -/
theorem At.iterate_parses {γ : Type} {ok done : ρ} {value : d.State → γ}
    {parse : List α → Option γ} {v : γ} {fuel : Nat}
    (hdoc : d.Parses ok done start value parse) (henough : ∀ f, p.enough f = false)
    (hok : p.judge ok = .ok false) (hdone : p.judge done = .ok true)
    (h : At (· = ok) start input total given f) (hpart : parse given = none)
    (hv : parse input = some v) (hfuel : f.left.length < fuel) :
    ∃ g, iterate p.body fuel f = some (.ok g) ∧ value g.state = v := by
  induction fuel generalizing given f with
  | zero => exact absurd hfuel (Nat.not_lt_zero _)
  | succ fuel ih =>
      have hleft : f.left ≠ [] := by
        intro hnil
        have hinput := h.input_eq
        rw [hnil, List.append_nil] at hinput
        rw [hinput, hv] at hpart
        cases hpart
      cases hrefill : f.refill with
      | error e => exact absurd (Feed.refill_error hrefill) hleft
      | ok g =>
          have hg := h.refill hrefill
          have hcalls : p.Calls f g := ⟨henough f, hrefill⟩
          obtain ⟨hne, hgleft, -⟩ := Feed.refill_ok hrefill
          have hwhole : parse (given ++ (g.hand ++ src.rest g.source)) = some v := by
            rw [← hv, ← hg.input_eq]
            rfl
          rcases hdoc.inside given g.out g.state g.hand g.room _ v hg.fed hne hwhole with
            ⟨hret, hvalue⟩ | ⟨hret, hpos, hnone⟩
          · have hb := hcalls.done (show p.judge g.answer.ret = .ok true from hret ▸ hdone)
            exact ⟨g.call, by rw [iterate, hb], hvalue⟩
          · have hb := hcalls.again (show p.judge g.answer.ret = .ok false from hret ▸ hok)
            have hless := congrArg List.length g.left_call
            have hin := g.answer.consumed_le
            have hpos' : 0 < g.answer.consumed := hpos
            rw [List.length_append, List.length_take, hgleft] at hless
            obtain ⟨out, hrun, hout⟩ := ih (hg.call hret) hnone (by omega)
            exact ⟨out, by rw [iterate, hb]; exact hrun, hout⟩

/-- A call inside a valid input with room is accepted and makes progress. -/
theorem At.progress_room {valid : List α → Prop} {contents : List α → List β}
    (hdoc : d.Streams accepts start valid contents) (h : At accepts start input total given g)
    (hne : g.hand ≠ []) (hvalid : valid input) (hpos : 0 < g.room) :
    accepts g.answer.ret ∧ (0 < g.answer.consumed ∨ g.answer.out ≠ []) := by
  have hfront : valid (given ++ g.hand) := by
    apply hdoc.valid_front _ (src.rest g.source)
    rw [List.append_assoc]
    exact h.input_eq ▸ hvalid
  have haccepts : accepts g.answer.ret := by
    by_contra hnot
    exact hdoc.rejected given g.out g.state g.hand g.room h.fed hne hpos hnot hfront
  exact ⟨haccepts, hdoc.progress given g.out g.state g.hand g.room h.fed hne hpos haccepts⟩

/-- What has been produced is a front of what the input decodes to. -/
theorem At.produced {valid : List α → Prop} {contents : List α → List β}
    (hdoc : d.Streams accepts start valid contents) (h : At accepts start input total given g) :
    g.out <+: contents input := by
  have hfront := hdoc.contents_front given g.left
  rw [h.input_eq] at hfront
  exact (hdoc.produced given g.out g.state h.fed).trans hfront

/-- The same without room, when there was enough of it: then nothing is left to produce. -/
theorem At.progress {valid : List α → Prop} {contents : List α → List β}
    (hdoc : d.Streams accepts start valid contents)
    (hrest : d.TakesRest accepts start valid contents) (h : At accepts start input total given g)
    (hne : g.hand ≠ []) (hvalid : valid input) (hroom : (contents input).length ≤ total) :
    accepts g.answer.ret ∧ (0 < g.answer.consumed ∨ g.answer.out ≠ []) := by
  cases Nat.eq_zero_or_pos g.room with
  | inr hpos => exact h.progress_room hdoc hne hvalid hpos
  | inl hzero =>
      have hinput : given ++ g.hand ++ src.rest g.source = input := by
        rw [List.append_assoc]
        exact h.input_eq
      have hfront : valid (given ++ g.hand) := by
        apply hdoc.valid_front _ (src.rest g.source)
        rw [hinput]
        exact hvalid
      have hout : g.out = contents (given ++ g.hand) := by
        have hmade := hdoc.produced given g.out g.state h.fed
        have hall := hdoc.contents_front (given ++ g.hand) (src.rest g.source)
        have hsize := h.size
        rw [hinput] at hall
        apply (hmade.trans (hdoc.contents_front given g.hand)).eq_of_length_le
        have hle := hall.length_le
        omega
      have hcall := hrest given g.out g.state g.hand h.fed hne hfront hout
      rw [Feed.answer, hzero]
      exact ⟨hcall.1, .inl hcall.2⟩

/-- A loop around a decoder of a stream, that ends where there is no input left, ends with what
the input decodes to, if there is room for it and every call makes progress. -/
theorem At.iterate_streams {valid : List α → Prop} {contents : List α → List β} {fuel : Nat}
    {P : Feed d src → Prop} (hdoc : d.Streams accepts start valid contents)
    (hprogress : ∀ given (g : Feed d src), At accepts start input total given g → g.hand ≠ [] →
      accepts g.answer.ret ∧ (0 < g.answer.consumed ∨ g.answer.out ≠ []))
    (hP : ∀ f g, P f → p.Calls f g → P g.call)
    (henough : ∀ f, P f → (p.enough f = true ↔ f.left = [])) (hf : P f)
    (hjudge : ∀ r, accepts r → p.judge r = .ok false) (hroom : (contents input).length ≤ total)
    (h : At accepts start input total given f)
    (hflushed : 0 < f.room → f.out = contents given) (hfuel : f.left.length + f.room < fuel) :
    ∃ g, iterate p.body fuel f = some (.ok g) ∧ g.out = contents input := by
  induction fuel generalizing given f with
  | zero => exact absurd hfuel (Nat.not_lt_zero _)
  | succ fuel ih =>
      cases hend : p.enough f with
      | true =>
          refine ⟨f, by rw [iterate, body_enough hend], ?_⟩
          have hgiven := h.input_eq
          rw [(henough f hf).mp hend, List.append_nil] at hgiven
          rw [hgiven] at hflushed
          have hmade := hdoc.produced given f.out f.state h.fed
          have hsize := h.size
          rw [hgiven] at hmade
          obtain hzero | hpos := Nat.eq_zero_or_pos f.room
          · apply hmade.eq_of_length_le
            omega
          · exact hflushed hpos
      | false =>
          have hleft : f.left ≠ [] := by
            intro hnil
            rw [(henough f hf).mpr hnil] at hend
            cases hend
          cases hrefill : f.refill with
          | error e => exact absurd (Feed.refill_error hrefill) hleft
          | ok g =>
              have hg := h.refill hrefill
              obtain ⟨hne, hgleft, -, hgroom, -⟩ := Feed.refill_ok hrefill
              obtain ⟨haccepts, hmore⟩ := hprogress given g hg hne
              have hcalls : p.Calls f g := ⟨hend, hrefill⟩
              have hless := g.todo_call hmore
              rw [hgleft, hgroom] at hless
              obtain ⟨out, hrun, hout⟩ := ih (hP f g hf hcalls) (hg.call haccepts)
                (hg.call_flushed hdoc haccepts) (by omega)
              refine ⟨out, ?_, hout⟩
              rw [iterate, hcalls.again (hjudge _ haccepts)]
              exact hrun

/-- A loop around a decoder that finds the end of its input itself ends with what the input
decodes to, if the room is enough for the decoder to get there. -/
theorem At.iterate_delimits {ok done : ρ} {contents : List α → Option (List β)} {c : List β}
    {fuel : Nat} (hdoc : d.Delimits ok done start contents)
    (hinside : ∀ given out s input availOut behind, d.Fed (· = ok) start given out s →
      input ≠ [] → contents (given ++ (input ++ behind)) = some c →
        out.length + availOut = total → (d.call s input availOut).ret = done ∨
          (d.call s input availOut).ret = ok ∧
            (0 < (d.call s input availOut).consumed ∨ (d.call s input availOut).out ≠ []) ∧
              contents (given ++ input.take (d.call s input availOut).consumed) = none)
    (henough : ∀ f, p.enough f = false) (hok : p.judge ok = .ok false)
    (hdone : p.judge done = .ok true) (hc : contents input = some c)
    (h : At (· = ok) start input total given f) (hpart : contents given = none)
    (hfuel : f.left.length + f.room < fuel) :
    ∃ g, iterate p.body fuel f = some (.ok g) ∧ g.out = c := by
  induction fuel generalizing given f with
  | zero => exact absurd hfuel (Nat.not_lt_zero _)
  | succ fuel ih =>
      have hleft : f.left ≠ [] := by
        intro hnil
        have hinput := h.input_eq
        rw [hnil, List.append_nil] at hinput
        rw [hinput, hc] at hpart
        cases hpart
      cases hrefill : f.refill with
      | error e => exact absurd (Feed.refill_error hrefill) hleft
      | ok g =>
          have hg := h.refill hrefill
          have hcalls : p.Calls f g := ⟨henough f, hrefill⟩
          obtain ⟨hne, hgleft, -, hgroom, -⟩ := Feed.refill_ok hrefill
          have hwhole : contents (given ++ (g.hand ++ src.rest g.source)) = some c := by
            rw [← hc, ← hg.input_eq]
            rfl
          rcases hinside given g.out g.state g.hand g.room _ hg.fed hne hwhole hg.size with
            hret | ⟨hret, hmore, hnone⟩
          · have hended := hdoc.ended given g.out g.state g.hand g.room hg.fed hret
            have hfront := hdoc.contents_front _ (g.hand.drop g.answer.consumed ++
              src.rest g.source) _ hended
            have hinput : given ++ g.hand.take g.answer.consumed ++
                (g.hand.drop g.answer.consumed ++ src.rest g.source) = input := by
              rw [List.append_assoc, ← List.append_assoc (g.hand.take _), List.take_append_drop]
              exact hg.input_eq
            have hout : contents input = some g.call.out := by
              rw [← hinput]
              exact hfront
            rw [hc] at hout
            refine ⟨g.call, ?_, (Option.some.inj hout).symm⟩
            rw [iterate, hcalls.done (show p.judge g.answer.ret = .ok true from hret ▸ hdone)]
          · have hless := g.todo_call hmore
            rw [hgleft, hgroom] at hless
            obtain ⟨out, hrun, hout⟩ := ih (hg.call hret) hnone (by omega)
            refine ⟨out, ?_, hout⟩
            rw [iterate, hcalls.again (show p.judge g.answer.ret = .ok false from hret ▸ hok)]
            exact hrun

theorem At.reaches (hjudge : ∀ r b, p.judge r = .ok b → accepts r)
    (h : At accepts start input total given f) (hr : Reaches p.body f f') :
    ∃ given', At accepts start input total given' f' := by
  refine Reaches.invariant (P := fun f => ∃ given, At accepts start input total given f) hr
    ⟨given, h⟩ ?_
  rintro t t' ⟨given, ht⟩ hb
  exact ht.again hjudge hb

end Pump

end Verify
