import Lzopfs.BlockInput
import Lzopfs.Bzip2File
import Mathlib.Data.Prod.Lex

/-!
# The decompression loop of bzip2

`Bzip2File::decompress` calls the library until it reports the end of the stream, and lets
the output buffer grow by chunks. Its test for no progress compares the room that is left
with the whole buffer, so it only sees a decoder that has produced nothing at all. A decoder
that runs out of input after it has produced output is asked again and again.
-/

namespace Lzopfs

open Verify

/-- What `BZ2_bzDecompress` returns. -/
inductive BzRet where
  | ok
  | streamEnd
  | error (code : Int)
  deriving DecidableEq

/-- The bzip2 library as a streaming decoder. -/
structure BzStream where
  decoder : Decoder UInt8 UInt8 BzRet
  /-- `BZ2_bzDecompressInit`. -/
  init : Option decoder.State
  /-- `BZ2_bzDecompressEnd`. -/
  finish : decoder.State → Bool

namespace BzStream

/-- What the stream has been given and has produced, in calls that returned `BZ_OK`. -/
def Fed (bz : BzStream) (start : bz.decoder.State) (given out : Buffer)
    (s : bz.decoder.State) : Prop := bz.decoder.Fed (· = .ok) start given out s

/-- What the library promises of a stream while it returns `BZ_OK`. `pending` is the number
of bytes that the input so far decodes to and that have not been produced. -/
structure Documented (bz : BzStream) (pending : bz.decoder.State → Nat) : Prop where
  /-- Without input and with nothing pending a call does nothing. -/
  idle : ∀ start given out s availOut, bz.init = some start → bz.Fed start given out s →
    pending s = 0 → 0 < availOut → (bz.decoder.call s [] availOut).ret = .ok ∧
      (bz.decoder.call s [] availOut).out = [] ∧ pending (bz.decoder.call s [] availOut).state = 0
  /-- Any other call consumes input or produces output. -/
  progress : ∀ start given out s input availOut, bz.init = some start →
    bz.Fed start given out s → 0 < availOut → input ≠ [] ∨ pending s ≠ 0 →
      (bz.decoder.call s input availOut).ret = .ok →
        0 < (bz.decoder.call s input availOut).consumed ∨
          (bz.decoder.call s input availOut).out ≠ []
  /-- What is produced without more input was pending. -/
  drains : ∀ start given out s input availOut, bz.init = some start →
    bz.Fed start given out s → (bz.decoder.call s input availOut).ret = .ok →
      (bz.decoder.call s input availOut).consumed = 0 →
        pending (bz.decoder.call s input availOut).state +
          (bz.decoder.call s input availOut).out.length ≤ pending s

/-- How an input is cut into calls makes no difference to the library. -/
structure Steady (bz : BzStream) (pending : bz.decoder.State → Nat) : Prop where
  /-- A call that leaves room has produced everything that was pending. -/
  flushed : ∀ start given out s input availOut, bz.init = some start →
    bz.Fed start given out s → (bz.decoder.call s input availOut).ret = .ok →
      (bz.decoder.call s input availOut).out.length < availOut →
        pending (bz.decoder.call s input availOut).state = 0
  /-- An input that was once taken to its end is taken by every call. -/
  takes : ∀ start given out s input behind whole e availOut, bz.init = some start →
    bz.Fed start given out s → bz.Fed start (given ++ (input ++ behind)) whole e →
      pending e = 0 → 0 < availOut → (bz.decoder.call s input availOut).ret = .ok
  /-- And it decodes to the same bytes. -/
  same : ∀ start given out s out' s', bz.init = some start → bz.Fed start given out s →
    pending s = 0 → bz.Fed start given out' s' → pending s' = 0 → out = out'

/-- The input is the front of a stream that goes on behind it: the library takes all of it in
calls that return `BZ_OK`, and has produced something of it and has nothing left to produce. -/
def CutShort (bz : BzStream) (pending : bz.decoder.State → Nat) (input : Buffer) : Prop :=
  ∃ start out s, bz.init = some start ∧ bz.Fed start input out s ∧ pending s = 0 ∧ out ≠ []

end BzStream

namespace Bzip2File

/-- The locals of `decompress`: the stream with its input, and the output buffer with the
index and the length of the part that is to be written next. -/
structure Decompressing (bz : BzStream) where
  s : bz.decoder.State
  input : Buffer
  out : Buffer
  nextOut : Nat
  availOut : Nat
  /-- What the library has produced so far. -/
  produced : Buffer

variable {bz : BzStream}

namespace Decompressing

/-- The lengths of the buffers are narrowed to an `unsigned int`. -/
def new (s : bz.decoder.State) (input out : Buffer) : Decompressing bz where
  s := s
  input := input.take (input.length % 2 ^ 32)
  out := out
  nextOut := 0
  availOut := out.length % 2 ^ 32
  produced := []

def grow (t : Decompressing bz) : Decompressing bz :=
  if t.availOut = 0 then
    { t with
      out := Buffer.resize t.out (t.out.length + ChunkSize)
      nextOut := t.out.length
      availOut := ChunkSize }
  else t

def answer (t : Decompressing bz) :
    Answer bz.decoder.State UInt8 BzRet t.input.length t.availOut :=
  bz.decoder.call t.s t.input t.availOut

/-- One call of `BZ2_bzDecompress`. -/
def call (t : Decompressing bz) : Decompressing bz where
  s := t.answer.state
  input := t.input.drop t.answer.consumed
  out := Buffer.blit t.out t.nextOut t.answer.out
  nextOut := t.nextOut + t.answer.out.length
  availOut := t.availOut - t.answer.out.length
  produced := t.produced ++ t.answer.out

/-- The buffer without the room that is left. -/
def result (t : Decompressing bz) : Decoded where
  ubuf := Buffer.resize t.out (t.out.length - t.availOut)
  out := t.produced

end Decompressing

/-- A pass of the loop. -/
def decompressPass (t : Decompressing bz) : Except Exn (Pass (Decompressing bz) Decoded) :=
  let t := t.grow
  match t.answer.ret with
  | .streamEnd =>
      if bz.finish t.call.s then .ok (.done t.call.result) else .error (.runtime "bzip2 end")
  | .error _ => .error (.runtime "bzip2 decompress")
  | .ok =>
      if t.call.input = [] ∧ t.call.availOut = t.call.out.length then
        .error (.runtime "bzip2 no progress")
      else .ok (.again t.call)

/-- `Bzip2File::decompress`, within so many passes, for an output buffer that holds `out`. -/
def decompress (bz : BzStream) (fuel : Nat) (input out : Buffer) : Option (Except Exn Decoded) :=
  match bz.init with
  | none => some (.error (.runtime "bzip2 init"))
  | some s => iterate decompressPass fuel (Decompressing.new s input out)

variable {input out given whole : Buffer} {t t' : Decompressing bz} {start : bz.decoder.State}
  {pending : bz.decoder.State → Nat} {gap : Nat}

/-- How the output buffer stands: `gap` bytes of it were lost when its length was narrowed. -/
structure Standing (gap : Nat) (t : Decompressing bz) : Prop where
  length_eq : t.out.length = t.availOut + t.produced.length + gap
  nextOut_le : t.nextOut + t.availOut ≤ t.out.length
  written : gap = 0 → t.out.take t.nextOut = t.produced

/-- How many bytes of a buffer are lost. -/
def lost (out : Buffer) : Nat := out.length - out.length % 2 ^ 32

theorem standing_new (s : bz.decoder.State) (input out : Buffer) :
    Standing (lost out) (Decompressing.new s input out) where
  length_eq := by
    show out.length = out.length % 2 ^ 32 + 0 + (out.length - out.length % 2 ^ 32)
    omega
  nextOut_le := by
    show 0 + out.length % 2 ^ 32 ≤ out.length
    omega
  written _ := List.take_zero

theorem lost_eq_zero (out : Buffer) : lost out = 0 ↔ out.length < 2 ^ 32 := by
  rw [lost]
  omega

section Grow

variable (t : Decompressing bz)

@[simp] theorem grow_s : t.grow.s = t.s := by
  rw [Decompressing.grow]
  split <;> rfl

@[simp] theorem grow_input : t.grow.input = t.input := by
  rw [Decompressing.grow]
  split <;> rfl

@[simp] theorem grow_produced : t.grow.produced = t.produced := by
  rw [Decompressing.grow]
  split <;> rfl

theorem availOut_grow_pos : 0 < t.grow.availOut := by
  rw [Decompressing.grow]
  split
  · exact chunkSize_pos
  · omega

end Grow

theorem Standing.nextOut_eq (h : Standing gap t) (hgap : gap = 0) :
    t.nextOut = t.produced.length := by
  have hlen := congrArg List.length (h.written hgap)
  have hle := h.nextOut_le
  rw [List.length_take] at hlen
  omega

theorem Standing.grow (h : Standing gap t) : Standing gap t.grow := by
  rw [Decompressing.grow]
  by_cases hfull : t.availOut = 0
  · rw [if_pos hfull]
    have hlen := h.length_eq
    refine ⟨?_, ?_, ?_⟩
    · dsimp only
      rw [Buffer.length_resize]
      omega
    · dsimp only
      rw [Buffer.length_resize]
    · intro hgap
      have hnext := h.nextOut_eq hgap
      have hall : t.nextOut = t.out.length := by omega
      have hwritten := h.written hgap
      rw [hall, List.take_length] at hwritten
      dsimp only
      rw [Buffer.resize, List.take_of_length_le (Nat.le_add_right _ _), List.take_left, hwritten]
  · rw [if_neg hfull]
    exact h

theorem Standing.call (h : Standing gap t) : Standing gap t.call := by
  have hout := t.answer.out_le
  have hlen := h.length_eq
  have hnext := h.nextOut_le
  have hblit : (Buffer.blit t.out t.nextOut t.answer.out).length = t.out.length :=
    Buffer.length_blit (by omega)
  refine ⟨?_, ?_, ?_⟩
  · show (Buffer.blit t.out t.nextOut t.answer.out).length =
      t.availOut - t.answer.out.length + (t.produced ++ t.answer.out).length + gap
    rw [hblit, List.length_append]
    omega
  · show t.nextOut + t.answer.out.length + (t.availOut - t.answer.out.length) ≤
      (Buffer.blit t.out t.nextOut t.answer.out).length
    rw [hblit]
    omega
  · intro hgap
    show (Buffer.blit t.out t.nextOut t.answer.out).take (t.nextOut + t.answer.out.length) = _
    have hfront : (t.out.take t.nextOut ++ t.answer.out).length =
        t.nextOut + t.answer.out.length := by
      rw [List.length_append, List.length_take]
      omega
    rw [Buffer.blit, ← hfront, List.take_left, h.written hgap]
    rfl

/-- The result is what was produced, if nothing was lost. -/
theorem Standing.result_iff (h : Standing gap t) : t.result.ubuf = t.result.out ↔ gap = 0 := by
  have hlen := h.length_eq
  constructor
  · intro heq
    have hsize := congrArg List.length heq
    rw [Decompressing.result, Buffer.length_resize] at hsize
    dsimp only at hsize
    omega
  · intro hgap
    have hnext := h.nextOut_eq hgap
    show Buffer.resize t.out (t.out.length - t.availOut) = t.produced
    have hfront : t.out.length - t.availOut = t.nextOut := by omega
    rw [hfront, Buffer.resize, h.written hgap, Nat.sub_eq_zero_of_le (by omega),
      List.replicate_zero, List.append_nil]

/-- A pass goes on when the call returned `BZ_OK`, unless it looks as if there was no
progress. -/
theorem pass_again_iff : decompressPass t = .ok (.again t') ↔ t.grow.answer.ret = .ok ∧
    ¬ (t.grow.call.input = [] ∧ t.grow.call.availOut = t.grow.call.out.length) ∧
      t' = t.grow.call := by
  rw [decompressPass]
  cases hret : t.grow.answer.ret with
  | ok =>
      simp only [true_and]
      split
      · exact iff_of_false nofun fun h => h.1 ‹_›
      · refine ⟨fun h => ⟨‹_›, ?_⟩, fun h => by rw [h.2]⟩
        cases h
        rfl
  | streamEnd =>
      dsimp only
      refine iff_of_false ?_ fun h => by cases h.1
      split <;> nofun
  | error code =>
      dsimp only
      exact iff_of_false nofun fun h => by cases h.1

theorem pass_done_iff {d : Decoded} : decompressPass t = .ok (.done d) ↔
    t.grow.answer.ret = .streamEnd ∧ bz.finish t.grow.call.s = true ∧ d = t.grow.call.result := by
  rw [decompressPass]
  cases hret : t.grow.answer.ret with
  | ok =>
      dsimp only
      refine iff_of_false ?_ fun h => by cases h.1
      split <;> nofun
  | streamEnd =>
      simp only [true_and]
      split
      · refine ⟨fun h => ⟨‹_›, ?_⟩, fun h => by rw [h.2]⟩
        cases h
        rfl
      · exact iff_of_false nofun fun h => absurd h.1 ‹_›
  | error code =>
      dsimp only
      exact iff_of_false nofun fun h => by cases h.1

/-- What holds at the head of every pass. -/
def Running (start : bz.decoder.State) (whole : Buffer) (gap : Nat) (t : Decompressing bz) :
    Prop :=
  Standing gap t ∧ ∃ given, bz.Fed start given t.produced t.s ∧ given ++ t.input = whole

theorem Running.again (h : Running start whole gap t) (hret : t.grow.answer.ret = .ok) :
    Running start whole gap t.grow.call := by
  obtain ⟨hstanding, given, hfed, hwhole⟩ := h
  rw [← grow_s t, ← grow_produced t] at hfed
  refine ⟨hstanding.grow.call, _, .call hfed hret rfl, ?_⟩
  show given ++ t.grow.input.take t.grow.answer.consumed ++
    t.grow.input.drop t.grow.answer.consumed = whole
  rw [List.append_assoc, List.take_append_drop, grow_input, hwhole]

/-- The part of the input that the library is given. -/
def narrowed (input : Buffer) : Buffer := input.take (input.length % 2 ^ 32)

theorem running_reaches (h : Reaches decompressPass (Decompressing.new start input out) t) :
    Running start (narrowed input) (lost out) t := by
  refine Reaches.invariant (P := Running start (narrowed input) (lost out)) h
    ⟨standing_new _ _ _, [], .start, rfl⟩ ?_
  intro t t' ht hpass
  obtain ⟨hret, -, rfl⟩ := pass_again_iff.mp hpass
  exact ht.again hret

/-- There is no input left and nothing pending, but the test for no progress does not see
it. -/
def RunsDry (pending : bz.decoder.State → Nat) (gap : Nat) (t : Decompressing bz) : Prop :=
  t.input = [] ∧ pending t.s = 0 ∧ (t.produced ≠ [] ∨ gap ≠ 0)

/-- A decoder that has run dry is asked for ever. -/
theorem not_ends_of_dry (hdoc : bz.Documented pending) (hinit : bz.init = some start)
    (hrun : Running start whole gap t) (hdry : RunsDry pending gap t) :
    ¬ Ends decompressPass t := by
  apply not_ends (P := fun t : Decompressing bz =>
    Running start whole gap t ∧ RunsDry pending gap t) ⟨hrun, hdry⟩
  rintro t ⟨ht, hinput, hpending, hsome⟩
  obtain ⟨given, hfed, -⟩ := ht.2
  have hnone : t.grow.input = [] := (grow_input t).trans hinput
  have hidle := hdoc.idle start given t.produced t.s t.grow.availOut hinit hfed hpending
    (availOut_grow_pos t)
  have hanswer : t.grow.answer.ret = .ok ∧ t.grow.answer.out = [] ∧
      pending t.grow.answer.state = 0 := by
    rw [Decompressing.answer, grow_s, hnone]
    exact hidle
  obtain ⟨hret, hout, hnext⟩ := hanswer
  have hafter := ht.again hret
  have hproduced : t.grow.call.produced = t.produced := by
    show t.grow.produced ++ t.grow.answer.out = _
    rw [hout, List.append_nil, grow_produced]
  refine ⟨t.grow.call, pass_again_iff.mpr ⟨hret, ?_, rfl⟩, hafter, ?_, hnext, ?_⟩
  · rintro ⟨-, heq⟩
    have hlen := hafter.1.length_eq
    rw [hproduced] at hlen
    obtain h | h := hsome
    · have := List.length_pos_iff.mpr h
      omega
    · omega
  · have hzero : t.grow.input.length = 0 := by rw [hnone, List.length_nil]
    show t.grow.input.drop _ = []
    exact List.drop_eq_nil_of_le (by omega)
  · rw [hproduced]
    exact hsome

/-- As long as the decoder has not run dry, a pass that goes on leaves less input, or less
that is pending. -/
theorem pass_decreases (hdoc : bz.Documented pending) (hinit : bz.init = some start)
    (hrun : Running start whole gap t) (hdry : ¬ RunsDry pending gap t)
    (hpass : decompressPass t = .ok (.again t')) :
    toLex (t'.input.length, pending t'.s) < toLex (t.input.length, pending t.s) := by
  obtain ⟨hret, hcheck, rfl⟩ := pass_again_iff.mp hpass
  obtain ⟨given, hfed, -⟩ := hrun.2
  rw [← grow_s t, ← grow_produced t] at hfed
  have hconsumed := t.grow.answer.consumed_le
  have hsame : t.grow.input.length = t.input.length := congrArg List.length (grow_input t)
  have hlen : t.grow.call.input.length = t.input.length - t.grow.answer.consumed := by
    show (t.grow.input.drop _).length = _
    exact List.length_drop.trans (congrArg (· - t.grow.answer.consumed) hsame)
  have hbusy : t.grow.input ≠ [] ∨ pending t.grow.s ≠ 0 := by
    by_contra hnot
    obtain ⟨hnone, hpending⟩ := not_or.mp hnot
    rw [not_not] at hnone hpending
    have hidle := hdoc.idle start given _ _ t.grow.availOut hinit hfed hpending
      (availOut_grow_pos t)
    have hout : t.grow.answer.out = [] := by
      rw [Decompressing.answer, hnone]
      exact hidle.2.1
    have hproduced : t.grow.call.produced = t.produced := by
      show t.grow.produced ++ t.grow.answer.out = _
      rw [hout, List.append_nil, grow_produced]
    rw [grow_input] at hnone
    rw [grow_s] at hpending
    have hfresh : t.produced = [] ∧ gap = 0 := by
      by_contra hne
      apply hdry
      refine ⟨hnone, hpending, ?_⟩
      rwa [not_and_or] at hne
    have hafter := (hrun.again hret).1.length_eq
    rw [hproduced, hfresh.1, hfresh.2] at hafter
    refine hcheck ⟨?_, by simpa using hafter.symm⟩
    apply List.eq_nil_of_length_eq_zero
    rw [hlen, hnone]
    exact Nat.zero_sub _
  have hprogress := hdoc.progress start given _ _ t.grow.input t.grow.availOut hinit hfed
    (availOut_grow_pos t) hbusy hret
  rw [Prod.Lex.toLex_lt_toLex]
  obtain hzero | hpos := Nat.eq_zero_or_pos t.grow.answer.consumed
  · have hout := hprogress.resolve_left (Nat.not_lt.mpr (Nat.le_zero.mpr hzero))
    have hdrains := hdoc.drains start given _ _ t.grow.input t.grow.availOut hinit hfed hret hzero
    have hpos := List.length_pos_iff.mpr hout
    refine .inr ⟨by rw [hlen, hzero, Nat.sub_zero], ?_⟩
    show pending (bz.decoder.call t.grow.s t.grow.input t.grow.availOut).state < _
    rw [grow_s] at hdrains hpos ⊢
    omega
  · exact .inl (by rw [hlen]; omega)

/-- The loop comes to a state in which the decoder has run dry, or it returns a buffer of 4
GiB and more. -/
def GoesWrong (pending : bz.decoder.State → Nat) (input out : Buffer) : Prop :=
  ∃ start t, bz.init = some start ∧ Reaches decompressPass (Decompressing.new start input out) t ∧
    (RunsDry pending (lost out) t ∨
      2 ^ 32 ≤ out.length ∧ ∃ d, decompressPass t = .ok (.done d))

/-- The loop ends as it should unless it goes wrong. -/
theorem decompress_exact_iff (hdoc : bz.Documented pending) :
    (∃ fuel r, decompress bz fuel input out = some r ∧ ∀ d, r = .ok d → d.ubuf = d.out) ↔
      ¬ GoesWrong pending input out := by
  cases hinit : bz.init with
  | none =>
      refine iff_of_true ⟨0, .error (.runtime "bzip2 init"), by rw [decompress, hinit], ?_⟩ ?_
      · intro d hd
        cases hd
      · rintro ⟨start, t, hstart, -⟩
        rw [hinit] at hstart
        cases hstart
  | some start =>
      have hdecompress : ∀ fuel, decompress bz fuel input out =
          iterate decompressPass fuel (Decompressing.new start input out) := by
        intro fuel
        rw [decompress, hinit]
      simp only [hdecompress]
      constructor
      · rintro ⟨fuel, r, hrun, hr⟩ ⟨start', t, hstart, hreach, hwrong⟩
        rw [hinit] at hstart
        cases hstart
        have hrunning := running_reaches hreach
        obtain hdry | ⟨hlarge, d, hdone⟩ := hwrong
        · exact not_ends_of_dry hdoc hinit hrunning hdry (hreach.ends_iff.mp ⟨fuel, r, hrun⟩)
        · obtain ⟨fuel', hrun'⟩ := hreach.iterate_ok hdone
          obtain ⟨-, -, rfl⟩ := pass_done_iff.mp hdone
          have hfull := hr _ (iterate_unique hrun hrun')
          have hzero := (hrunning.1.grow.call.result_iff).mp hfull
          rw [lost_eq_zero] at hzero
          omega
      · intro hnot
        have hends : Ends decompressPass (Decompressing.new start input out) := by
          apply ends_of_variant (P := Reaches decompressPass (Decompressing.new start input out))
            (fun t => toLex (t.input.length, pending t.s)) .refl
          intro t t' ht hpass
          refine ⟨.tail ht hpass, pass_decreases hdoc hinit (running_reaches ht) ?_ hpass⟩
          intro hdry
          exact hnot ⟨start, t, hinit, ht, .inl hdry⟩
        obtain ⟨fuel, r, hrun⟩ := hends
        refine ⟨fuel, r, hrun, ?_⟩
        rintro d rfl
        obtain ⟨t, hreach, hdone⟩ := iterate_ok hrun
        have hsmall : out.length < 2 ^ 32 := by
          by_contra hlarge
          exact hnot ⟨start, t, hinit, hreach, .inr ⟨Nat.le_of_not_lt hlarge, d, hdone⟩⟩
        obtain ⟨-, -, rfl⟩ := pass_done_iff.mp hdone
        exact ((running_reaches hreach).1.grow.call.result_iff).mpr ((lost_eq_zero out).mpr hsmall)

/-- On a front of a stream no pass ends the loop. -/
theorem not_ends_of_cutShort (hsteady : bz.Steady pending) (hcut : bz.CutShort pending whole)
    (hinit : bz.init = some start) (hrun : Running start whole 0 t) :
    ¬ Ends decompressPass t := by
  apply not_ends (P := Running start whole 0) hrun
  intro t ht
  obtain ⟨start', total, e, hinit', hall, hnone, hsome⟩ := hcut
  rw [hinit] at hinit'
  cases hinit'
  obtain ⟨given, hfed, hwhole⟩ := ht.2
  rw [← grow_s t, ← grow_produced t] at hfed
  have hret : t.grow.answer.ret = .ok := by
    apply hsteady.takes start given _ _ _ [] total e _ hinit hfed _ hnone (availOut_grow_pos t)
    rw [List.append_nil, grow_input, hwhole]
    exact hall
  have hafter := ht.again hret
  refine ⟨t.grow.call, pass_again_iff.mpr ⟨hret, ?_, rfl⟩, hafter⟩
  -- What looks like no progress would be an input that decodes to nothing.
  rintro ⟨hinput, hroom⟩
  have hlen := hafter.1.length_eq
  have hproduced : t.grow.call.produced = [] := List.eq_nil_of_length_eq_zero (by omega)
  have hout : t.grow.answer.out = [] := (List.append_eq_nil_iff.mp hproduced).2
  have hpending := hsteady.flushed start given _ _ _ _ hinit hfed hret (by
    rw [Decompressing.answer] at hout
    rw [hout]
    exact availOut_grow_pos t)
  obtain ⟨given', hfed', hwhole'⟩ := hafter.2
  rw [hinput, List.append_nil] at hwhole'
  rw [hwhole'] at hfed'
  exact hsome ((hsteady.same start whole _ _ _ _ hinit hall hnone hfed' hpending).trans hproduced)

/-- With an output buffer below 4 GiB, the loop goes wrong on the fronts of streams. -/
theorem goesWrong_iff_cutShort (hdoc : bz.Documented pending) (hsteady : bz.Steady pending)
    (hsmall : out.length < 2 ^ 32) :
    GoesWrong pending input out ↔ bz.CutShort pending (narrowed input) := by
  have hzero := (lost_eq_zero out).mpr hsmall
  constructor
  · rintro ⟨start, t, hinit, hreach, ⟨hinput, hpending, hsome⟩ | ⟨hlarge, -⟩⟩
    · obtain ⟨given, hfed, hwhole⟩ := (running_reaches hreach).2
      rw [hinput, List.append_nil] at hwhole
      rw [hwhole] at hfed
      exact ⟨start, _, _, hinit, hfed, hpending, hsome.resolve_right (not_not.mpr hzero)⟩
    · exact absurd hsmall (Nat.not_lt.mpr hlarge)
  · intro hcut
    obtain ⟨start, -, -, hinit, -⟩ := id hcut
    by_contra hnot
    obtain ⟨fuel, r, hrun, -⟩ := (decompress_exact_iff hdoc).mpr hnot
    rw [decompress, hinit] at hrun
    have hrunning := running_reaches (@Relation.ReflTransGen.refl _ _
      (Decompressing.new start input out))
    rw [hzero] at hrunning
    exact not_ends_of_cutShort hsteady hcut hinit hrunning ⟨fuel, r, hrun⟩

/-- When the loop ends, with an exception or with exactly what was produced. For a library to
which the cuts of its input make no difference, it is the fronts of streams that it does not
end on. -/
theorem decompress_ends_iff (hdoc : bz.Documented pending) :
    ((∃ fuel r, decompress bz fuel input out = some r ∧ ∀ d, r = .ok d → d.ubuf = d.out) ↔
      ¬ GoesWrong pending input out) ∧
    (bz.Steady pending → out.length < 2 ^ 32 →
      (GoesWrong pending input out ↔ bz.CutShort pending (narrowed input))) :=
  ⟨decompress_exact_iff hdoc, fun hsteady hsmall => goesWrong_iff_cutShort hdoc hsteady hsmall⟩

/-- The bzip2 file of the letter a, without its last byte. -/
def letterCut : Buffer :=
  [0x42, 0x5a, 0x68, 0x39, 0x31, 0x41, 0x59, 0x26, 0x53, 0x59, 0x19, 0x93, 0x9b, 0x6b, 0x00,
    0x00, 0x00, 0x01, 0x00, 0x20, 0x00, 0x20, 0x00, 0x21, 0x18, 0x46, 0x82, 0xee, 0x48, 0xa7,
    0x0a, 0x12, 0x03, 0x32, 0x73, 0x6d]

/-- A decoder that has the letter as soon as it has been given 36 bytes; it counts these, and
knows whether the letter has been produced. -/
def letterStream : BzStream where
  decoder :=
    { State := Nat × Bool
      call := fun s input availOut =>
        if h : 36 ≤ s.1 + input.length ∧ s.2 = false ∧ 0 < availOut then
          { state := (s.1 + input.length, true), consumed := input.length, out := [0x61],
            ret := .ok, consumed_le := Nat.le_refl _, out_le := h.2.2 }
        else
          { state := (s.1 + input.length, s.2), consumed := input.length, out := [], ret := .ok,
            consumed_le := Nat.le_refl _, out_le := Nat.zero_le _ } }
  init := some (0, false)
  finish _ := true

def letterPending (s : Nat × Bool) : Nat := if 36 ≤ s.1 ∧ s.2 = false then 1 else 0

theorem letterStream_documented : letterStream.Documented letterPending where
  idle start given out s availOut _ _ hpending _ := by
    obtain ⟨n, delivered⟩ := s
    have hnot : ¬ (36 ≤ n + ([] : Buffer).length ∧ delivered = false ∧ 0 < availOut) := by
      rintro ⟨hn, hd, -⟩
      rw [letterPending, if_pos ⟨hn, hd⟩] at hpending
      exact absurd hpending Nat.one_ne_zero
    simp only [letterStream]
    rw [dif_neg hnot]
    exact ⟨rfl, rfl, hpending⟩
  progress start given out s input availOut _ _ hroom hbusy _ := by
    obtain ⟨n, delivered⟩ := s
    simp only [letterStream]
    by_cases hgive : 36 ≤ n + input.length ∧ delivered = false ∧ 0 < availOut
    · rw [dif_pos hgive]
      exact .inr (List.cons_ne_nil _ _)
    · rw [dif_neg hgive]
      refine .inl (List.length_pos_iff.mpr ?_)
      rintro rfl
      have hpending := hbusy.resolve_left (not_not.mpr rfl)
      rw [letterPending, ite_ne_right_iff] at hpending
      exact hgive ⟨hpending.1.1, hpending.1.2, hroom⟩
  drains start given out s input availOut _ _ _ hnone := by
    obtain ⟨n, delivered⟩ := s
    simp only [letterStream] at hnone ⊢
    by_cases hgive : 36 ≤ n + input.length ∧ delivered = false ∧ 0 < availOut
    · rw [dif_pos hgive] at hnone ⊢
      dsimp only at hnone ⊢
      rw [hnone, Nat.add_zero] at hgive ⊢
      rw [letterPending, letterPending, if_neg (fun h => by cases h.2),
        if_pos ⟨hgive.1, hgive.2.1⟩]
      exact Nat.le_refl 1
    · rw [dif_neg hgive] at hnone ⊢
      dsimp only at hnone ⊢
      rw [hnone]
      exact Nat.le_refl _

/-- The letter has been produced or not, and not before it was there. -/
theorem letterStream_fed {given out : Buffer} {s : letterStream.decoder.State}
    (h : letterStream.decoder.Fed (· = .ok) (0, false) given out s) :
    s.1 = given.length ∧ out = (if s.2 then [0x61] else []) ∧ (s.2 = true → 36 ≤ given.length) := by
  induction h with
  | start => exact ⟨rfl, rfl, nofun⟩
  | @call given made out s input availOut _ _ hmade ih =>
      obtain ⟨n, delivered⟩ := s
      obtain ⟨rfl, rfl, hgiven⟩ := ih
      simp only [letterStream] at hmade ⊢
      by_cases hgive : 36 ≤ given.length + input.length ∧ delivered = false ∧ 0 < availOut
      · rw [dif_pos hgive] at hmade ⊢
        have hnone : delivered = false := hgive.2.1
        subst hnone
        rw [hmade, List.take_length, List.length_append]
        exact ⟨rfl, rfl, fun _ => hgive.1⟩
      · rw [dif_neg hgive] at hmade ⊢
        rw [hmade, List.take_length, List.length_append]
        exact ⟨rfl, List.append_nil _, fun h => Nat.le_add_right_of_le (hgiven h)⟩

theorem letterStream_steady : letterStream.Steady letterPending where
  flushed start given out s input availOut _ _ _ hroom := by
    obtain ⟨n, delivered⟩ := s
    simp only [letterStream] at hroom ⊢
    by_cases hgive : 36 ≤ n + input.length ∧ delivered = false ∧ 0 < availOut
    · rw [dif_pos hgive]
      exact if_neg fun h => by cases h.2
    · rw [dif_neg hgive] at hroom ⊢
      exact if_neg fun h => hgive ⟨h.1, h.2, hroom⟩
  takes start given out s input behind whole e availOut _ _ _ _ _ := by
    simp only [letterStream]
    split <;> rfl
  same start given out s out' s' hinit h hs h' hs' := by
    cases hinit
    obtain ⟨hn, rfl, hgiven⟩ := letterStream_fed h
    obtain ⟨hn', rfl, hgiven'⟩ := letterStream_fed h'
    have hdelivered : ∀ s : Nat × Bool, s.1 = given.length → letterPending s = 0 →
        (s.2 = true → 36 ≤ given.length) → (s.2 = true ↔ 36 ≤ given.length) := by
      intro s hlen hnone himp
      refine ⟨himp, fun hle => ?_⟩
      by_contra hnot
      rw [letterPending, if_pos ⟨hlen ▸ hle, Bool.eq_false_of_not_eq_true hnot⟩] at hnone
      exact absurd hnone Nat.one_ne_zero
    have hboth : s.2 = s'.2 := Bool.eq_iff_iff.mpr
      ((hdelivered s hn hs hgiven).trans (hdelivered s' hn' hs' hgiven').symm)
    rw [hboth]

theorem decompress_ends_iff_letter :
    ((∃ fuel r, decompress letterStream fuel letterCut [] = some r ∧
      ∀ d, r = .ok d → d.ubuf = d.out) ↔ ¬ @GoesWrong letterStream letterPending letterCut []) ∧
    (@GoesWrong letterStream letterPending letterCut [] ↔
      letterStream.CutShort letterPending (narrowed letterCut)) := by
  obtain ⟨hends, hcut⟩ := @decompress_ends_iff letterStream letterCut [] letterPending
    letterStream_documented
  exact ⟨hends, hcut letterStream_steady (by decide)⟩

def letterStart : Decompressing letterStream := .new (0, false) letterCut []

/-- The decompression of the cut file never ends. -/
theorem letterCut_never_ends : ¬ ∃ fuel r, decompress letterStream fuel letterCut [] = some r := by
  have hpass : decompressPass letterStart = .ok (.again letterStart.grow.call) := by
    refine pass_again_iff.mpr ⟨rfl, ?_, rfl⟩
    rintro ⟨-, heq⟩
    have hlen := (@standing_new letterStream (0, false) letterCut []).grow.call.length_eq
    change letterStart.grow.call.out.length = letterStart.grow.call.availOut +
      letterStart.grow.call.produced.length + lost [] at hlen
    have hone : letterStart.grow.call.produced.length = 1 := rfl
    omega
  have hreach : Reaches decompressPass letterStart letterStart.grow.call := .single hpass
  rintro ⟨fuel, r, hrun⟩
  apply not_ends_of_dry letterStream_documented rfl (running_reaches hreach) _
    (hreach.ends_iff.mp ⟨fuel, r, hrun⟩)
  exact ⟨rfl, rfl, .inl (List.cons_ne_nil _ _)⟩

end Bzip2File

end Lzopfs
