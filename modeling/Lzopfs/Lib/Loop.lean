import Mathlib.Logic.Relation
import Mathlib.Order.WellFounded

/-!
# Loops whose body may fail

A source loop `while (true) { ... }` is given by its body: one pass starts from
the loop's state and either fails, goes round again with a new state, or leaves
with a result. `Loop` carries a variant that every further pass decreases, so
`Loop.run` is a total function. A body without a known variant still has
reachable states (`Reaches`) and runs of bounded length (`iterate`).
-/

namespace Verify

/-- What one pass of a loop body decides. -/
inductive Pass (σ ρ : Type) where
  | again (s : σ)
  | done (r : ρ)
  deriving DecidableEq

/-- A loop body together with the variant that justifies its termination. -/
structure Loop (ε σ ρ : Type) where
  body : σ → Except ε (Pass σ ρ)
  variant : σ → Nat
  decreases : ∀ {s s'}, body s = .ok (.again s') → variant s' < variant s

namespace Loop

variable {ε σ ρ : Type}

/-- Run the body until it fails or leaves. -/
def run (l : Loop ε σ ρ) (s : σ) : Except ε ρ :=
  match _hb : l.body s with
  | .error e => .error e
  | .ok (.done r) => .ok r
  | .ok (.again s') => l.run s'
termination_by l.variant s
decreasing_by exact l.decreases _hb

variable {l : Loop ε σ ρ} {s s' : σ} {r : ρ} {e : ε}

theorem run_error (h : l.body s = .error e) : l.run s = .error e := by
  rw [run]
  split <;> simp_all

theorem run_done (h : l.body s = .ok (.done r)) : l.run s = .ok r := by
  rw [run]
  split <;> simp_all

theorem run_again (h : l.body s = .ok (.again s')) : l.run s = l.run s' := by
  rw [run]
  split <;> simp_all

/-- Induction over the passes of a run: a property of states and outcomes that
holds at the last pass and is inherited from the next state holds throughout. -/
theorem run_induction {motive : σ → Except ε ρ → Prop}
    (error : ∀ s e, l.body s = .error e → motive s (.error e))
    (done : ∀ s r, l.body s = .ok (.done r) → motive s (.ok r))
    (again : ∀ s s', l.body s = .ok (.again s') → motive s' (l.run s') → motive s (l.run s'))
    (s : σ) : motive s (l.run s) := by
  induction hn : l.variant s using Nat.strongRecOn generalizing s with
  | ind n ih =>
      cases hb : l.body s with
      | error e => exact run_error hb ▸ error s e hb
      | ok p =>
          cases p with
          | done r => exact run_done hb ▸ done s r hb
          | again s' =>
              have hlt := l.decreases hb
              exact run_again hb ▸ again s s' hb (ih _ (hn ▸ hlt) s' rfl)

end Loop

section Reaches

variable {ε σ ρ : Type} (body : σ → Except ε (Pass σ ρ))

/-- The states a loop passes through from `s`, at the heads of its passes. -/
def Reaches : σ → σ → Prop :=
  Relation.ReflTransGen fun s s' => body s = .ok (.again s')

/-- At most `fuel` passes; `none` when the loop is still running after them. -/
def iterate : Nat → σ → Option (Except ε ρ)
  | 0, _ => none
  | fuel + 1, s =>
      match body s with
      | .error e => some (.error e)
      | .ok (.done r) => some (.ok r)
      | .ok (.again s') => iterate fuel s'

/-- The state after `n` passes, if the loop is still running then. -/
def after : Nat → σ → Option σ
  | 0, s => some s
  | n + 1, s =>
      match body s with
      | .ok (.again s') => after n s'
      | _ => none

variable {body} {s s' : σ} {r : ρ}

theorem after_reaches {n : Nat} (h : after body n s = some s') : Reaches body s s' := by
  induction n generalizing s with
  | zero =>
      cases h
      exact .refl
  | succ n ih =>
      rw [after] at h
      split at h
      · exact .head ‹_› (ih h)
      · cases h

/-- Every state a loop passes through is the state after some number of passes. -/
theorem Reaches.exists_after (h : Reaches body s s') : ∃ n, after body n s = some s' := by
  induction h using Relation.ReflTransGen.head_induction_on with
  | refl => exact ⟨0, rfl⟩
  | head hstep _ ih =>
      obtain ⟨n, hn⟩ := ih
      exact ⟨n + 1, by rw [after, hstep]; exact hn⟩

theorem after_next {n : Nat} {t : σ} (h : after body n s = some s')
    (hb : body s' = .ok (.again t)) : after body (n + 1) s = some t := by
  induction n generalizing s with
  | zero =>
      cases h
      rw [after, hb]
      rfl
  | succ n ih =>
      rw [after] at h ⊢
      split at h
      · exact ih h
      · cases h

/-- The loop stops in the pass behind the last state it is in. -/
theorem after_stop {n : Nat} (h : after body n s = some s') (hb : ∀ t, body s' ≠ .ok (.again t)) :
    after body (n + 1) s = none := by
  induction n generalizing s with
  | zero =>
      cases h
      rw [after]
      split
      · exact absurd ‹_› (hb _)
      · rfl
  | succ n ih =>
      rw [after] at h ⊢
      split at h
      · exact ih h
      · cases h

/-- A run goes on from any state it is in. -/
theorem iterate_after {m n : Nat} (h : after body n s = some s') :
    iterate body (n + m) s = iterate body m s' := by
  induction n generalizing s with
  | zero =>
      cases h
      rw [Nat.zero_add]
  | succ n ih =>
      rw [after] at h
      rw [Nat.succ_add, iterate]
      split at h
      · rename_i t hb
        rw [hb]
        exact ih h
      · cases h

theorem after_eq_none {m n : Nat} (hmn : m ≤ n) (h : after body m s = none) :
    after body n s = none := by
  induction m generalizing n s with
  | zero => cases h
  | succ m ih =>
      obtain ⟨n, rfl⟩ := Nat.exists_eq_add_of_lt hmn
      rw [after] at h ⊢
      split at h
      · exact ih (Nat.le_add_right _ _) h
      · rfl

/-- What holds after each of the passes of a loop that is over by then holds in every
state it passes through. -/
theorem Reaches.of_after {P : σ → Prop} {n : Nat} (h : Reaches body s s')
    (hover : after body n s = none) (hall : ∀ i < n, ∀ t, after body i s = some t → P t) :
    P s' := by
  obtain ⟨i, hi⟩ := h.exists_after
  refine hall i (Nat.lt_of_not_le fun hle => ?_) s' hi
  rw [after_eq_none hle hover] at hi
  cases hi

/-- Does a test succeed in every state of a loop that is over within so many passes? -/
def allStates (body : σ → Except ε (Pass σ ρ)) (test : σ → Bool) : Nat → σ → Bool
  | 0, _ => false
  | n + 1, s => test s &&
      match body s with
      | .ok (.again s') => allStates body test n s'
      | _ => true

theorem Reaches.of_allStates {test : σ → Bool} {n : Nat} (h : Reaches body s s')
    (hall : allStates body test n s = true) : test s' = true := by
  induction n generalizing s with
  | zero => cases hall
  | succ n ih =>
      rw [allStates, Bool.and_eq_true] at hall
      obtain rfl | ⟨t, hstep, hrest⟩ := Relation.ReflTransGen.cases_head h
      · exact hall.1
      · rw [hstep] at hall
        exact ih hrest hall.2

/-- The invariant rule: what one pass preserves holds in every reached state. -/
theorem Reaches.invariant {P : σ → Prop} (h : Reaches body s s') (start : P s)
    (pass : ∀ t t', P t → body t = .ok (.again t') → P t') : P s' := by
  induction h with
  | refl => exact start
  | tail _ hstep ih => exact pass _ _ ih hstep

/-- A run that ends has passed through a state whose pass ends it. -/
theorem iterate_reaches {fuel : Nat} {out : Except ε ρ} (h : iterate body fuel s = some out) :
    ∃ t, Reaches body s t ∧ ((∃ e, out = .error e ∧ body t = .error e) ∨
      ∃ r, out = .ok r ∧ body t = .ok (.done r)) := by
  induction fuel generalizing s with
  | zero => simp [iterate] at h
  | succ fuel ih =>
      cases hb : body s with
      | error e =>
          simp only [iterate, hb, Option.some.injEq] at h
          exact ⟨s, .refl, .inl ⟨e, h.symm, hb⟩⟩
      | ok p =>
          cases p with
          | done r =>
              simp only [iterate, hb, Option.some.injEq] at h
              exact ⟨s, .refl, .inr ⟨r, h.symm, hb⟩⟩
          | again s' =>
              simp only [iterate, hb] at h
              obtain ⟨t, ht, out⟩ := ih h
              exact ⟨t, .head hb ht, out⟩

/-- A run that leaves with `r` passed through a state whose pass leaves with `r`. -/
theorem iterate_ok {fuel : Nat} (h : iterate body fuel s = some (.ok r)) :
    ∃ t, Reaches body s t ∧ body t = .ok (.done r) := by
  obtain ⟨t, ht, ⟨e, he, _⟩ | ⟨r', hr, hb⟩⟩ := iterate_reaches h
  · cases he
  · cases hr
    exact ⟨t, ht, hb⟩

/-- The loop ends, by failing or by leaving. -/
def Ends (body : σ → Except ε (Pass σ ρ)) (s : σ) : Prop :=
  ∃ fuel out, iterate body fuel s = some out

theorem ends_of_error {e : ε} (h : body s = .error e) : Ends body s :=
  ⟨1, .error e, by rw [iterate, h]⟩

theorem ends_of_done (h : body s = .ok (.done r)) : Ends body s :=
  ⟨1, .ok r, by rw [iterate, h]⟩

theorem ends_again (h : body s = .ok (.again s')) : Ends body s ↔ Ends body s' := by
  constructor
  · rintro ⟨fuel, out, hrun⟩
    cases fuel with
    | zero => cases hrun
    | succ fuel =>
        rw [iterate, h] at hrun
        exact ⟨fuel, out, hrun⟩
  · rintro ⟨fuel, out, hrun⟩
    refine ⟨fuel + 1, out, ?_⟩
    rw [iterate, h]
    exact hrun

theorem Reaches.ends_iff (h : Reaches body s s') : Ends body s ↔ Ends body s' := by
  induction h with
  | refl => exact Iff.rfl
  | tail _ hstep ih => exact ih.trans (ends_again hstep)

/-- The variant rule: a loop ends if every further pass keeps an invariant and takes a
variant down a well-founded relation. -/
theorem ends_of_wellFounded {δ : Type} {below : δ → δ → Prop} (hwf : WellFounded below)
    {P : σ → Prop} (variant : σ → δ) (start : P s)
    (pass : ∀ t t', P t → body t = .ok (.again t') → P t' ∧ below (variant t') (variant t)) :
    Ends body s := by
  induction hn : variant s using hwf.induction generalizing s with
  | _ n ih =>
      cases hb : body s with
      | error e => exact ends_of_error hb
      | ok p =>
          cases p with
          | done r => exact ends_of_done hb
          | again s' =>
              obtain ⟨hs', hlt⟩ := pass s s' start hb
              exact (ends_again hb).mpr (ih _ (hn ▸ hlt) hs' rfl)

theorem ends_of_variant {δ : Type} [LT δ] [WellFoundedLT δ] {P : σ → Prop} (variant : σ → δ)
    (start : P s)
    (pass : ∀ t t', P t → body t = .ok (.again t') → P t' ∧ variant t' < variant t) :
    Ends body s :=
  ends_of_wellFounded wellFounded_lt variant start pass

/-- A loop never ends where every pass leads to another one. -/
theorem not_ends {P : σ → Prop} (start : P s)
    (pass : ∀ t, P t → ∃ t', body t = .ok (.again t') ∧ P t') : ¬ Ends body s := by
  rintro ⟨fuel, out, hrun⟩
  induction fuel generalizing s with
  | zero => cases hrun
  | succ fuel ih =>
      obtain ⟨s', hs', hP⟩ := pass s start
      rw [iterate, hs'] at hrun
      exact ih hP hrun

/-- The outcome does not depend on how many passes were allowed. -/
theorem iterate_unique {m n : Nat} {a b : Except ε ρ} (ha : iterate body m s = some a)
    (hb : iterate body n s = some b) : a = b := by
  induction m generalizing n s with
  | zero => cases ha
  | succ m ih =>
      cases n with
      | zero => cases hb
      | succ n =>
          rw [iterate] at ha hb
          split at ha
          · cases ha
            simp_all
          · cases ha
            simp_all
          · rename_i s' hs
            rw [hs] at hb
            exact ih ha hb

/-- A result of a loop is the result of the pass that ends it. -/
theorem Reaches.iterate_ok (h : Reaches body s s') (hdone : body s' = .ok (.done r)) :
    ∃ fuel, iterate body fuel s = some (.ok r) := by
  induction h using Relation.ReflTransGen.head_induction_on with
  | refl => exact ⟨1, by rw [iterate, hdone]⟩
  | head hstep _ ih =>
      obtain ⟨fuel, hrun⟩ := ih
      exact ⟨fuel + 1, by rw [iterate, hstep]; exact hrun⟩

end Reaches

end Verify
