import Mathlib.Data.List.Induction

/-!
# Systems that move by labelled steps

A system is a partial function from a state and an event to the next state. The events
say who moves and what is observed; any order of them that the system admits is a run.
-/

namespace Verify

variable {σ τ ε ε' : Type}

/-- The state that events lead to, if the system admits them one after the other. -/
def exec (step : σ → ε → Option σ) (s : σ) : List ε → Option σ
  | [] => some s
  | e :: es => (step s e).bind fun t => exec step t es

variable {step : σ → ε → Option σ} {s t : σ} {es es' : List ε} {e : ε}

theorem exec_append : exec step s (es ++ es') = (exec step s es).bind fun t => exec step t es' := by
  induction es generalizing s with
  | nil => rfl
  | cons e es ih =>
      rw [List.cons_append, exec, exec]
      cases step s e with
      | none => rfl
      | some t => exact ih

/-- A run passes through a state after each of its events. -/
theorem exec_append_eq_some :
    exec step s (es ++ es') = some t ↔ ∃ m, exec step s es = some m ∧ exec step m es' = some t := by
  rw [exec_append, Option.bind_eq_some_iff]

theorem exec_concat_eq_some :
    exec step s (es ++ [e]) = some t ↔ ∃ m, exec step s es = some m ∧ step m e = some t := by
  rw [exec_append_eq_some]
  have hone : ∀ m, exec step m [e] = step m e := by
    intro m
    rw [exec]
    cases step m e <;> rfl
  simp only [hone]

/-- What holds at the start and is kept by every step holds after every run. -/
theorem exec_induction {P : List ε → σ → Prop} (start : P [] s)
    (pass : ∀ es t e t', exec step s es = some t → P es t → step t e = some t' → P (es ++ [e]) t')
    (h : exec step s es = some t) : P es t := by
  induction es using List.reverseRecOn generalizing t with
  | nil =>
      cases h
      exact start
  | append_singleton es e ih =>
      obtain ⟨m, hm, hstep⟩ := exec_concat_eq_some.mp h
      exact pass es m e t hm (ih hm) hstep

/-- Where every step of a kind lowers a measure, a run of such steps is no longer than the
measure. -/
theorem exec_length_le {P : σ → Prop} {μ : σ → Nat} {ok : ε → Prop}
    (pass : ∀ s e t, P s → ok e → step s e = some t → P t ∧ μ t < μ s) (hs : P s)
    (hes : ∀ e ∈ es, ok e) (h : exec step s es = some t) : P t ∧ es.length + μ t ≤ μ s := by
  induction es generalizing s with
  | nil =>
      cases h
      exact ⟨hs, Nat.le_of_eq (Nat.zero_add _)⟩
  | cons e es ih =>
      rw [List.forall_mem_cons] at hes
      obtain ⟨m, hm, hrest⟩ := Option.bind_eq_some_iff.mp h
      obtain ⟨hP, hlt⟩ := pass s e m hs hes.1 hm
      obtain ⟨hPt, hle⟩ := ih hP hes.2 hrest
      refine ⟨hPt, ?_⟩
      rw [List.length_cons]
      omega

end Verify
