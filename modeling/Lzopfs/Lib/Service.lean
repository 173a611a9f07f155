import Lzopfs.Lib.Trace

/-!
# Systems that show what they do

A service moves by steps, as any system, and a step may show something. What a run shows is
all that can be seen of it from outside. When one service is simulated by another one, the
first shows nothing that the second could not show, so that the second one says what can be
expected of the first.
-/

namespace Verify

variable {σ τ ε δ ω : Type}

structure Service (σ ε ω : Type) where
  start : σ
  step : σ → ε → Option (σ × List ω)

namespace Service

/-- The state that events lead to, and what they show. -/
def run (S : Service σ ε ω) (s : σ) : List ε → Option (σ × List ω)
  | [] => some (s, [])
  | e :: es => (S.step s e).bind fun p => (S.run p.1 es).map fun q => (q.1, p.2 ++ q.2)

/-- What some run shows. -/
def Shows (S : Service σ ε ω) (ws : List ω) : Prop := ∃ es t, S.run S.start es = some (t, ws)

variable {S : Service σ ε ω} {s t : σ} {e : ε} {es es' : List ε} {ws : List ω}

theorem run_cons : S.run s (e :: es) = some (t, ws) ↔
    ∃ m us vs, S.step s e = some (m, us) ∧ S.run m es = some (t, vs) ∧ ws = us ++ vs := by
  rw [run, Option.bind_eq_some_iff]
  constructor
  · rintro ⟨⟨m, us⟩, hstep, hrest⟩
    obtain ⟨⟨t', vs⟩, hrun, hpair⟩ := Option.map_eq_some_iff.mp hrest
    cases hpair
    exact ⟨m, us, vs, hstep, hrun, rfl⟩
  · rintro ⟨m, us, vs, hstep, hrun, rfl⟩
    refine ⟨(m, us), hstep, ?_⟩
    rw [hrun]
    rfl

theorem run_append {m : σ} {us vs : List ω} (h : S.run s es = some (m, us))
    (h' : S.run m es' = some (t, vs)) : S.run s (es ++ es') = some (t, us ++ vs) := by
  induction es generalizing s us with
  | nil =>
      cases h
      exact h'
  | cons e es ih =>
      obtain ⟨m', us', vs', hstep, hrun, rfl⟩ := run_cons.mp h
      exact run_cons.mpr ⟨m', us', vs' ++ vs, hstep, ih hrun, List.append_assoc _ _ _⟩

/-- The states alone are those of a system. -/
def move (S : Service σ ε ω) (s : σ) (e : ε) : Option σ := (S.step s e).map Prod.fst

theorem exec_of_run (h : S.run s es = some (t, ws)) : exec S.move s es = some t := by
  induction es generalizing s ws with
  | nil =>
      cases h
      rfl
  | cons e es ih =>
      obtain ⟨m, us, vs, hstep, hrun, rfl⟩ := run_cons.mp h
      rw [exec, move, hstep]
      exact ih hrun

theorem of_move (h : S.move s e = some t) : ∃ ws, S.step s e = some (t, ws) := by
  obtain ⟨⟨m, ws⟩, hstep, rfl⟩ := Option.map_eq_some_iff.mp h
  exact ⟨ws, hstep⟩

/-- A single step is a run. -/
theorem run_single (h : S.step s e = some (t, ws)) : S.run s [e] = some (t, ws) :=
  run_cons.mpr ⟨t, ws, [], h, rfl, (List.append_nil ws).symm⟩

end Service

/-- Events of one service that are followed by runs of another one, as long as its
environment only sends events of the kind agreed on. -/
structure Simulation (C : Service σ ε ω) (A : Service τ δ ω) (admits : ε → Prop) where
  rel : σ → τ → Prop
  start : rel C.start A.start
  follows : ∀ {s t e s' ws}, rel s t → admits e → C.step s e = some (s', ws) →
    ∃ ds t', A.run t ds = some (t', ws) ∧ rel s' t'

namespace Simulation

variable {C : Service σ ε ω} {A : Service τ δ ω} {admits : ε → Prop}
  {s s' : σ} {t : τ} {es : List ε} {ws : List ω}

theorem run (sim : Simulation C A admits) (hrel : sim.rel s t) (hes : ∀ e ∈ es, admits e)
    (h : C.run s es = some (s', ws)) : ∃ ds t', A.run t ds = some (t', ws) ∧ sim.rel s' t' := by
  induction es generalizing s t ws with
  | nil =>
      cases h
      exact ⟨[], t, rfl, hrel⟩
  | cons e es ih =>
      rw [List.forall_mem_cons] at hes
      obtain ⟨m, us, vs, hstep, hrun, rfl⟩ := Service.run_cons.mp h
      obtain ⟨ds, t', hfirst, hrel'⟩ := sim.follows hrel hes.1 hstep
      obtain ⟨ds', t'', hrest, hrel''⟩ := ih hrel' hes.2 hrun
      exact ⟨ds ++ ds', t'', Service.run_append hfirst hrest, hrel''⟩

/-- What is seen of the one can be seen of the other. -/
theorem shows (sim : Simulation C A admits) (hes : ∀ e ∈ es, admits e)
    (h : C.run C.start es = some (s', ws)) : A.Shows ws := by
  obtain ⟨ds, t', hrun, -⟩ := sim.run sim.start hes h
  exact ⟨ds, t', hrun⟩

end Simulation

end Verify
