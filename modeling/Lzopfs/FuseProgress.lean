import Lzopfs.BlockProgress
import Lzopfs.Fuse

/-!
# Every request is answered

A request waits for its call, and the call returns. So when no more requests come in, the
process gets to a point where all of them are answered, whoever moves first.
-/

namespace Lzopfs

open Verify BlockCache

namespace Server

variable {n : Nat} {m : Mount} {cacheSize : UInt64} {s t : Server n} {ws : List Seen}

/-- A step of the calls, the workers and their answers. -/
def Event.Onward : Event n → Prop
  | .cache e => BlockCache.Event.Onward e
  | .answer _ => True
  | _ => False

/-- A block cannot be decompressed. -/
def Event.Fails : Event n → Prop
  | .cache (.throws _ _) => True
  | _ => False

/-- A process that goes on: it has not exited, its cache runs, and every request has a
call. -/
structure Going (m : Mount) (cacheSize : UInt64) (s : Server n) : Prop where
  ran : ∃ es, Ran m cacheSize s es
  cache : Running s.cache
  within : ∃ cs, Within cs s.cache
  called : ∀ r ∈ s.requests, (s.cache.calls r.id).isSome = true

section Going

variable {s' : Server n} {e : Event n}

/-- The cache takes a step, and the requests keep their calls. -/
theorem cache_moves (hn : 0 < n) {e : BlockCache.Event n} {cache : BlockCache n}
    (hs : Going m cacheSize s) (hstep : s.cache.step m.content e = some cache)
    (hfailed : failed [e] = []) (hwakes : spuriousWakes [e] = []) :
    Running cache ∧ (∃ cs, Within cs cache) ∧
      ∀ r ∈ s.requests, (cache.calls r.id).isSome = true := by
  have hm := (step_moves hstep).2
  obtain ⟨cs, hin⟩ := hs.within
  refine ⟨hs.cache.moves hn hm hfailed hwakes, within_moves hin hm, ?_⟩
  intro r hr
  obtain ⟨call, hcall⟩ := Option.isSome_iff_exists.mp (hs.called r hr)
  obtain ⟨call', hcall', -⟩ := stable_moves hm r.id call hcall
  rw [hcall']
  rfl

/-- The cache stays, and no request is added. -/
theorem Going.congr (hs : Going m cacheSize s) (hran : ∃ es, Ran m cacheSize s' es)
    (hcache : s'.cache = s.cache) (hrequests : s'.requests ⊆ s.requests) :
    Going m cacheSize s' where
  ran := hran
  cache := hcache ▸ hs.cache
  within := hcache ▸ hs.within
  called r hr := hcache ▸ hs.called r (hrequests hr)

theorem Going.begin {id fh : Nat} {file : CompressedFile} {buf : Buffer} {size : UInt64}
    {offset : Int} (hn : 0 < n) (hs : Going m cacheSize s) (hran : ∃ es, Ran m cacheSize s' es)
    (he : (Event.read id fh buf size offset : Event n).Promised)
    (h : beginRead m s id fh file buf size offset = some (s', ws)) : Going m cacheSize s' := by
  obtain ⟨hpos, hrange, -⟩ := he
  obtain ⟨off, rfl⟩ := Int.eq_ofNat_of_zero_le hpos
  rw [Int.toNat_natCast] at hrange
  obtain ⟨-, rfl, -⟩ | ⟨it, cache, -, -, hcache, rfl, -⟩ := beginRead_cases (by omega) h
  · exact hs.congr hran rfl (List.Subset.refl _)
  · obtain ⟨hrunning, hwithin, hcalled⟩ := cache_moves hn hs hcache rfl rfl
    refine ⟨hran, hrunning, hwithin, List.forall_mem_cons.mpr ⟨?_, hcalled⟩⟩
    have hm := (step_moves hcache).2
    cases hm with
    | scan => rw [setCall_self]; rfl

theorem Going.step (hn : 0 < n) (hs : Going m cacheSize s) (he : e.Promised) (hfails : ¬ e.Fails)
    (h : Server.step m s e = some (s', ws)) : Going m cacheSize s' := by
  obtain ⟨es, hran⟩ := hs.ran
  obtain ⟨⟨es', hran'⟩, -⟩ := matched_step hran he h
  obtain ⟨-, h⟩ := Option.ite_none_left_eq_some.mp h
  cases e with
  | getattr path =>
      cases h
      exact hs
  | readdir path =>
      cases h
      exact hs
  | openFile path flags fh opens =>
      dsimp only at h
      generalize lf_open m path flags opens = r at h
      obtain ⟨ret, handle⟩ := r
      cases handle with
      | none =>
          cases h
          exact hs
      | some file =>
          obtain ⟨-, h⟩ := Option.ite_none_left_eq_some.mp h
          cases h
          exact hs.congr ⟨es', hran'⟩ rfl (List.Subset.refl _)
  | release fh =>
      obtain ⟨-, h⟩ := Option.ite_none_right_eq_some.mp h
      cases h
      exact hs.congr ⟨es', hran'⟩ rfl (List.Subset.refl _)
  | read id fh buf size offset =>
      obtain ⟨file, -, h⟩ := Option.bind_eq_some_iff.mp h
      exact hs.begin hn ⟨es', hran'⟩ he h
  | cache e =>
      obtain ⟨-, cache, hcache, rfl, -⟩ := cacheStep_cases h
      have hfailed : failed [e] = [] := by
        cases e with
        | throws => exact absurd trivial hfails
        | _ => rfl
      obtain ⟨hrunning, hwithin, hcalled⟩ := cache_moves hn hs hcache hfailed he
      exact ⟨⟨es', hran'⟩, hrunning, hwithin, hcalled⟩
  | answer id =>
      dsimp only at h
      split at h
      · rename_i r call hr hcall
        obtain ⟨-, h⟩ := Option.ite_none_right_eq_some.mp h
        cases h
        exact hs.congr ⟨es', hran'⟩ rfl List.filter_sublist.subset
      · cases h

theorem Going.start : Going m cacheSize (lf_init n cacheSize) where
  ran := ⟨[], rfl, fun _ _ _ _ h => (by cases h), rfl, fun _ h => (by cases h)⟩
  cache := .start n cacheSize
  within := ⟨∅, fun c hc => by cases hc⟩
  called _ h := by cases h

/-- What the calls, the workers and the answers have to do. -/
def todo (cs : Finset Nat) (s : Server n) : Nat := left cs s.cache + s.requests.length

theorem Event.Onward.quiet (he : e.Onward) : e.Promised ∧ ¬ e.Fails := by
  cases e with
  | cache e =>
      have hquiet := BlockCache.Event.Onward.quiet he
      refine ⟨hquiet.2, fun hfails => ?_⟩
      cases e with
      | throws => exact he
      | _ => exact hfails
  | answer id => exact ⟨trivial, fun hfails => hfails⟩
  | _ => exact absurd he id

/-- Whoever moves on leaves less to do, and does not end the process. -/
theorem Going.onward {cs : Finset Nat} (hs : Going m cacheSize s) (hexited : s.exited = none)
    (hin : Within cs s.cache) (he : e.Onward) (h : Server.step m s e = some (s', ws)) :
    s'.exited = none ∧ Within cs s'.cache ∧ todo cs s' < todo cs s := by
  obtain ⟨-, h⟩ := Option.ite_none_left_eq_some.mp h
  cases e with
  | cache e =>
      obtain ⟨-, cache, hcache, rfl, -⟩ := cacheStep_cases h
      obtain ⟨hin', hlt⟩ := left_moves hin (step_moves hcache).2 he
      exact ⟨hexited, hin', Nat.add_lt_add_right hlt _⟩
  | answer id =>
      dsimp only at h
      split at h
      · rename_i r call hr hcall
        obtain ⟨hphase, h⟩ := Option.ite_none_right_eq_some.mp h
        obtain ⟨es, hran⟩ := hs.ran
        have hmem := List.mem_of_find?_eq_some hr
        have hid : r.id = id := by simpa using List.find?_some hr
        have hread := CompFile.lf_read_of_read (hran.read hmem (hid ▸ hcall) hphase)
        cases h
        refine ⟨?_, hin, ?_⟩
        · show (lf_read _ _ _ _ _).status = none
          rw [hread]
          rfl
        · have hlt : (s.requests.filter fun r' => r'.id ≠ r.id).length < s.requests.length :=
            List.length_filter_lt_length_iff_exists.mpr ⟨r, hmem, by simp⟩
          exact Nat.add_lt_add_left hlt _
      · cases h
  | _ => exact absurd he id

/-- As long as a request is not answered, somebody can move on. -/
theorem Going.canMove (hs : Going m cacheSize s) (hexited : s.exited = none)
    (hne : s.requests ≠ []) : ∃ e, Event.Onward e ∧ (Server.step m s e).isSome = true := by
  have halive : ¬ (s.exited.isSome || s.cache.terminated) = true := by
    rw [hexited, hs.cache.alive]
    exact Bool.false_ne_true
  obtain ⟨r, hr⟩ := List.exists_mem_of_ne_nil _ hne
  obtain ⟨call, hcall⟩ := Option.isSome_iff_exists.mp (hs.called r hr)
  by_cases hphase : call.phase = .returned
  · have hfind : (s.requests.find? fun r' => r'.id = r.id).isSome = true :=
      List.find?_isSome.mpr ⟨r, hr, by simp⟩
    obtain ⟨r', hr'⟩ := Option.isSome_iff_exists.mp hfind
    refine ⟨.answer r.id, trivial, ?_⟩
    rw [Server.step, if_neg halive, hr', hcall]
    dsimp only
    rw [if_pos hphase]
    rfl
  · obtain ⟨e, cache, he, hstep⟩ := @Running.canMove n m.content _ _ _ hs.cache hcall hphase
    refine ⟨.cache e, he, ?_⟩
    rw [Server.step, if_neg halive]
    cases e with
    | scan => exact absurd he id
    | _ =>
        show ((s.cache.step m.content _).map _).isSome = true
        rw [hstep]
        rfl

end Going

variable {es : List (Event n)}

theorem run_going (hn : 0 < n)
    (h : (service m n cacheSize).run (lf_init n cacheSize) es = some (s, ws))
    (hes : ∀ e ∈ es, e.Promised ∧ ¬ e.Fails) : Going m cacheSize s := by
  revert hes
  apply exec_induction (P := fun es s => (∀ e ∈ es, Event.Promised e ∧ ¬ Event.Fails e) →
    Going m cacheSize s) _ _ (Service.exec_of_run h)
  · exact fun _ => .start
  · intro es s e t _ hs hmove hes
    obtain ⟨ws, hstep⟩ := Service.of_move hmove
    obtain ⟨hpromised, hfails⟩ := hes e (List.mem_append_right _ (List.mem_singleton_self e))
    exact (hs fun e he => hes e (List.mem_append_left _ he)).step hn hpromised hfails hstep

/-- After any run in which no block fails, the process takes no more than so many steps
before another request comes in, and while a request is not answered it can take one. -/
theorem requests_answered (hn : 0 < n)
    (h : (service m n cacheSize).run (lf_init n cacheSize) es = some (s, ws))
    (hes : ∀ e ∈ es, e.Promised ∧ ¬ e.Fails) (hexited : s.exited = none) :
    ∃ bound, ∀ es' t ws', (∀ e ∈ es', Event.Onward e) →
      (service m n cacheSize).run s es' = some (t, ws') → es'.length ≤ bound ∧
        (t.requests = [] ∨ ∃ e, Event.Onward e ∧ (step m t e).isSome = true) := by
  have hs := run_going hn h hes
  obtain ⟨cs, hin⟩ := hs.within
  refine ⟨todo cs s, fun es' t ws' hes' hrun => ?_⟩
  have hpass : ∀ (s : Server n) e t,
      (Going m cacheSize s ∧ s.exited = none ∧ Within cs s.cache) → Event.Onward e →
      (service m n cacheSize).move s e = some t →
      (Going m cacheSize t ∧ t.exited = none ∧ Within cs t.cache) ∧ todo cs t < todo cs s := by
    rintro s e t ⟨hs, hexited, hin⟩ he hmove
    obtain ⟨ws, hstep⟩ := Service.of_move hmove
    obtain ⟨hexited', hin', hlt⟩ := hs.onward hexited hin he hstep
    exact ⟨⟨hs.step hn he.quiet.1 he.quiet.2 hstep, hexited', hin'⟩, hlt⟩
  obtain ⟨⟨ht, hexited', -⟩, hle⟩ :=
    exec_length_le hpass ⟨hs, hexited, hin⟩ hes' (Service.exec_of_run hrun)
  refine ⟨by omega, ?_⟩
  by_cases hnil : t.requests = []
  · exact .inl hnil
  · exact .inr (ht.canMove hexited' hnil)

/-- A request has come in, and nothing has been done about it yet. -/
theorem requests_answered_one : ∃ s ws,
    (service twoBytes 1 100).run (lf_init 1 100) (oneRequest.take 3) = some (s, ws) ∧
      s.requests ≠ [] ∧ ∃ bound, ∀ es' t ws', (∀ e ∈ es', Event.Onward e) →
        (service twoBytes 1 100).run s es' = some (t, ws') → es'.length ≤ bound ∧
          (t.requests = [] ∨ ∃ e, Event.Onward e ∧ (step twoBytes t e).isSome = true) := by
  have hrun : ∃ s ws, (service twoBytes 1 100).run (lf_init 1 100) (oneRequest.take 3) =
      some (s, ws) ∧ s.requests ≠ [] ∧ s.exited = none := ⟨_, _, rfl, List.cons_ne_nil _ _, rfl⟩
  obtain ⟨s, ws, hs, hne, hexited⟩ := hrun
  refine ⟨s, ws, hs, hne, requests_answered Nat.zero_lt_one hs ?_ hexited⟩
  simp only [oneRequest, List.take_succ_cons, List.take_zero, List.forall_mem_cons]
  exact ⟨⟨trivial, id⟩, ⟨trivial, id⟩, ⟨⟨by decide, by decide, rfl⟩, id⟩, fun _ h => (by cases h)⟩

end Server

end Lzopfs
