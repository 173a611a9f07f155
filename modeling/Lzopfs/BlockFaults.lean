import Lzopfs.BlockDelivery

/-!
# Waits that end early, and jobs that fail

A call waits once, and does not look at its count again. As long as waits end only when
they are signalled, that is enough: a call that has returned has nothing outstanding. An
exception of a job is not stopped by the worker that runs it.
-/

namespace Lzopfs

open Verify

namespace BlockCache

variable {n : Nat}

/-- The calls whose waits ended without a signal. -/
def spuriousWakes (es : List (Event n)) : List Nat :=
  es.filterMap fun
    | .spurious c => some c
    | _ => none

/-- The jobs whose `decompressBlock` threw. -/
def failed (es : List (Event n)) : List Job :=
  es.filterMap fun
    | .throws _ job => some job
    | _ => none

/-- A job that is queued, or running and still to count down. -/
def Unfinished (s : BlockCache n) (job : Job) : Prop :=
  job ∈ s.mPool.queued ∨ ∃ i, s.mPool.workers i = .running job ∧ s.pcs i ≠ .counted

section Outstanding

variable {s : BlockCache n} {c : Nat} {pc : Pc} {job : Job}

theorem uncounted_pos (job : Job) (h : pc ≠ .counted) : 0 < uncounted job.call job pc := by
  have hone : (if job.call = job.call then 1 else 0) = 1 := if_pos rfl
  cases pc with
  | counted => exact absurd rfl h
  | _ =>
      show 0 < if job.call = job.call then 1 else 0
      rw [hone]
      exact Nat.one_pos

/-- A job counts for its call as long as it is unfinished. -/
theorem Unfinished.outstanding_pos (h : s.Unfinished job) :
    0 < outstanding (uncounted job.call) s := by
  obtain hqueued | ⟨i, hi, hpc⟩ := h
  · apply Nat.lt_of_lt_of_le _ (Nat.le_add_right _ _)
    apply Nat.lt_of_lt_of_le (@uncounted_pos .start job nofun)
    exact List.single_le_sum (fun _ _ => Nat.zero_le _) _
      (List.mem_map_of_mem (f := fun j => uncounted job.call j .start) hqueued)
  · apply Nat.lt_of_lt_of_le _ (Nat.le_add_left _ _)
    apply Nat.lt_of_lt_of_le (uncounted_pos job hpc)
    have hload : uncounted job.call job (s.pcs i) =
        load (uncounted job.call) (s.mPool.workers i) (s.pcs i) := by
      rw [hi]
      rfl
    rw [hload]
    exact Finset.single_le_sum
      (f := fun i => load (uncounted job.call) (s.mPool.workers i) (s.pcs i))
      (fun _ _ => Nat.zero_le _) (Finset.mem_univ i)

/-- What is outstanding for a call is some job of it. -/
theorem exists_holds (h : 0 < outstanding (uncounted c) s) :
    ∃ job, s.Unfinished job ∧ job.call = c := by
  by_contra hnone
  have hne : ∀ job, s.Unfinished job → job.call ≠ c := fun job hjob heq => hnone ⟨job, hjob, heq⟩
  refine absurd (outstanding_eq_zero (fun job hjob => ?_) fun i job hi => ?_) h.ne'
  · exact uncounted_of_ne (hne job (Or.inl hjob))
  · by_cases hpc : s.pcs i = .counted
    · rw [hpc]
      rfl
    · exact uncounted_of_ne (hne job (Or.inr ⟨i, hi, hpc⟩))

end Outstanding

/-- Calls whose wait has ended have counted down to zero. -/
def Signalled (s : BlockCache n) : Prop :=
  ∀ c call, s.calls c = some call → call.phase = .woken ∨ call.phase = .returned → call.remain = 0

section Signalled

variable {content : String → Block → Buffer} {s t : BlockCache n} {e : Event n} {c : Nat}
  {call call' : Call} {es : List (Event n)} {maxSize : UInt64}

theorem Signalled.setCall (hs : Signalled s)
    (hcalls : t.calls = Function.update s.calls c (some call'))
    (hself : call'.phase = .woken ∨ call'.phase = .returned → call'.remain = 0) : Signalled t := by
  intro d new hnew hphase
  rw [hcalls] at hnew
  by_cases hd : d = c
  · subst hd
    rw [Function.update_self] at hnew
    cases hnew
    exact hself hphase
  · rw [Function.update_of_ne hd] at hnew
    exact hs d new hnew hphase

/-- A call that still has an unfinished job has not counted down to zero. -/
theorem Kept.remain_pos {job : Job} (hs : Kept s) (hcall : s.calls job.call = some call)
    (hjob : s.Unfinished job) : 0 < call.remain := by
  have hremain := (hs.calls _ _ hcall).remain
  have hpos := hjob.outstanding_pos
  omega

theorem Signalled.work {i : Fin n} {job : Job} {b : Block} (hs : Signalled s) (hkept : Kept s)
    (hrunning : s.mPool.workers i = .running job) (hcall : s.calls job.call = some call)
    (hjob : JobMoves content s i job call b (s.pcs i) t) : Signalled t := by
  have hsame := hs job.call call hcall
  generalize hpc : s.pcs i = pc at hjob
  cases hjob with
  | hit hfind hfound => exact hs.setCall rfl hsame
  | miss hfind hfound => exact hs
  | decompress => exact hs
  | add nbuf hadd => exact hs
  | callback nbuf => exact hs.setCall rfl hsame
  | count hphase =>
      have hpos : 0 < call.remain :=
        hkept.remain_pos hcall (Or.inr ⟨i, hrunning, by rw [hpc]; exact nofun⟩)
      have hwaiting : call.phase = .waiting := by
        refine hphase.resolve_right fun hwoken => ?_
        rw [hsame (Or.inl hwoken)] at hpos
        exact absurd hpos (Nat.lt_irrefl 0)
      refine hs.setCall rfl fun hwoken => ?_
      rw [Call.countDown] at hwoken ⊢
      dsimp only at hwoken ⊢
      split at hwoken
      · rename_i hzero
        exact hzero.1
      · rcases hwoken with hwoken | hwoken <;> rw [hwaiting] at hwoken <;> cases hwoken

theorem Signalled.moves (hs : Signalled s) (hkept : Kept s) (hm : Moves content s e t)
    (hes : spuriousWakes [e] = []) : Signalled t := by
  cases hm with
  | scan hfresh hscan =>
      refine hs.setCall rfl fun hphase => ?_
      dsimp only at hphase ⊢
      split at hphase
      · rename_i hneed
        rw [hneed]
        rfl
      · rcases hphase with hphase | hphase <;> cases hphase
  | enqueue hcall hphase hk hpool =>
      exact hs.setCall rfl fun h => by rcases h with h | h <;> cases h
  | wait hcall hphase => exact hs.setCall rfl fun h => by rcases h with h | h <;> cases h
  | resume hcall hphase =>
      have hzero := hs _ _ hcall (Or.inl hphase)
      exact hs.setCall rfl fun _ => hzero
  | spurious => cases hes
  | sleep => exact hs
  | wake => exact hs
  | take => exact hs
  | work hrunning hcall hb hjob => exact hs.work hkept hrunning hcall hjob
  | throws => exact hs
  | finish => exact hs

theorem exec_signalled (h : exec (step content) (new n maxSize) es = some s)
    (hes : spuriousWakes es = []) : Signalled s := by
  revert hes
  apply exec_induction (P := fun es s => spuriousWakes es = [] → Signalled s) _ _ h
  · intro _ c call hcall
    cases hcall
  · intro es s e t hrun hs hstep hes
    rw [spuriousWakes, List.filterMap_append, List.append_eq_nil_iff] at hes
    exact (hs hes.1).moves (exec_kept hrun) (step_moves hstep).2 hes.2

/-- No call has returned while a job of it is unfinished. -/
def ReturnsLast (s : BlockCache n) : Prop :=
  ∀ c call, s.calls c = some call → call.phase = .returned →
    ∀ job, s.Unfinished job → job.call ≠ c

/-- If waits end only when they are signalled, a call returns after all its jobs. -/
theorem exec_returnsLast (h : exec (step content) (new n maxSize) es = some s)
    (hes : spuriousWakes es = []) : ReturnsLast s := by
  rintro c call hcall hphase job hjob rfl
  have hzero := exec_signalled h hes _ _ hcall (Or.inr hphase)
  have hpos := (exec_kept h).remain_pos hcall hjob
  rw [hzero] at hpos
  exact absurd hpos (Nat.lt_irrefl 0)

end Signalled

/-- A block of one byte. -/
def oneByte : Block := ⟨1, 1, 0, 0⟩

/-- One call and one worker. -/
def oneRead : List (Event 1) := [.scan 0 "f.lzo" [oneByte] 1, .enqueue 0 none, .wait 0]

/-- What blocks decompress to. -/
def sevens (_ : String) (b : Block) : Buffer := List.replicate b.usize.toNat 7

/-- The block behind that one. -/
def nextBytes : Block := ⟨2, 1, 1, 1⟩

/-- Two reads and two workers. Both reads need the second block, and when the first one's job
comes to it, it is cached. -/
def twoReads : List (Event 2) :=
  [.sleep 0, .scan 0 "f.lzo" [oneByte, nextBytes] 3, .enqueue 0 (some 0),
    .scan 1 "f.lzo" [nextBytes] 3, .enqueue 1 none, .enqueue 0 none, .wait 0, .take 0 ⟨0, 0⟩,
    .take 1 ⟨1, 0⟩, .work 0, .work 1, .work 1, .wait 1, .work 0, .work 1, .work 0, .work 1, .work 1,
    .finish 1 ⟨1, 0⟩, .take 1 ⟨0, 1⟩, .work 1, .work 0, .resume 1, .work 0, .work 1, .resume 0]

theorem twoReads_run : ∃ s, exec (step sevens) (new 2 100) twoReads = some s := by
  apply Option.isSome_iff_exists.mp
  decide +kernel

theorem exec_returnsLast_two :
    ∃ s, exec (step sevens) (new 2 100) twoReads = some s ∧ ReturnsLast s := by
  obtain ⟨s, hs⟩ := twoReads_run
  exact ⟨s, hs, exec_returnsLast hs rfl⟩

/-- A wait that ends by itself lets the call return while its job is queued. -/
theorem spurious_returns_early : ¬ ∀ (es : List (Event 1)) (s : BlockCache 1),
    exec (step fun _ _ => [7]) (new 1 100) es = some s → ReturnsLast s := by
  intro hall
  have hrun : ∃ s, exec (step fun _ _ => [7]) (new 1 100)
      (oneRead ++ [.spurious 0, .resume 0]) = some s ∧
      (∃ call, s.calls 0 = some call ∧ call.phase = .returned) ∧ s.mPool.queued = [⟨0, 0⟩] :=
    ⟨_, rfl, ⟨_, rfl, rfl⟩, rfl⟩
  obtain ⟨s, hs, ⟨call, hcall, hphase⟩, hqueued⟩ := hrun
  refine hall _ s hs 0 call hcall hphase ⟨0, 0⟩ (Or.inl ?_) rfl
  rw [hqueued]
  exact List.mem_singleton_self _

/-- What has become of the calls, the cache, the workers and the process when all of a run
is done: a call counts the jobs that have not counted down, and does not wait for others; a
call of a job that failed has not returned as if it had not; a job that fails leaves the
cache alone, no worker is lost, and the process goes on. -/
structure Contained (content : String → Block → Buffer) (maxSize : UInt64) (es : List (Event n))
    (s : BlockCache n) : Prop where
  counted : ∀ c call, s.calls c = some call →
    call.remain = (call.need.drop call.done).length + outstanding (uncounted c) s
  released : ∀ c call, s.calls c = some call → call.phase = .waiting →
    ∃ job, s.Unfinished job ∧ job.call = c
  reported : ∀ job ∈ failed es, ∀ call, s.calls job.call = some call → call.phase ≠ .returned
  cached : ∀ es₀ i job s₀, es = es₀ ++ [.throws i job] →
    exec (step content) (new n maxSize) es₀ = some s₀ → s.mMap = s₀.mMap
  serving : ∀ i, s.mPool.workers i ≠ .exited
  alive : s.terminated = false

/-- All along a run, a job that fails makes nothing fail but its own read. -/
def FailsAlone (content : String → Block → Buffer) (maxSize : UInt64) (es : List (Event n)) :
    Prop :=
  ∀ es₁ s, es₁ <+: es → exec (step content) (new n maxSize) es₁ = some s →
    Contained content maxSize es₁ s

section Failed

variable {content : String → Block → Buffer} {s t : BlockCache n} {e : Event n} {c : Nat}
  {call : Call} {es : List (Event n)} {maxSize : UInt64}

/-- A call that waits has queued all its jobs, and one of them is unfinished. -/
theorem Kept.released (hs : Kept s) (hcall : s.calls c = some call)
    (hphase : call.phase = .waiting) :
    ∃ job, s.Unfinished job ∧ job.call = c := by
  have hkept := hs.calls c call hcall
  have hpos := hkept.waiting hphase
  have hdone : call.done = call.need.length := by rw [Call.done, hphase]
  rw [hkept.remain, hdone, List.drop_length, List.length_nil, Nat.zero_add] at hpos
  exact exists_holds hpos

/-- No worker exits, as nobody queues a token. -/
theorem serving_pool {p q : ThreadPool Job n} {pe : ThreadPool.Event Job n} (hm : p.Moves pe q)
    (hpe : ∀ i, pe ≠ .exit i) (hp : ∀ i, p.workers i ≠ .exited) : ∀ i, q.workers i ≠ .exited := by
  have hset : ∀ {i : Fin n} {w : Worker Job}, w ≠ .exited → ∀ k,
      (p.setWorker i w).workers k ≠ .exited := by
    intro i w hw k
    by_cases hk : k = i
    · subst hk
      rwa [ThreadPool.setWorker_self]
    · rw [ThreadPool.setWorker_of_ne p w hk]
      exact hp k
  cases hm with
  | wakes job i => exact hset nofun
  | enqueue => exact hp
  | refuse => exact hp
  | sleep i => exact hset nofun
  | take i => exact hset nofun
  | exit i => exact absurd rfl (hpe i)
  | wake i => exact hset nofun
  | finish i => exact hset nofun
  | cancel =>
      intro i
      rw [ThreadPool.broadcast]
      dsimp only
      split
      · exact nofun
      · exact hp i
  | join => exact hp

theorem serving_moves (hm : Moves content s e t) (hs : ∀ i, s.mPool.workers i ≠ .exited) :
    ∀ i, t.mPool.workers i ≠ .exited := by
  cases hm with
  | scan => exact hs
  | enqueue hcall hphase hk hpool => exact serving_pool hpool nofun hs
  | wait => exact hs
  | resume => exact hs
  | spurious => exact hs
  | sleep hpool => exact serving_pool hpool nofun hs
  | wake hpool => exact serving_pool hpool nofun hs
  | take hpool => exact serving_pool hpool nofun hs
  | work hrunning hcall hb hjob =>
      generalize s.pcs _ = pc at hjob
      cases hjob <;> exact hs
  | throws => exact hs
  | finish hpc hpool => exact serving_pool hpool nofun hs

/-- Only an exception ends the process. -/
theorem alive_moves (hm : Moves content s e t) (hs : s.terminated = false) (he : failed [e] = []) :
    t.terminated = false := by
  cases hm with
  | throws => cases he
  | work hrunning hcall hb hjob =>
      generalize s.pcs _ = pc at hjob
      cases hjob <;> exact hs
  | _ => exact hs

theorem exec_serving (h : exec (step content) (new n maxSize) es = some s) :
    ∀ i, s.mPool.workers i ≠ .exited :=
  exec_induction (P := fun _ s => ∀ i, s.mPool.workers i ≠ .exited) (fun i hi => by cases hi)
    (fun _ _ _ _ _ hs hstep => serving_moves (step_moves hstep).2 hs) h

theorem failed_append (es es' : List (Event n)) : failed (es ++ es') = failed es ++ failed es' :=
  List.filterMap_append

theorem exec_alive (h : exec (step content) (new n maxSize) es = some s) (hes : failed es = []) :
    s.terminated = false := by
  revert hes
  apply exec_induction (P := fun es s => failed es = [] → s.terminated = false) _ _ h
  · exact fun _ => rfl
  · intro es s e t _ hs hstep hes
    rw [failed_append, List.append_eq_nil_iff] at hes
    exact alive_moves (step_moves hstep).2 (hs hes.1) hes.2

/-- A run in which no job fails. -/
theorem Contained.of_none (h : exec (step content) (new n maxSize) es = some s)
    (hes : failed es = []) : Contained content maxSize es s where
  counted c call hcall := ((exec_kept h).calls c call hcall).remain
  released c call hcall hphase := (exec_kept h).released hcall hphase
  reported job hjob := by
    rw [hes] at hjob
    cases hjob
  cached es₀ i job s₀ heq := by
    rw [heq, failed_append, List.append_eq_nil_iff] at hes
    cases hes.2
  serving := exec_serving h
  alive := exec_alive h hes

/-- The first job that fails takes the process with it. -/
theorem exists_prefix_throws (h : failed es ≠ []) :
    ∃ es₁ i job, es₁ ++ [.throws i job] <+: es := by
  obtain ⟨job, hjob⟩ := List.exists_mem_of_ne_nil _ h
  obtain ⟨e, he, heq⟩ := List.mem_filterMap.mp hjob
  obtain ⟨es₁, es₂, rfl⟩ := List.append_of_mem he
  cases e with
  | throws i job' =>
      refine ⟨es₁, i, job', es₂, ?_⟩
      rw [List.append_assoc]
      rfl
  | _ => cases heq

theorem failsAlone_iff (h : exec (step content) (new n maxSize) es = some s) :
    FailsAlone content maxSize es ↔ failed es = [] := by
  constructor
  · intro halone
    by_contra hne
    obtain ⟨es₁, i, job, es₂, rfl⟩ := exists_prefix_throws hne
    obtain ⟨m, hm, -⟩ := exec_append_eq_some.mp h
    have halive := (halone _ m (List.prefix_append _ _) hm).alive
    obtain ⟨m₁, -, hstep⟩ := exec_concat_eq_some.mp hm
    cases (step_moves hstep).2
    cases halive
  · rintro hes es₁ s₁ ⟨es₂, rfl⟩ h₁
    rw [failed_append, List.append_eq_nil_iff] at hes
    exact .of_none h₁ hes.1

end Failed

/-- The two reads fail alone, and do not where a block of the first one is corrupt. -/
theorem failsAlone_iff_two : FailsAlone sevens 100 twoReads ∧
    ¬ FailsAlone sevens 100 (twoReads.take 10 ++ [.throws 0 ⟨0, 0⟩]) := by
  have hthrown : ∃ s, exec (step sevens) (new 2 100) (twoReads.take 10 ++ [.throws 0 ⟨0, 0⟩]) =
      some s := by
    apply Option.isSome_iff_exists.mp
    decide +kernel
  obtain ⟨s, hs⟩ := twoReads_run
  obtain ⟨t, ht⟩ := hthrown
  constructor
  · exact (failsAlone_iff hs).mpr rfl
  · intro halone
    cases (failsAlone_iff ht).mp halone

/-- A corrupt block ends the process. -/
theorem corrupt_block_terminates : ¬ ∀ (es : List (Event 1)) (s : BlockCache 1),
    exec (step fun _ _ => [7]) (new 1 100) es = some s → FailsAlone (fun _ _ => [7]) 100 es := by
  intro hall
  have hrun : ∃ s, exec (step fun _ _ => [7]) (new 1 100)
      (oneRead ++ [.take 0 ⟨0, 0⟩, .work 0, .throws 0 ⟨0, 0⟩]) = some s ∧ s.terminated = true :=
    ⟨_, rfl, rfl⟩
  obtain ⟨s, hs, hterminated⟩ := hrun
  have halive := (hall _ s hs _ s (List.prefix_refl _) hs).alive
  rw [hterminated] at halive
  cases halive

end BlockCache

end Lzopfs
