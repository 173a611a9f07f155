import Lzopfs.BlockCache

/-!
# Delivering blocks

What a call still waits for is spread over its own list, the queue and the workers. The
number it counts down is how many of its jobs have not counted yet, and the blocks it has
delivered are all but those that are still owed. Both hold whatever the interleaving is.
-/

namespace Lzopfs

open Verify

namespace BlockCache

variable {n : Nat}

section Outstanding

variable {M : Type} [AddCommMonoid M]

/-- What the job of a worker counts for. -/
def load (f : Job → Pc → M) (w : Worker Job) (pc : Pc) : M :=
  match w with
  | .running job => f job pc
  | _ => 0

/-- What all jobs in the queue and in the hands of workers count for. -/
def outstanding (f : Job → Pc → M) (s : BlockCache n) : M :=
  (s.mPool.queued.map fun job => f job .start).sum + ∑ i, load f (s.mPool.workers i) (s.pcs i)

variable {f : Job → Pc → M} {s : BlockCache n}

theorem outstanding_eq_zero (hqueued : ∀ job ∈ s.mPool.queued, f job .start = 0)
    (hrunning : ∀ i job, s.mPool.workers i = .running job → f job (s.pcs i) = 0) :
    outstanding f s = 0 := by
  have hsum : (s.mPool.queued.map fun job => f job .start).sum = 0 := by
    apply List.sum_eq_zero
    intro x hx
    obtain ⟨job, hjob, rfl⟩ := List.mem_map.mp hx
    exact hqueued job hjob
  have hworkers : ∑ i, load f (s.mPool.workers i) (s.pcs i) = 0 := by
    apply Finset.sum_eq_zero
    intro i _
    cases hw : s.mPool.workers i with
    | running job => exact hrunning i job hw
    | _ => rfl
  rw [outstanding, hsum, hworkers, add_zero]

/-- The sum over the jobs in the queue. -/
def waitingJobs (f : Job → Pc → M) (s : BlockCache n) : M :=
  (s.mPool.queued.map fun job => f job .start).sum

/-- The queue changes, and one worker. -/
theorem outstanding_change {t : BlockCache n} (i : Fin n)
    (hworkers : ∀ k, k ≠ i → t.mPool.workers k = s.mPool.workers k ∧ t.pcs k = s.pcs k) :
    outstanding f t + (waitingJobs f s + load f (s.mPool.workers i) (s.pcs i)) =
      outstanding f s + (waitingJobs f t + load f (t.mPool.workers i) (t.pcs i)) := by
  have hsum := @ThreadPool.sum_change n M _ (fun k => load f (s.mPool.workers k) (s.pcs k))
    (fun k => load f (t.mPool.workers k) (t.pcs k)) i fun k hk => by
      rw [(hworkers k hk).1, (hworkers k hk).2]
  calc outstanding f t + (waitingJobs f s + load f (s.mPool.workers i) (s.pcs i))
      = waitingJobs f t + waitingJobs f s +
          (∑ k, load f (t.mPool.workers k) (t.pcs k) + load f (s.mPool.workers i) (s.pcs i)) := by
        rw [outstanding, waitingJobs, waitingJobs]
        ac_rfl
    _ = outstanding f s + (waitingJobs f t + load f (t.mPool.workers i) (t.pcs i)) := by
        rw [hsum, outstanding, waitingJobs, waitingJobs]
        ac_rfl

variable [IsRightCancelAdd M]

theorem outstanding_setPc (i : Fin n) (pc : Pc) {job : Job}
    (hrunning : s.mPool.workers i = .running job) :
    outstanding f (s.setPc i pc) + f job (s.pcs i) = outstanding f s + f job pc := by
  have hset := @outstanding_change n M _ f s (s.setPc i pc) i fun k hk =>
    ⟨rfl, setPc_of_ne s pc hk⟩
  have hworker : (s.setPc i pc).mPool.workers i = .running job := hrunning
  have hqueue : waitingJobs f (s.setPc i pc) = waitingJobs f s := rfl
  rw [setPc_self, hworker, hrunning, hqueue, add_comm (waitingJobs f s),
    add_comm (waitingJobs f s), ← add_assoc, ← add_assoc] at hset
  exact add_right_cancel hset

/-- What the pool does with a job. -/
theorem outstanding_enqueue {job : Job} {wakes : Option (Fin n)} {mPool : ThreadPool Job n}
    (h : s.mPool.Moves (.enqueue job wakes) mPool) :
    outstanding f { s with mPool := mPool } = outstanding f s + f job .start := by
  have hqueue : (List.map (fun job => f job .start)
      (s.mPool.mJobs ++ [some job]).reduceOption).sum = waitingJobs f s + f job .start := by
    rw [ThreadPool.queued_append, List.map_append, List.sum_append, waitingJobs]
    simp
  cases h with
  | wakes job i hopen hasleep =>
      have hset := @outstanding_change n M _ f s
        { s with mPool := { s.mPool.setWorker i .ready with mJobs := s.mPool.mJobs ++ [some job] } }
        i fun k hk => ⟨ThreadPool.setWorker_of_ne _ _ hk, rfl⟩
      have hworker : load f ((s.mPool.setWorker i .ready).workers i) (s.pcs i) = 0 := by
        rw [ThreadPool.setWorker_self]
        rfl
      have hold : load f (s.mPool.workers i) (s.pcs i) = 0 := by
        rw [hasleep]
        rfl
      have hnew : waitingJobs f { s with
          mPool := { s.mPool.setWorker i .ready with mJobs := s.mPool.mJobs ++ [some job] } } =
          waitingJobs f s + f job .start := hqueue
      rw [hold, hnew] at hset
      dsimp only at hset
      rw [hworker, add_zero, add_zero, add_comm (waitingJobs f s), ← add_assoc] at hset
      exact add_right_cancel hset
  | enqueue job hopen hnone =>
      rw [outstanding, outstanding]
      show (List.map _ (List.reduceOption (s.mPool.mJobs ++ [some job]))).sum +
        ∑ k, load f (s.mPool.workers k) (s.pcs k) = _
      rw [hqueue, waitingJobs]
      ac_rfl

theorem outstanding_take {i : Fin n} {job : Job} {mPool : ThreadPool Job n}
    (h : s.mPool.Moves (.take i job) mPool) :
    outstanding f ({ s with mPool := mPool }.setPc i .start) = outstanding f s := by
  cases h with
  | take _ _ rest hready hjobs =>
      have hset := @outstanding_change n M _ f s ({ s with
        mPool := { s.mPool.setWorker i (.running job) with mJobs := rest } }.setPc i .start) i
        fun k hk => ⟨ThreadPool.setWorker_of_ne _ _ hk, setPc_of_ne _ _ hk⟩
      have hworker : load f ((s.mPool.setWorker i (.running job)).workers i) .start =
          f job .start := by
        rw [ThreadPool.setWorker_self]
        rfl
      have hold : load f (s.mPool.workers i) (s.pcs i) = 0 := by
        rw [hready]
        rfl
      have hqueue : waitingJobs f s = f job .start +
          (rest.reduceOption.map fun job => f job .start).sum := by
        rw [waitingJobs, ThreadPool.queued, hjobs]
        rfl
      rw [hold, setPc_self, add_zero, hqueue] at hset
      have hnew : waitingJobs f ({ s with
          mPool := { s.mPool.setWorker i (.running job) with mJobs := rest } }.setPc i .start) =
          (rest.reduceOption.map fun job => f job .start).sum := rfl
      rw [hnew] at hset
      have hload : load f (({ s with
          mPool := { s.mPool.setWorker i (.running job) with mJobs := rest } }.setPc i
            .start).mPool.workers
            i) .start = f job .start := hworker
      rw [hload, add_comm (f job .start)] at hset
      exact add_right_cancel hset

theorem outstanding_finish {i : Fin n} {job : Job} {mPool : ThreadPool Job n}
    (h : s.mPool.Moves (.finish i job) mPool) :
    outstanding f { s with mPool := mPool } + f job (s.pcs i) = outstanding f s := by
  cases h with
  | finish _ _ hrunning =>
      have hset := @outstanding_change n M _ f s { s with mPool := s.mPool.setWorker i .ready } i
        fun k hk => ⟨ThreadPool.setWorker_of_ne _ _ hk, rfl⟩
      have hworker : load f ((s.mPool.setWorker i .ready).workers i) (s.pcs i) = 0 := by
        rw [ThreadPool.setWorker_self]
        rfl
      have hold : load f (s.mPool.workers i) (s.pcs i) = f job (s.pcs i) := by
        rw [hrunning]
        rfl
      have hqueue : waitingJobs f { s with mPool := s.mPool.setWorker i .ready } =
          waitingJobs f s := rfl
      rw [hold, hqueue] at hset
      dsimp only at hset
      rw [hworker, add_zero, add_comm (waitingJobs f s), ← add_assoc] at hset
      exact add_right_cancel hset

/-- Workers that wait or wake up have no job. -/
theorem outstanding_setWorker {i : Fin n} {w : Worker Job}
    (hold : load f (s.mPool.workers i) (s.pcs i) = 0) (hnew : load f w (s.pcs i) = 0) :
    outstanding f { s with mPool := s.mPool.setWorker i w } = outstanding f s := by
  have hset := @outstanding_change n M _ f s { s with mPool := s.mPool.setWorker i w } i
    fun k hk => ⟨ThreadPool.setWorker_of_ne _ _ hk, rfl⟩
  have hworker : load f ((s.mPool.setWorker i w).workers i) (s.pcs i) = 0 := by
    rw [ThreadPool.setWorker_self]
    exact hnew
  have hqueue : waitingJobs f { s with mPool := s.mPool.setWorker i w } = waitingJobs f s := rfl
  rw [hold, hqueue] at hset
  dsimp only at hset
  rw [hworker] at hset
  exact add_right_cancel hset

theorem outstanding_sleep {i : Fin n} {mPool : ThreadPool Job n}
    (h : s.mPool.Moves (.sleep i) mPool) :
    outstanding f { s with mPool := mPool } = outstanding f s := by
  cases h with
  | sleep _ hready => exact outstanding_setWorker (by rw [hready]; rfl) rfl

theorem outstanding_wake {i : Fin n} {mPool : ThreadPool Job n}
    (h : s.mPool.Moves (.wake i) mPool) :
    outstanding f { s with mPool := mPool } = outstanding f s := by
  cases h with
  | wake _ hasleep => exact outstanding_setWorker (by rw [hasleep]; rfl) rfl

end Outstanding

/-- A job of a call that has not counted down yet. -/
def uncounted (c : Nat) (job : Job) (pc : Pc) : Nat :=
  match pc with
  | .counted => 0
  | _ => if job.call = c then 1 else 0

/-- The block that a job of a call has yet to deliver. -/
def owed (c : Nat) (need : List Block) (job : Job) (pc : Pc) : Multiset Block :=
  match pc with
  | .delivered => 0
  | .counted => 0
  | _ => if job.call = c then (need[job.index]?.toList : Multiset Block) else 0

/-- How many jobs a call has queued. -/
def Call.done (call : Call) : Nat :=
  match call.phase with
  | .enqueuing k => k
  | _ => call.need.length

/-- What a call counts and what it has delivered agree with what is outstanding. -/
structure CallKept (s : BlockCache n) (c : Nat) (call : Call) : Prop where
  remain : call.remain = (call.need.drop call.done).length + outstanding (uncounted c) s
  blocks : (call.delivered.map Prod.fst : Multiset Block) + call.need.drop call.done +
    outstanding (owed c call.need) s = call.blocks
  enqueuing : ∀ k, call.phase = .enqueuing k → call.remain = call.need.length ∧ call.need ≠ []
  waiting : call.phase = .waiting → 0 < call.remain

/-- Every job is for a block that its call needs. -/
def Known (s : BlockCache n) : Prop :=
  ∀ job, s.mPool.Holds job → ∃ call, s.calls job.call = some call ∧ job.index < call.need.length

structure Kept (s : BlockCache n) : Prop where
  known : s.Known
  calls : ∀ c call, s.calls c = some call → CallKept s c call

section Kept

variable {content : String → Block → Buffer} {s t : BlockCache n} {c : Nat} {call call' : Call}
  {job : Job} {pc : Pc}

theorem uncounted_of_ne (h : job.call ≠ c) : uncounted c job pc = 0 := by
  cases pc <;> simp [uncounted, h]

theorem owed_of_ne {need : List Block} (h : job.call ≠ c) : owed c need job pc = 0 := by
  cases pc <;> simp [owed, h]

/-- A call that has not begun has no jobs. -/
theorem Known.outstanding_eq_zero {M : Type} [AddCommMonoid M] {f : Job → Pc → M} (h : s.Known)
    (hfresh : s.calls c = none) (hf : ∀ job pc, job.call ≠ c → f job pc = 0) :
    outstanding f s = 0 := by
  have hne : ∀ job, s.mPool.Holds job → job.call ≠ c := by
    intro job hjob heq
    obtain ⟨call, hcall, -⟩ := h job hjob
    rw [heq, hfresh] at hcall
    cases hcall
  apply BlockCache.outstanding_eq_zero
  · intro job hjob
    exact hf job .start (hne job (Or.inl hjob))
  · intro i job hi
    exact hf job (s.pcs i) (hne job (Or.inr ⟨i, hi⟩))

/-- Calls come and move on, but what they need stays. -/
theorem Known.mono (h : s.Known) (hholds : ∀ job, t.mPool.Holds job → s.mPool.Holds job)
    (hcalls : ∀ c call, s.calls c = some call →
      ∃ call', t.calls c = some call' ∧ call'.need = call.need) : t.Known := by
  intro job hjob
  obtain ⟨call, hcall, hindex⟩ := h job (hholds job hjob)
  obtain ⟨call', hcall', hneed⟩ := hcalls job.call call hcall
  exact ⟨call', hcall', hneed ▸ hindex⟩

theorem calls_setCall (call' : Call) (hcall : s.calls c = some call)
    (hneed : call'.need = call.need) :
    ∀ d old, s.calls d = some old →
      ∃ new, (s.setCall c call').calls d = some new ∧ new.need = old.need := by
  intro d old hold
  by_cases hd : d = c
  · subst hd
    rw [hcall] at hold
    cases hold
    exact ⟨call', setCall_self s d call', hneed⟩
  · exact ⟨old, (setCall_of_ne s call' hd).trans hold, rfl⟩

/-- What is outstanding for a call is the same in both states. -/
structure SameFor (s t : BlockCache n) (c : Nat) : Prop where
  uncounted : outstanding (uncounted c) t = outstanding (uncounted c) s
  owed : ∀ need, outstanding (owed c need) t = outstanding (owed c need) s

theorem CallKept.congr (h : CallKept s c call) (hsame : SameFor s t c) : CallKept t c call where
  remain := by rw [hsame.uncounted, h.remain]
  blocks := by rw [hsame.owed, h.blocks]
  enqueuing := h.enqueuing
  waiting := h.waiting

/-- One call changes, and the jobs of no other one. -/
theorem Kept.setCall (hs : Kept s) (hknown : t.Known)
    (hcalls : t.calls = Function.update s.calls c (some call'))
    (hother : ∀ d, d ≠ c → SameFor s t d) (hself : CallKept t c call') : Kept t := by
  refine ⟨hknown, fun d new hnew => ?_⟩
  rw [hcalls] at hnew
  by_cases hd : d = c
  · subst hd
    rw [Function.update_self] at hnew
    cases hnew
    exact hself
  · rw [Function.update_of_ne hd] at hnew
    exact (hs.calls d new hnew).congr (hother d hd)

/-- No call changes. -/
theorem Kept.congr (hs : Kept s) (hholds : ∀ job, t.mPool.Holds job → s.mPool.Holds job)
    (hcalls : t.calls = s.calls) (hsame : ∀ d, SameFor s t d) : Kept t := by
  refine ⟨hs.known.mono hholds fun c call hcall => ⟨call, hcalls ▸ hcall, rfl⟩,
    fun d call hcall => ?_⟩
  rw [hcalls] at hcall
  exact (hs.calls d call hcall).congr (hsame d)

/-- A job has moved on, and nothing else that is outstanding has changed. -/
def Advances (s t : BlockCache n) (job : Job) (pc pc' : Pc) : Prop :=
  ∀ (M : Type) [AddCommMonoid M] [IsRightCancelAdd M] (f : Job → Pc → M),
    outstanding f t + f job pc = outstanding f s + f job pc'

theorem Advances.sameFor {pc' : Pc} (h : Advances s t job pc pc')
    (hcounted : uncounted c job pc' = uncounted c job pc)
    (howed : ∀ need, owed c need job pc' = owed c need job pc) : SameFor s t c := by
  refine ⟨?_, fun need => ?_⟩
  · have hsum := h Nat (uncounted c)
    rw [hcounted] at hsum
    exact add_right_cancel hsum
  · have hsum := h (Multiset Block) (owed c need)
    rw [howed] at hsum
    exact add_right_cancel hsum

/-- Other calls do not count the job. -/
theorem Advances.sameFor_of_ne {pc' : Pc} (h : Advances s t job pc pc') (hne : job.call ≠ c) :
    SameFor s t c :=
  h.sameFor (by rw [uncounted_of_ne hne, uncounted_of_ne hne]) fun need => by
    rw [owed_of_ne hne, owed_of_ne hne]

theorem CallKept.deliver {b : Block} (h : CallKept s job.call call)
    (hadv : Advances s t job pc .delivered) (hpc : uncounted job.call job pc = 1)
    (howed : owed job.call call.need job pc = {b}) (buf : Buffer) :
    CallKept t job.call (call.deliver b buf) where
  remain := by
    have hsum := hadv Nat (uncounted job.call)
    have hone : uncounted job.call job .delivered = 1 := if_pos rfl
    rw [hpc, hone] at hsum
    have hremain := h.remain
    rw [← add_right_cancel hsum] at hremain
    exact hremain
  blocks := by
    have hsum := hadv (Multiset Block) (owed job.call call.need)
    have hnone : owed job.call call.need job .delivered = 0 := rfl
    rw [howed, hnone, add_zero] at hsum
    have hblocks := h.blocks
    rw [← hsum] at hblocks
    have hnew : (((call.delivered ++ [(b, buf)]).map Prod.fst : List Block) : Multiset Block) =
        call.delivered.map Prod.fst + {b} := by
      rw [List.map_append, ← Multiset.coe_add]
      rfl
    calc (((call.delivered ++ [(b, buf)]).map Prod.fst : List Block) : Multiset Block) +
          call.need.drop call.done + outstanding (owed job.call call.need) t
        = call.delivered.map Prod.fst + call.need.drop call.done +
            (outstanding (owed job.call call.need) t + {b}) := by
          rw [hnew]
          ac_rfl
      _ = call.blocks := hblocks
  enqueuing := h.enqueuing
  waiting := h.waiting

theorem CallKept.countDown (h : CallKept s job.call call)
    (hadv : Advances s t job .delivered .counted)
    (hphase : call.phase = .waiting ∨ call.phase = .woken) :
    CallKept t job.call call.countDown := by
  have hdone : call.done = call.need.length := by
    rcases hphase with hphase | hphase <;> rw [Call.done, hphase]
  have hdone' : call.countDown.done = call.need.length := by
    rw [Call.done, Call.countDown]
    dsimp only
    split
    · rename_i k hk
      split at hk
      · cases hk
      · rcases hphase with hphase | hphase <;> rw [hphase] at hk <;> cases hk
    · rfl
  have hone : uncounted job.call job .delivered = 1 := if_pos rfl
  have hzero : uncounted job.call job .counted = 0 := rfl
  have hsum := hadv Nat (uncounted job.call)
  have hsame := hadv (Multiset Block) (owed job.call call.need)
  have hremain := h.remain
  have hblocks := h.blocks
  rw [hone, hzero] at hsum
  rw [hdone, List.drop_length] at hremain hblocks
  refine ⟨?_, ?_, fun k hk => ?_, fun hw => ?_⟩
  · rw [hdone']
    show call.remain - 1 = (call.need.drop call.need.length).length + _
    rw [List.drop_length, hremain]
    simp only [List.length_nil]
    omega
  · rw [hdone']
    show (call.delivered.map Prod.fst : Multiset Block) + call.need.drop call.need.length +
      outstanding (owed job.call call.need) t = call.blocks
    rw [List.drop_length, ← hblocks]
    exact congrArg _ (add_right_cancel hsame)
  · rw [Call.countDown] at hk
    dsimp only at hk
    split at hk
    · cases hk
    · rcases hphase with hphase | hphase <;> rw [hphase] at hk <;> cases hk
  · rw [Call.countDown] at hw ⊢
    dsimp only at hw ⊢
    split at hw
    · cases hw
    · rename_i hnot
      exact Nat.pos_of_ne_zero fun hz => hnot ⟨hz, hw⟩

theorem advances_setPc {i : Fin n} {pc' : Pc} (hrunning : s.mPool.workers i = .running job)
    (hpool : t.mPool = s.mPool) (hpcs : t.pcs = Function.update s.pcs i pc') :
    Advances s t job (s.pcs i) pc' := by
  intro M _ _ f
  have hset : outstanding f (s.setPc i pc') + f job (s.pcs i) = outstanding f s + f job pc' :=
    outstanding_setPc i pc' hrunning
  have heq : outstanding f t = outstanding f (s.setPc i pc') := by
    rw [outstanding, outstanding, hpool, hpcs]
    rfl
  rwa [heq]

/-- A job does its next section. -/
theorem Kept.work {i : Fin n} {b : Block} (hs : Kept s)
    (hrunning : s.mPool.workers i = .running job) (hcall : s.calls job.call = some call)
    (hb : call.need[job.index]? = some b) (hjob : JobMoves content s i job call b (s.pcs i) t) :
    Kept t := by
  have hkept := hs.calls job.call call hcall
  -- A section that neither delivers nor counts down leaves all the calls as they are.
  have hquiet : ∀ {pc' : Pc} {m : Map},
      uncounted job.call job pc' = uncounted job.call job (s.pcs i) →
      (∀ need, owed job.call need job pc' = owed job.call need job (s.pcs i)) →
      Kept ({ s with mMap := m }.setPc i pc') := by
    intro pc' m hcounted howed
    have hadv : Advances s ({ s with mMap := m }.setPc i pc') job (s.pcs i) pc' :=
      advances_setPc hrunning rfl rfl
    refine hs.congr (fun _ hholds => hholds) rfl fun d => ?_
    by_cases hd : job.call = d
    · subst hd
      exact hadv.sameFor hcounted howed
    · exact hadv.sameFor_of_ne hd
  -- The others leave all but the call of the job as they are.
  have hloud : ∀ {pc' : Pc} {m : Map} {call' : Call}, call'.need = call.need →
      (∀ t, Advances s t job (s.pcs i) pc' → CallKept t job.call call') →
      Kept (({ s with mMap := m }.setCall job.call call').setPc i pc') := by
    intro pc' m call' hneed hself
    have hadv : Advances s (({ s with mMap := m }.setCall job.call call').setPc i pc') job
        (s.pcs i) pc' := advances_setPc hrunning rfl rfl
    apply hs.setCall _ rfl (fun d hd => hadv.sameFor_of_ne fun heq => hd heq.symm) (hself _ hadv)
    exact hs.known.mono (fun _ hholds => hholds) fun c old hold =>
      calls_setCall call' hcall hneed c old hold
  have howes : owed job.call call.need job .start = {b} := by
    show (if job.call = job.call then ((call.need[job.index]?).toList : Multiset Block) else 0) = _
    rw [if_pos rfl, hb]
    rfl
  have hone : uncounted job.call job .start = 1 := if_pos rfl
  generalize hpc : s.pcs i = pc at hjob hquiet hloud
  cases hjob with
  | hit hfind hfound => exact hloud rfl fun t hadv => hkept.deliver hadv hone howes _
  | miss hfind hfound => exact hquiet rfl fun _ => rfl
  | decompress => exact hquiet rfl fun _ => rfl
  | add nbuf hadd => exact hquiet rfl fun _ => rfl
  | callback nbuf => exact hloud rfl fun t hadv => hkept.deliver hadv hone howes _
  | count hphase => exact hloud rfl fun t hadv => hkept.countDown hadv hphase

theorem length_drop_succ {k : Nat} {l : List Block} (hk : k < l.length) :
    (l.drop k).length = (l.drop (k + 1)).length + 1 := by
  rw [List.length_drop, List.length_drop]
  omega

/-- A call queues its next job. -/
theorem Kept.enqueue {k : Nat} {wakes : Option (Fin n)} {mPool : ThreadPool Job n} (hs : Kept s)
    (hcall : s.calls c = some call) (hphase : call.phase = .enqueuing k)
    (hk : k < call.need.length) (hpool : s.mPool.Moves (.enqueue ⟨c, k⟩ wakes) mPool) :
    Kept ({ s with mPool := mPool }.setCall c { call with phase := .enqueuing (k + 1) }) := by
  have hsum : ∀ {M : Type} [AddCommMonoid M] [IsRightCancelAdd M] (f : Job → Pc → M),
      outstanding f
        ({ s with mPool := mPool }.setCall c { call with phase := .enqueuing (k + 1) }) =
        outstanding f s + f ⟨c, k⟩ .start := fun f => outstanding_enqueue hpool
  have hkept := hs.calls c call hcall
  have hdone : call.done = k := by rw [Call.done, hphase]
  have hremain := hkept.remain
  have hblocks := hkept.blocks
  rw [hdone] at hremain hblocks
  apply hs.setCall _ rfl
  · intro d hd
    have hne : (⟨c, k⟩ : Job).call ≠ d := fun heq => hd heq.symm
    refine ⟨?_, fun need => ?_⟩
    · rw [hsum, uncounted_of_ne hne, add_zero]
    · rw [hsum, owed_of_ne hne, add_zero]
  · refine ⟨?_, ?_, fun _ _ => hkept.enqueuing k hphase, nofun⟩
    · have hone : uncounted c ⟨c, k⟩ .start = 1 := if_pos rfl
      show call.remain = (call.need.drop (k + 1)).length + _
      rw [hsum, hone, hremain, length_drop_succ hk]
      omega
    · have howes : owed c call.need ⟨c, k⟩ .start = {call.need[k]} := by
        show (if c = c then ((call.need[k]?).toList : Multiset Block) else 0) = _
        rw [if_pos rfl, List.getElem?_eq_getElem hk]
        rfl
      have hdrop : (call.need.drop k : Multiset Block) =
          {call.need[k]} + (call.need.drop (k + 1) : Multiset Block) := by
        rw [List.drop_eq_getElem_cons hk, ← Multiset.cons_coe, Multiset.singleton_add]
      show (call.delivered.map Prod.fst : Multiset Block) + call.need.drop (k + 1) +
        outstanding (owed c call.need) _ = call.blocks
      rw [hsum, howes, ← hblocks, hdrop]
      ac_rfl
  · intro job hjob
    obtain hold | ⟨wakes', heq⟩ := ThreadPool.Holds.of_moves hpool hjob
    · obtain ⟨old, hold, hindex⟩ := hs.known job hold
      obtain ⟨new, hnew, hneed⟩ :=
        calls_setCall { call with phase := .enqueuing (k + 1) } hcall rfl job.call old hold
      exact ⟨new, hnew, hneed ▸ hindex⟩
    · cases heq
      exact ⟨_, setCall_self _ c _, hk⟩

/-- What is cached and what is needed are all the blocks. -/
theorem scan_blocks {file : String} {m m' : Map} {blocks need : List Block}
    {hits : List (Block × Buffer)} (h : scan file m blocks = (m', hits, need)) :
    (hits.map Prod.fst : Multiset Block) + need = blocks := by
  induction blocks generalizing m m' hits need with
  | nil =>
      cases h
      rfl
  | cons b bs ih =>
      rw [scan] at h
      dsimp only at h
      have hrest := ih (m := (m.find (keyOf file b)).2) rfl
      split at h
      · cases h
        rw [List.map_cons, ← Multiset.cons_coe, ← Multiset.cons_coe, ← hrest, Multiset.cons_add]
      · cases h
        rw [← Multiset.cons_coe, ← Multiset.cons_coe, ← hrest, Multiset.add_cons]

theorem Kept.scan {file : String} {it : List Block} {max : Int} {m : Map}
    {hits : List (Block × Buffer)} {need : List Block} (hs : Kept s) (hfresh : s.calls c = none)
    (hscan : BlockCache.scan file s.mMap (OpenCompressedFile.scanned it max) = (m, hits, need)) :
    Kept ({ s with mMap := m }.setCall c
      { file := file
        blocks := OpenCompressedFile.scanned it max
        need := need
        remain := need.length
        phase := if need = [] then .returned else .enqueuing 0
        delivered := hits }) := by
  have hnone : outstanding (uncounted c) s = 0 :=
    hs.known.outstanding_eq_zero hfresh fun _ _ => uncounted_of_ne
  have hnothing : outstanding (owed c need) s = 0 :=
    hs.known.outstanding_eq_zero hfresh fun _ _ => owed_of_ne
  refine hs.setCall (fun job hjob => ?_) rfl (fun d hd => ⟨rfl, fun _ => rfl⟩) ?_
  · obtain ⟨call, hcall, hindex⟩ := hs.known job hjob
    have hne : job.call ≠ c := by
      intro heq
      rw [heq, hfresh] at hcall
      cases hcall
    exact ⟨call, (setCall_of_ne _ _ hne).trans hcall, hindex⟩
  · by_cases hneed : need = []
    · rw [if_pos hneed]
      refine ⟨?_, ?_, nofun, nofun⟩
      · show need.length = (need.drop need.length).length + outstanding (uncounted c) s
        rw [hnone, List.drop_length, hneed]
        rfl
      · show (hits.map Prod.fst : Multiset Block) + need.drop need.length +
          outstanding (owed c need) s = _
        rw [hnothing, List.drop_length, add_zero, ← scan_blocks hscan, hneed]
    · rw [if_neg hneed]
      refine ⟨?_, ?_, fun _ _ => ⟨rfl, hneed⟩, nofun⟩
      · show need.length = need.length + outstanding (uncounted c) s
        rw [hnone, add_zero]
      · show (hits.map Prod.fst : Multiset Block) + need + outstanding (owed c need) s = _
        rw [hnothing, add_zero, scan_blocks hscan]

/-- A call moves on to a phase in which no job is left to be queued. -/
theorem Kept.changePhase {phase : Phase} (hs : Kept s) (hcall : s.calls c = some call)
    (hdone : call.done = call.need.length) (hphase : ∀ k, phase ≠ .enqueuing k)
    (hwaiting : phase = .waiting → 0 < call.remain) :
    Kept (s.setCall c { call with phase := phase }) := by
  have hkept := hs.calls c call hcall
  have hdone' : { call with phase := phase }.done = call.done := by
    rw [hdone, Call.done]
    cases phase with
    | enqueuing k => exact absurd rfl (hphase k)
    | _ => rfl
  refine hs.setCall (hs.known.mono (fun _ hholds => hholds) (calls_setCall _ hcall rfl)) rfl
    (fun d hd => ⟨rfl, fun _ => rfl⟩) ?_
  refine ⟨?_, ?_, fun k hk => absurd hk (hphase k), hwaiting⟩
  · rw [hdone']
    exact hkept.remain
  · rw [hdone']
    exact hkept.blocks

theorem Kept.start (maxSize : UInt64) : Kept (new n maxSize) where
  known := by
    rintro job (hjob | ⟨i, hi⟩)
    · cases hjob
    · cases hi
  calls := nofun

theorem Kept.moves {e : Event n} (hs : Kept s) (hm : Moves content s e t) : Kept t := by
  cases hm with
  | scan hfresh hscan => exact hs.scan hfresh hscan
  | enqueue hcall hphase hk hpool => exact hs.enqueue hcall hphase hk hpool
  | wait hcall hphase =>
      obtain ⟨hremain, hneed⟩ := (hs.calls _ _ hcall).enqueuing _ hphase
      refine hs.changePhase hcall ?_ nofun fun _ => ?_
      · rw [Call.done, hphase]
      · rw [hremain]
        exact List.length_pos_iff.mpr hneed
  | resume hcall hphase =>
      refine hs.changePhase hcall ?_ nofun nofun
      rw [Call.done, hphase]
  | spurious hcall hphase =>
      refine hs.changePhase hcall ?_ nofun nofun
      rw [Call.done, hphase]
  | sleep hpool =>
      refine hs.congr (fun job hjob => ?_) rfl fun d =>
        ⟨outstanding_sleep hpool, fun _ => outstanding_sleep hpool⟩
      exact (ThreadPool.Holds.of_moves hpool hjob).resolve_right nofun
  | wake hpool =>
      refine hs.congr (fun job hjob => ?_) rfl fun d =>
        ⟨outstanding_wake hpool, fun _ => outstanding_wake hpool⟩
      exact (ThreadPool.Holds.of_moves hpool hjob).resolve_right nofun
  | take hpool =>
      refine hs.congr (fun job hjob => ?_) rfl fun d =>
        ⟨outstanding_take hpool, fun _ => outstanding_take hpool⟩
      exact (ThreadPool.Holds.of_moves hpool hjob).resolve_right nofun
  | work hrunning hcall hb hjob => exact hs.work hrunning hcall hb hjob
  | throws hrunning hpc => exact hs.congr (fun _ hholds => hholds) rfl fun _ => ⟨rfl, fun _ => rfl⟩
  | finish hpc hpool =>
      refine hs.congr (fun job hjob => ?_) rfl fun d => ⟨?_, fun need => ?_⟩
      · exact (ThreadPool.Holds.of_moves hpool hjob).resolve_right nofun
      · have hsum := @outstanding_finish n Nat _ (uncounted d) s _ _ _ _ hpool
        rw [hpc] at hsum
        exact hsum
      · have hsum := @outstanding_finish n (Multiset Block) _ (owed d need) s _ _ _ _ hpool
        rw [hpc] at hsum
        exact (add_zero _).symm.trans hsum

theorem exec_kept {maxSize : UInt64} {es : List (Event n)}
    (h : exec (step content) (new n maxSize) es = some s) : Kept s :=
  exec_induction (P := fun _ s => Kept s) (.start maxSize)
    (fun _ _ _ _ _ hs hstep => hs.moves (step_moves hstep).2) h

end Kept

end BlockCache

end Lzopfs
