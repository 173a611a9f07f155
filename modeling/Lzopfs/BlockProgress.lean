import Lzopfs.BlockContent

/-!
# Every call returns

What the calls and the jobs still have to do is a number, and every step but the arrival of
a call and a wakeup without a signal lowers it. As long as a call has not returned, one of
these steps can be taken: the call itself moves on, or a worker does, or the call that the
worker has to wait for.
-/

namespace Lzopfs

open Verify

namespace BlockCache

variable {n : Nat}

/-- How many steps a job has to take, the one that frees its worker included. -/
def Pc.left : Pc → Nat
  | .start => 7
  | .missed => 6
  | .decompressed _ => 5
  | .added _ => 4
  | .delivered => 3
  | .counted => 2

/-- How many steps a call and the jobs it will queue have to take. -/
def Call.left (call : Call) : Nat :=
  match call.phase with
  | .enqueuing k => (call.need.length - k) * 9 + 3
  | .waiting => 2
  | .woken => 1
  | .returned => 0

/-- A worker that is awake may go to sleep. -/
def awake (w : Worker Job) : Nat :=
  match w with
  | .ready => 1
  | _ => 0

/-- What some calls have to do. -/
def callsLeft (cs : Finset Nat) (s : BlockCache n) : Nat :=
  ∑ c ∈ cs, (s.calls c).elim 0 Call.left

/-- What is left to do, when all calls are among some. -/
def left (cs : Finset Nat) (s : BlockCache n) : Nat :=
  outstanding (fun _ pc => pc.left) s + s.mPool.tally awake + callsLeft cs s

/-- A step that is not the arrival of a call, an exception, or a wakeup without a signal. -/
def Event.Onward : Event n → Prop
  | .scan _ _ _ _ => False
  | .spurious _ => False
  | .wake _ => False
  | .throws _ _ => False
  | _ => True

section Measure

variable {content : String → Block → Buffer} {s t : BlockCache n} {e : Event n} {c : Nat}
  {call call' : Call} {cs : Finset Nat} {job : Job} {i : Fin n}

theorem callsLeft_update (hc : c ∈ cs) (hcall : s.calls c = some call)
    (hcalls : t.calls = Function.update s.calls c (some call')) :
    callsLeft cs t + call.left = callsLeft cs s + call'.left := by
  have hothers : ∑ d ∈ cs.erase c, (t.calls d).elim 0 Call.left =
      ∑ d ∈ cs.erase c, (s.calls d).elim 0 Call.left := by
    apply Finset.sum_congr rfl
    intro d hd
    rw [hcalls, Function.update_of_ne (Finset.ne_of_mem_erase hd)]
  rw [callsLeft, callsLeft, ← Finset.add_sum_erase cs _ hc,
    ← Finset.add_sum_erase cs (fun d => (s.calls d).elim 0 Call.left) hc, hothers, hcalls, hcall,
    Function.update_self]
  dsimp only [Option.elim_some]
  omega

/-- All the calls there are. -/
def Within (cs : Finset Nat) (s : BlockCache n) : Prop := ∀ c, (s.calls c).isSome = true → c ∈ cs

theorem Within.mem (h : Within cs s) (hcall : s.calls c = some call) : c ∈ cs :=
  h c (by rw [hcall]; rfl)

theorem Within.update (h : Within cs s) (hcall : s.calls c = some call)
    (hcalls : t.calls = Function.update s.calls c (some call')) : Within cs t := by
  intro d hd
  by_cases hdc : d = c
  · rw [hdc]
    exact h.mem hcall
  · rw [hcalls, Function.update_of_ne hdc] at hd
    exact h d hd

theorem Call.left_deliver (call : Call) (b : Block) (buf : Buffer) :
    (call.deliver b buf).left = call.left := rfl

theorem Call.left_countDown (call : Call) : call.countDown.left ≤ call.left := by
  by_cases hzero : call.remain - 1 = 0 ∧ call.phase = .waiting
  · have hphase : call.countDown.phase = .woken := if_pos hzero
    rw [Call.left, Call.left, hphase, hzero.2]
    exact Nat.le_succ 1
  · have hphase : call.countDown.phase = call.phase := if_neg hzero
    rw [Call.left, hphase]
    exact Nat.le_refl _

/-- A job does its next section. -/
theorem left_work {b : Block} (hin : Within cs s) (hrunning : s.mPool.workers i = .running job)
    (hcall : s.calls job.call = some call) (hjob : JobMoves content s i job call b (s.pcs i) t) :
    Within cs t ∧ left cs t < left cs s := by
  have hquiet : ∀ {pc' : Pc} {m : Map}, pc'.left < (s.pcs i).left →
      Within cs ({ s with mMap := m }.setPc i pc') ∧
        left cs ({ s with mMap := m }.setPc i pc') < left cs s := by
    intro pc' m hlt
    have hadv := @advances_setPc n s ({ s with mMap := m }.setPc i pc') job i pc' hrunning rfl rfl
      Nat _ _ fun _ pc => pc.left
    have htally : ({ s with mMap := m }.setPc i pc').mPool.tally awake = s.mPool.tally awake := rfl
    have hcalls : callsLeft cs ({ s with mMap := m }.setPc i pc') = callsLeft cs s := rfl
    refine ⟨hin, ?_⟩
    rw [left, left, htally, hcalls]
    omega
  have hloud : ∀ {pc' : Pc} {m : Map} {call' : Call}, pc'.left < (s.pcs i).left →
      call'.left ≤ call.left →
      Within cs (({ s with mMap := m }.setCall job.call call').setPc i pc') ∧
        left cs (({ s with mMap := m }.setCall job.call call').setPc i pc') < left cs s := by
    intro pc' m call' hlt hle
    have hadv := @advances_setPc n s (({ s with mMap := m }.setCall job.call call').setPc i pc')
      job i pc' hrunning rfl rfl Nat _ _ fun _ pc => pc.left
    have htally : (({ s with mMap := m }.setCall job.call call').setPc i pc').mPool.tally awake =
        s.mPool.tally awake := rfl
    have hcalls := @callsLeft_update n s
      (({ s with mMap := m }.setCall job.call call').setPc i pc') job.call call call' cs
      (hin.mem hcall) hcall rfl
    refine ⟨hin.update hcall rfl, ?_⟩
    rw [left, left, htally]
    omega
  generalize s.pcs i = pc at hjob hquiet hloud
  cases hjob with
  | hit hfind hfound => exact hloud (by decide) (call.left_deliver _ _).le
  | miss hfind hfound => exact hquiet (by decide)
  | decompress => exact hquiet (Nat.lt_succ_self 5)
  | add nbuf hadd => exact hquiet (Nat.lt_succ_self 4)
  | callback nbuf => exact hloud (Nat.lt_succ_self 3) (call.left_deliver _ _).le
  | count hphase => exact hloud (by decide) call.left_countDown

/-- A call enters its next phase. -/
theorem left_phase {phase : Phase} (hin : Within cs s) (hcall : s.calls c = some call)
    (hlt : ({ call with phase := phase } : Call).left < call.left) :
    Within cs (s.setCall c { call with phase := phase }) ∧
      left cs (s.setCall c { call with phase := phase }) < left cs s := by
  have hcalls := @callsLeft_update n s (s.setCall c { call with phase := phase }) c call
    { call with phase := phase } cs (hin.mem hcall) hcall rfl
  have hsame : outstanding (fun _ pc => pc.left) (s.setCall c { call with phase := phase }) =
      outstanding (fun _ pc => pc.left) s := rfl
  have htally : (s.setCall c { call with phase := phase }).mPool.tally awake =
      s.mPool.tally awake := rfl
  refine ⟨hin.update hcall rfl, ?_⟩
  rw [left, left, hsame, htally]
  omega

/-- A call queues its next job. -/
theorem left_enqueue {k : Nat} {wakes : Option (Fin n)} {mPool : ThreadPool Job n}
    (hin : Within cs s) (hcall : s.calls c = some call) (hphase : call.phase = .enqueuing k)
    (hk : k < call.need.length) (hpool : s.mPool.Moves (.enqueue ⟨c, k⟩ wakes) mPool) :
    Within cs ({ s with mPool := mPool }.setCall c { call with phase := .enqueuing (k + 1) }) ∧
      left cs ({ s with mPool := mPool }.setCall c { call with phase := .enqueuing (k + 1) }) <
        left cs s := by
  have hcalls := @callsLeft_update n s
    ({ s with mPool := mPool }.setCall c { call with phase := .enqueuing (k + 1) }) c call
    { call with phase := .enqueuing (k + 1) } cs (hin.mem hcall) hcall rfl
  have hout : outstanding (fun _ pc => pc.left)
      ({ s with mPool := mPool }.setCall c { call with phase := .enqueuing (k + 1) }) =
      outstanding (fun _ pc => pc.left) s + 7 := outstanding_enqueue hpool
  have htally : mPool.tally awake ≤ s.mPool.tally awake + 1 := by
    cases hpool with
    | wakes job i hopen hasleep =>
        have hset := ThreadPool.tally_setWorker awake s.mPool i .ready
        rw [hasleep] at hset
        exact Nat.le_of_eq hset
    | enqueue => exact Nat.le_succ _
  have hpool' : ({ s with mPool := mPool }.setCall c
      { call with phase := .enqueuing (k + 1) }).mPool = mPool := rfl
  have hold : call.left = (call.need.length - k) * 9 + 3 := by rw [Call.left, hphase]
  have hnew : ({ call with phase := .enqueuing (k + 1) } : Call).left =
      (call.need.length - (k + 1)) * 9 + 3 := rfl
  refine ⟨hin.update hcall rfl, ?_⟩
  rw [left, left, hout, hpool']
  omega

/-- A worker goes to sleep, takes a job, or has done one. -/
theorem left_pool (mPool : ThreadPool Job n) (pcs : Fin n → Pc) (hin : Within cs s)
    (h : outstanding (fun _ pc => pc.left) { s with mPool := mPool, pcs := pcs } +
        mPool.tally awake <
      outstanding (fun _ pc => pc.left) s + s.mPool.tally awake) :
    Within cs { s with mPool := mPool, pcs := pcs } ∧
      left cs { s with mPool := mPool, pcs := pcs } < left cs s :=
  ⟨hin, Nat.add_lt_add_right h _⟩

/-- Whoever moves on leaves less to do. -/
theorem left_moves (hin : Within cs s) (hm : Moves content s e t) (he : e.Onward) :
    Within cs t ∧ left cs t < left cs s := by
  cases hm with
  | scan => exact absurd he id
  | enqueue hcall hphase hk hpool => exact left_enqueue hin hcall hphase hk hpool
  | @wait c call hcall hphase =>
      apply left_phase hin hcall
      have hold : call.left = (call.need.length - call.need.length) * 9 + 3 := by
        rw [Call.left, hphase]
      rw [hold, Nat.sub_self]
      exact Nat.lt_succ_self 2
  | @resume c call hcall hphase =>
      apply left_phase hin hcall
      have hold : call.left = 1 := by rw [Call.left, hphase]
      rw [hold]
      exact Nat.zero_lt_one
  | spurious => exact absurd he id
  | @sleep i mPool hpool =>
      apply left_pool mPool s.pcs hin
      have hout := @outstanding_sleep n Nat _ (fun _ pc => pc.left) s _ i mPool hpool
      cases hpool with
      | sleep _ hready =>
          have hset := ThreadPool.tally_setWorker awake s.mPool i .asleep
          rw [hready] at hset
          simp only [awake] at hset
          omega
  | wake => exact absurd he id
  | @take i job mPool hpool =>
      apply left_pool mPool (Function.update s.pcs i .start) hin
      have hout : outstanding _ ({ s with mPool := mPool }.setPc i .start) = _ :=
        @outstanding_take n Nat _ (fun _ pc => pc.left) s _ i job mPool hpool
      rw [setPc] at hout
      cases hpool with
      | take _ _ rest hready =>
          have hset := ThreadPool.tally_setWorker awake s.mPool i (.running job)
          rw [hready] at hset
          simp only [awake, ThreadPool.tally] at hset hout ⊢
          omega
  | work hrunning hcall hb hjob => exact left_work hin hrunning hcall hjob
  | throws => exact absurd he id
  | @finish i job mPool hpc hpool =>
      apply left_pool mPool s.pcs hin
      have hout : _ + (s.pcs i).left = _ :=
        @outstanding_finish n Nat _ (fun _ pc => pc.left) s _ i job mPool hpool
      have hcounted : (s.pcs i).left = 2 := by rw [hpc]; rfl
      cases hpool with
      | finish _ _ hrunning =>
          have hset := ThreadPool.tally_setWorker awake s.mPool i .ready
          rw [hrunning] at hset
          simp only [awake] at hset
          omega

/-- Only the arrival of a call adds to the calls. -/
theorem within_moves (hin : Within cs s) (hm : Moves content s e t) : ∃ cs, Within cs t := by
  cases hm with
  | @scan c =>
      refine ⟨insert c cs, fun d hd => ?_⟩
      by_cases hdc : d = c
      · exact hdc ▸ Finset.mem_insert_self c cs
      · rw [setCall_of_ne _ _ hdc] at hd
        exact Finset.mem_insert_of_mem (hin d hd)
  | enqueue hcall => exact ⟨cs, hin.update hcall rfl⟩
  | wait hcall => exact ⟨cs, hin.update hcall rfl⟩
  | resume hcall => exact ⟨cs, hin.update hcall rfl⟩
  | spurious hcall => exact ⟨cs, hin.update hcall rfl⟩
  | work hrunning hcall hb hjob => exact ⟨cs, (left_work hin hrunning hcall hjob).1⟩
  | _ => exact ⟨cs, hin⟩

end Measure

/-- The pool takes jobs: no token is queued, and a queue that is not empty is looked at. -/
structure Accepting (p : ThreadPool Job n) : Prop where
  accepts : p.mCancelling = false
  jobs : none ∉ p.mJobs
  awake : p.mJobs ≠ [] → ∃ i, p.workers i ≠ .asleep

/-- A call queues no more jobs than it needs. -/
def Enqueuing (call : Call) : Prop := ∀ k, call.phase = .enqueuing k → k ≤ call.need.length

/-- What keeps the process moving. -/
structure Running (s : BlockCache n) : Prop where
  kept : Kept s
  signalled : Signalled s
  pool : Accepting s.mPool
  serving : ∀ i, s.mPool.workers i ≠ .exited
  alive : s.terminated = false
  enqueuing : ∀ c call, s.calls c = some call → Enqueuing call

section Running

variable {content : String → Block → Buffer} {s t : BlockCache n} {e : Event n} {c : Nat}
  {call call' : Call} {job : Job} {i : Fin n}

theorem Accepting.moves (hn : 0 < n) {p q : ThreadPool Job n} {pe : ThreadPool.Event Job n}
    (h : Accepting p) (hm : p.Moves pe q) (hcancel : ∀ jobs, pe ≠ .cancel jobs) : Accepting q := by
  have hawake := ThreadPool.awake_moves hn h.awake hm
  have happend : ∀ job : Job, none ∉ p.mJobs ++ [some job] := by
    intro job hin
    obtain hold | hnew := List.mem_append.mp hin
    · exact h.jobs hold
    · cases List.mem_singleton.mp hnew
  have hrest : ∀ {j : Option Job} {rest : List (Option Job)}, p.mJobs = j :: rest →
      none ∉ rest := by
    intro j rest hjobs hin
    apply h.jobs
    rw [hjobs]
    exact List.mem_cons_of_mem j hin
  cases hm with
  | wakes job => exact ⟨h.accepts, happend job, hawake⟩
  | enqueue job => exact ⟨h.accepts, happend job, hawake⟩
  | take _ _ _ _ hjobs => exact ⟨h.accepts, hrest hjobs, hawake⟩
  | exit _ _ _ hjobs => exact ⟨h.accepts, hrest hjobs, hawake⟩
  | cancel => exact absurd rfl (hcancel _)
  | _ => exact ⟨h.accepts, h.jobs, hawake⟩

theorem accepting_moves (hn : 0 < n) (h : Accepting s.mPool) (hm : Moves content s e t) :
    Accepting t.mPool := by
  cases hm with
  | enqueue hcall hphase hk hpool => exact h.moves hn hpool fun _ hp => by cases hp
  | sleep hpool => exact h.moves hn hpool fun _ hp => by cases hp
  | wake hpool => exact h.moves hn hpool fun _ hp => by cases hp
  | take hpool => exact h.moves hn hpool fun _ hp => by cases hp
  | work hrunning hcall hb hjob =>
      generalize s.pcs _ = pc at hjob
      cases hjob <;> exact h
  | finish hpc hpool => exact h.moves hn hpool fun _ hp => by cases hp
  | _ => exact h

theorem enqueuing_setCall (hs : ∀ c call, s.calls c = some call → Enqueuing call)
    (hcalls : t.calls = Function.update s.calls c (some call')) (hself : Enqueuing call') :
    ∀ d call, t.calls d = some call → Enqueuing call := by
  intro d new hnew
  rw [hcalls] at hnew
  by_cases hd : d = c
  · subst hd
    rw [Function.update_self] at hnew
    cases hnew
    exact hself
  · rw [Function.update_of_ne hd] at hnew
    exact hs d new hnew

theorem enqueuing_countDown (h : Enqueuing call) : Enqueuing call.countDown := by
  intro k hk
  rw [Call.countDown] at hk
  dsimp only at hk
  split at hk
  · cases hk
  · exact h k hk

theorem enqueuing_moves (hs : ∀ c call, s.calls c = some call → Enqueuing call)
    (hm : Moves content s e t) : ∀ c call, t.calls c = some call → Enqueuing call := by
  cases hm with
  | scan =>
      apply enqueuing_setCall hs rfl
      intro k hk
      dsimp only at hk
      split at hk
      · cases hk
      · cases hk
        exact Nat.zero_le _
  | enqueue hcall hphase hk =>
      apply enqueuing_setCall hs rfl
      rintro k ⟨⟩
      exact hk
  | wait => exact enqueuing_setCall hs rfl nofun
  | resume => exact enqueuing_setCall hs rfl nofun
  | spurious => exact enqueuing_setCall hs rfl nofun
  | work hrunning hcall hb hjob =>
      have hold := hs _ _ hcall
      generalize s.pcs _ = pc at hjob
      cases hjob with
      | hit => exact enqueuing_setCall hs rfl hold
      | callback => exact enqueuing_setCall hs rfl hold
      | count => exact enqueuing_setCall hs rfl (enqueuing_countDown hold)
      | _ => exact hs
  | _ => exact hs

/-- A step that somebody can take. -/
def CanMove (content : String → Block → Buffer) (s : BlockCache n) : Prop :=
  ∃ e t, Event.Onward e ∧ step content s e = some t

theorem canMove_of_step (he : e.Onward) (h : (step content s e).isSome = true) :
    CanMove content s := by
  obtain ⟨t, ht⟩ := Option.isSome_iff_exists.mp h
  exact ⟨e, t, he, ht⟩

/-- A call that is queuing jobs queues the next one, or waits. -/
theorem Running.enqueue {k : Nat} (hs : Running s) (hcall : s.calls c = some call)
    (hphase : call.phase = .enqueuing k) : CanMove content s := by
  have halive : ¬ s.terminated = true := by rw [hs.alive]; exact Bool.false_ne_true
  have hopen : ¬ s.mPool.mCancelling = true := by rw [hs.pool.accepts]; exact Bool.false_ne_true
  obtain hk | hk := Nat.lt_or_eq_of_le (hs.enqueuing c call hcall k hphase)
  · have hpool : ∃ wakes mPool, s.mPool.step (.enqueue ⟨c, k⟩ wakes) = some mPool := by
      by_cases hasleep : ∃ i, s.mPool.workers i = .asleep
      · obtain ⟨i, hi⟩ := hasleep
        refine ⟨some i, { s.mPool.setWorker i .ready with
          mJobs := s.mPool.mJobs ++ [some ⟨c, k⟩] }, ?_⟩
        rw [ThreadPool.step, if_neg hopen, ThreadPool.signal, if_pos hi]
        rfl
      · refine ⟨none, { s.mPool with mJobs := s.mPool.mJobs ++ [some ⟨c, k⟩] }, ?_⟩
        rw [ThreadPool.step, if_neg hopen, ThreadPool.signal, if_pos (not_exists.mp hasleep)]
        rfl
    obtain ⟨wakes, mPool, hpool⟩ := hpool
    apply @canMove_of_step n content s (.enqueue c wakes) trivial
    rw [step.eq_def, if_neg halive]
    dsimp only
    rw [hcall]
    dsimp only
    rw [hphase]
    dsimp only
    rw [if_pos hk, poolStep, hpool]
    rfl
  · apply @canMove_of_step n content s (.wait c) trivial
    rw [step.eq_def, if_neg halive]
    dsimp only
    rw [hcall]
    dsimp only
    rw [changePhase, hcall]
    dsimp only
    rw [if_pos (hk ▸ hphase)]
    rfl

/-- A worker that runs a job moves on, or the call that it waits for does. -/
theorem Running.work (hs : Running s) (hrunning : s.mPool.workers i = .running job) :
    CanMove content s := by
  have halive : ¬ s.terminated = true := by rw [hs.alive]; exact Bool.false_ne_true
  obtain ⟨call, hcall, hindex⟩ := hs.kept.known job (.inr ⟨i, hrunning⟩)
  have hrun : s.running i = some (job, call, call.need[job.index]) := by
    rw [running, hrunning]
    dsimp only
    rw [hcall]
    dsimp only
    rw [List.getElem?_eq_getElem hindex]
    rfl
  have hwork : ∀ {t}, jobStep content s i (s.pcs i) job call call.need[job.index] = some t →
      CanMove content s := by
    intro t ht
    refine ⟨.work i, t, trivial, ?_⟩
    rw [step.eq_def, if_neg halive]
    dsimp only
    rw [hrun]
    exact ht
  cases hpc : s.pcs i with
  | start =>
      cases hfound : found (s.mMap.find (keyOf call.file call.need[job.index])).1 with
      | some buf =>
          apply hwork
          rw [hpc, jobStep]
          dsimp only
          rw [hfound]
      | none =>
          apply hwork
          rw [hpc, jobStep]
          dsimp only
          rw [hfound]
  | missed => exact hwork (by rw [hpc]; rfl)
  | decompressed nbuf => exact hwork (by rw [hpc]; rfl)
  | added nbuf => exact hwork (by rw [hpc]; rfl)
  | delivered =>
      have hunfinished : s.Unfinished job :=
        .inr ⟨i, hrunning, by rw [hpc]; exact fun h => (by cases h)⟩
      have hremain := hs.kept.remain_pos hcall hunfinished
      cases hphase : call.phase with
      | enqueuing k => exact hs.enqueue hcall hphase
      | returned =>
          have hzero := hs.signalled _ call hcall (.inr hphase)
          omega
      | waiting => exact hwork (by rw [hpc, jobStep, if_pos (.inl hphase)])
      | woken => exact hwork (by rw [hpc, jobStep, if_pos (.inr hphase)])
  | counted =>
      apply @canMove_of_step n content s (.finish i job) trivial
      rw [step.eq_def, if_neg halive]
      dsimp only
      rw [hpc]
      dsimp only
      rw [poolStep, ThreadPool.step, if_pos hrunning]
      rfl

/-- Where a job is queued, a worker takes one, unless they are all busy. -/
theorem Running.take (hs : Running s) (hqueued : job ∈ s.mPool.queued) : CanMove content s := by
  have halive : ¬ s.terminated = true := by rw [hs.alive]; exact Bool.false_ne_true
  have hmem : some job ∈ s.mPool.mJobs := List.reduceOption_mem_iff.mp hqueued
  obtain ⟨i, hi⟩ := hs.pool.awake (List.ne_nil_of_mem hmem)
  cases hw : s.mPool.workers i with
  | asleep => exact absurd hw hi
  | exited => exact absurd hw (hs.serving i)
  | running job' => exact hs.work hw
  | ready =>
      cases hjobs : s.mPool.mJobs with
      | nil => exact absurd hjobs (List.ne_nil_of_mem hmem)
      | cons first rest =>
          cases first with
          | none => exact absurd (hjobs ▸ List.mem_cons_self) hs.pool.jobs
          | some first =>
              have hhead : s.mPool.mJobs.head? = some (some first) := by rw [hjobs]; rfl
              apply @canMove_of_step n content s (.take i first) trivial
              rw [step.eq_def, if_neg halive]
              dsimp only
              rw [poolStep, ThreadPool.step, if_pos ⟨hw, hhead⟩]
              rfl

/-- As long as a call has not returned, somebody can move on. -/
theorem Running.canMove (hs : Running s) (hcall : s.calls c = some call)
    (hphase : call.phase ≠ .returned) : CanMove content s := by
  have halive : ¬ s.terminated = true := by rw [hs.alive]; exact Bool.false_ne_true
  cases hphase' : call.phase with
  | returned => exact absurd hphase' hphase
  | enqueuing k => exact hs.enqueue hcall hphase'
  | waiting =>
      obtain ⟨job, hqueued | ⟨i, hrunning, -⟩, -⟩ := hs.kept.released hcall hphase'
      · exact hs.take hqueued
      · exact hs.work hrunning
  | woken =>
      apply @canMove_of_step n content s (.resume c) trivial
      rw [step.eq_def, if_neg halive]
      dsimp only
      rw [changePhase, hcall]
      dsimp only
      rw [if_pos hphase']
      rfl

/-- Steps onward are neither failures nor wakeups without a signal. -/
theorem Event.Onward.quiet (he : e.Onward) : failed [e] = [] ∧ spuriousWakes [e] = [] := by
  cases e with
  | throws => exact absurd he id
  | spurious => exact absurd he id
  | _ => exact ⟨rfl, rfl⟩

theorem Running.moves (hn : 0 < n) (hs : Running s) (hm : Moves content s e t)
    (hfailed : failed [e] = []) (hwakes : spuriousWakes [e] = []) : Running t where
  kept := hs.kept.moves hm
  signalled := hs.signalled.moves hs.kept hm hwakes
  pool := accepting_moves hn hs.pool hm
  serving := serving_moves hm hs.serving
  alive := alive_moves hm hs.alive hfailed
  enqueuing := enqueuing_moves hs.enqueuing hm

theorem Running.start (n : Nat) (maxSize : UInt64) : Running (new n maxSize) where
  kept := .start maxSize
  signalled c call hcall := by cases hcall
  pool := ⟨rfl, List.not_mem_nil, fun h => absurd rfl h⟩
  serving i hi := by cases hi
  alive := rfl
  enqueuing c call hcall := by cases hcall

end Running

section Returns

variable {content : String → Block → Buffer} {s : BlockCache n} {es : List (Event n)}
  {maxSize : UInt64}

theorem exec_running (hn : 0 < n) (h : exec (step content) (new n maxSize) es = some s)
    (hfailed : failed es = []) (hwakes : spuriousWakes es = []) :
    Running s ∧ ∃ cs, Within cs s := by
  revert hfailed hwakes
  apply exec_induction (P := fun es s => failed es = [] → spuriousWakes es = [] →
    Running s ∧ ∃ cs, Within cs s) _ _ h
  · exact fun _ _ => ⟨.start n maxSize, ∅, fun c hc => (by cases hc)⟩
  · intro es s e t _ hs hstep hfailed hwakes
    rw [failed_append, List.append_eq_nil_iff] at hfailed
    rw [spuriousWakes, List.filterMap_append, List.append_eq_nil_iff] at hwakes
    obtain ⟨hrunning, cs, hin⟩ := hs hfailed.1 hwakes.1
    have hm := (step_moves hstep).2
    exact ⟨hrunning.moves hn hm hfailed.2 hwakes.2, within_moves hin hm⟩

/-- After any run without failures, no more than so many steps can follow before another
call arrives or a wait ends without a signal; and while a call has not returned, one of
these steps can be taken. So every call returns. -/
theorem exec_returns (hn : 0 < n) (h : exec (step content) (new n maxSize) es = some s)
    (hfailed : failed es = []) (hwakes : spuriousWakes es = []) :
    ∃ bound, ∀ es' t, (∀ e ∈ es', Event.Onward e) → exec (step content) s es' = some t →
      es'.length ≤ bound ∧
        ((∀ c call, t.calls c = some call → call.phase = .returned) ∨ CanMove content t) := by
  obtain ⟨hrunning, cs, hin⟩ := exec_running hn h hfailed hwakes
  refine ⟨left cs s, fun es' t hes' ht => ?_⟩
  have hpass : ∀ (s : BlockCache n) e t, Running s ∧ Within cs s → Event.Onward e →
      step content s e = some t → (Running t ∧ Within cs t) ∧ left cs t < left cs s := by
    intro s e t hs he hstep
    have hm := (step_moves hstep).2
    obtain ⟨hin', hlt⟩ := left_moves hs.2 hm he
    exact ⟨⟨hs.1.moves hn hm he.quiet.1 he.quiet.2, hin'⟩, hlt⟩
  obtain ⟨⟨hrunning', -⟩, hle⟩ := exec_length_le hpass ⟨hrunning, hin⟩ hes' ht
  refine ⟨by omega, ?_⟩
  by_cases hall : ∀ c call, t.calls c = some call → call.phase = .returned
  · exact .inl hall
  · simp only [not_forall] at hall
    obtain ⟨c, call, hcall, hphase⟩ := hall
    exact .inr (hrunning'.canMove hcall hphase)

end Returns

end BlockCache

end Lzopfs
