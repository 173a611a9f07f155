import Lzopfs.Lib.Trace
import Mathlib.Algebra.BigOperators.Group.Finset.Basic
import Mathlib.Algebra.Order.BigOperators.Group.Finset
import Mathlib.Data.Fintype.Basic
import Mathlib.Data.List.ReduceOption
import Mathlib.Data.Multiset.AddSub

/-!
# The thread pool

Workers take jobs from a queue. What is done under the lock of the queue is one step, and
so is a job. The destructor deletes the jobs that are still queued, queues tokens that
make workers exit, and joins the entries of the list of threads. That list is resized
before the threads are added to it.
-/

namespace Lzopfs

open Verify

/-- What a thread is doing. `ready` is a thread about to look at the queue, also one that
was woken to do so. -/
inductive Worker (J : Type) where
  | ready
  | asleep
  | running (job : J)
  | exited
  deriving DecidableEq

namespace Worker

variable {J : Type}

def jobs : Worker J → Multiset J
  | .running job => {job}
  | _ => 0

def gone : Worker J → Nat
  | .exited => 1
  | _ => 0

end Worker

/-- An entry of the list of threads; without a handle if no thread was started for it. -/
structure ThreadInfo (n : Nat) where
  pthread : Option (Fin n)
  num : Nat
  deriving DecidableEq

structure ThreadPool (J : Type) (n : Nat) where
  mThreads : List (ThreadInfo n)
  /-- `none` is a token. -/
  mJobs : List (Option J)
  mCancelling : Bool
  workers : Fin n → Worker J
  /-- How many entries the destructor has joined, once it has been called. -/
  joining : Option Nat

namespace ThreadPool

variable {J : Type} {n : Nat}

/-- The constructor. The threads it starts wait for the lock it holds. -/
def new (J : Type) (n : Nat) : ThreadPool J n where
  mThreads := (List.finRange n).foldl (fun mThreads i => mThreads ++ [⟨some i, i⟩])
    (List.replicate n ⟨none, 0⟩)
  mJobs := []
  mCancelling := false
  workers := fun _ => .ready
  joining := none

/-- What happens to the pool. -/
inductive Event (J : Type) (n : Nat) where
  /-- `enqueue`; the signal wakes a thread if one is asleep. -/
  | enqueue (job : J) (wakes : Option (Fin n))
  /-- `enqueue` throws. -/
  | refuse (job : J)
  /-- `nextJob` waits, returns a job, or returns a token. -/
  | sleep (i : Fin n)
  | take (i : Fin n) (job : J)
  | exit (i : Fin n)
  /-- A wait returns without a signal. -/
  | wake (i : Fin n)
  /-- The job returns, and is deleted. -/
  | finish (i : Fin n) (job : J)
  /-- The destructor deletes the queued jobs and queues tokens. -/
  | cancel (dropped : List J)
  /-- The destructor joins an entry. -/
  | join (pthread : Option (Fin n))

def setWorker (p : ThreadPool J n) (i : Fin n) (w : Worker J) : ThreadPool J n :=
  { p with workers := Function.update p.workers i w }

@[simp] theorem setWorker_self (p : ThreadPool J n) (i : Fin n) (w : Worker J) :
    (p.setWorker i w).workers i = w := by
  simp [setWorker]

theorem setWorker_of_ne (p : ThreadPool J n) {i k : Fin n} (w : Worker J) (h : k ≠ i) :
    (p.setWorker i w).workers k = p.workers k := by
  simp [setWorker, h]

/-- The jobs in the queue. -/
def queued (p : ThreadPool J n) : List J := p.mJobs.reduceOption

section Steps

variable [DecidableEq J]

/-- `mCond.signal()`. -/
def signal (p : ThreadPool J n) : Option (Fin n) → Option (ThreadPool J n)
  | some i => if p.workers i = .asleep then some (p.setWorker i .ready) else none
  | none => if ∀ i, p.workers i ≠ .asleep then some p else none

/-- `mCond.broadcast()`. -/
def broadcast (p : ThreadPool J n) : ThreadPool J n :=
  { p with workers := fun i => match p.workers i with
      | .asleep => .ready
      | w => w }

def step (p : ThreadPool J n) : Event J n → Option (ThreadPool J n)
  | .enqueue job wakes =>
      if p.mCancelling then none
      else (p.signal wakes).map fun p => { p with mJobs := p.mJobs ++ [some job] }
  | .refuse _ => if p.mCancelling then some p else none
  | .sleep i =>
      if p.workers i = .ready ∧ p.mJobs = [] then some (p.setWorker i .asleep) else none
  | .take i job =>
      if p.workers i = .ready ∧ p.mJobs.head? = some (some job) then
        some { p.setWorker i (.running job) with mJobs := p.mJobs.tail }
      else none
  | .exit i =>
      if p.workers i = .ready ∧ p.mJobs.head? = some none then
        some { p.setWorker i .exited with mJobs := p.mJobs.tail }
      else none
  | .wake i => if p.workers i = .asleep then some (p.setWorker i .ready) else none
  | .finish i job => if p.workers i = .running job then some (p.setWorker i .ready) else none
  | .cancel dropped =>
      if p.joining = none ∧ p.queued = dropped then
        some { p.broadcast with
          mCancelling := true
          mJobs := List.replicate p.mThreads.length none
          joining := some 0 }
      else none
  | .join pthread =>
      match p.joining with
      | none => none
      | some k =>
          if (p.mThreads[k]?.map ThreadInfo.pthread = some pthread ∧
              ∀ i, pthread = some i → p.workers i = .exited) then
            some { p with joining := some (k + 1) }
          else none

end Steps

/-- The jobs that `enqueue` has accepted. -/
def accepted (es : List (Event J n)) : List J :=
  es.filterMap fun
    | .enqueue job _ => some job
    | _ => none

/-- The jobs that workers have taken, and so run. -/
def taken (es : List (Event J n)) : List J :=
  es.filterMap fun
    | .take _ job => some job
    | _ => none

/-- The jobs that workers have deleted. -/
def finished (es : List (Event J n)) : List J :=
  es.filterMap fun
    | .finish _ job => some job
    | _ => none

/-- The jobs that the destructor has deleted. -/
def dropped (es : List (Event J n)) : List J :=
  es.flatMap fun
    | .cancel jobs => jobs
    | _ => []

/-- The entries that the destructor has joined. -/
def joined (es : List (Event J n)) : List (Option (Fin n)) :=
  es.filterMap fun
    | .join pthread => some pthread
    | _ => none

section Moves

/-- What a step can do. -/
inductive Moves (p : ThreadPool J n) : Event J n → ThreadPool J n → Prop where
  | wakes (job : J) (i : Fin n) (hopen : p.mCancelling = false) (hasleep : p.workers i = .asleep) :
      Moves p (.enqueue job (some i))
        { p.setWorker i .ready with mJobs := p.mJobs ++ [some job] }
  | enqueue (job : J) (hopen : p.mCancelling = false) (hnone : ∀ i, p.workers i ≠ .asleep) :
      Moves p (.enqueue job none) { p with mJobs := p.mJobs ++ [some job] }
  | refuse (job : J) : Moves p (.refuse job) p
  | sleep (i : Fin n) (hready : p.workers i = .ready) (hempty : p.mJobs = []) :
      Moves p (.sleep i) (p.setWorker i .asleep)
  | take (i : Fin n) (job : J) (rest : List (Option J)) (hready : p.workers i = .ready)
      (hjobs : p.mJobs = some job :: rest) :
      Moves p (.take i job) { p.setWorker i (.running job) with mJobs := rest }
  | exit (i : Fin n) (rest : List (Option J)) (hready : p.workers i = .ready)
      (hjobs : p.mJobs = none :: rest) :
      Moves p (.exit i) { p.setWorker i .exited with mJobs := rest }
  | wake (i : Fin n) (hasleep : p.workers i = .asleep) : Moves p (.wake i) (p.setWorker i .ready)
  | finish (i : Fin n) (job : J) (hrunning : p.workers i = .running job) :
      Moves p (.finish i job) (p.setWorker i .ready)
  | cancel (hnot : p.joining = none) :
      Moves p (.cancel p.queued) { p.broadcast with
        mCancelling := true
        mJobs := List.replicate p.mThreads.length none
        joining := some 0 }
  | join (k : Nat) (info : ThreadInfo n) (hk : p.joining = some k)
      (hentry : p.mThreads[k]? = some info)
      (hexited : ∀ i, info.pthread = some i → p.workers i = .exited) :
      Moves p (.join info.pthread) { p with joining := some (k + 1) }

variable [DecidableEq J] {p p' : ThreadPool J n} {e : Event J n}

theorem step_moves (h : p.step e = some p') : Moves p e p' := by
  cases e with
  | enqueue job wakes =>
      rw [step] at h
      split at h
      · cases h
      · rename_i hopen
        obtain ⟨q, hq, rfl⟩ := Option.map_eq_some_iff.mp h
        cases wakes with
        | none =>
            obtain ⟨hnone, hq⟩ := Option.ite_none_right_eq_some.mp hq
            cases hq
            exact .enqueue job (Bool.eq_false_iff.mpr hopen) hnone
        | some i =>
            obtain ⟨hasleep, hq⟩ := Option.ite_none_right_eq_some.mp hq
            cases hq
            exact .wakes job i (Bool.eq_false_iff.mpr hopen) hasleep
  | refuse job =>
      obtain ⟨-, h⟩ := Option.ite_none_right_eq_some.mp h
      cases h
      exact .refuse job
  | sleep i =>
      obtain ⟨⟨hready, hempty⟩, h⟩ := Option.ite_none_right_eq_some.mp h
      cases h
      exact .sleep i hready hempty
  | take i job =>
      obtain ⟨⟨hready, hhead⟩, h⟩ := Option.ite_none_right_eq_some.mp h
      cases h
      exact .take i job p.mJobs.tail hready (List.eq_cons_of_mem_head? hhead)
  | exit i =>
      obtain ⟨⟨hready, hhead⟩, h⟩ := Option.ite_none_right_eq_some.mp h
      cases h
      exact .exit i p.mJobs.tail hready (List.eq_cons_of_mem_head? hhead)
  | wake i =>
      obtain ⟨hasleep, h⟩ := Option.ite_none_right_eq_some.mp h
      cases h
      exact .wake i hasleep
  | finish i job =>
      obtain ⟨hrunning, h⟩ := Option.ite_none_right_eq_some.mp h
      cases h
      exact .finish i job hrunning
  | cancel jobs =>
      obtain ⟨⟨hnot, hjobs⟩, hp⟩ := Option.ite_none_right_eq_some.mp h
      cases hp
      rw [← hjobs]
      exact .cancel hnot
  | join pthread =>
      rw [step] at h
      cases hk : p.joining with
      | none =>
          rw [hk] at h
          cases h
      | some k =>
          rw [hk] at h
          obtain ⟨⟨hentry, hexited⟩, h⟩ := Option.ite_none_right_eq_some.mp h
          cases h
          obtain ⟨info, hinfo, rfl⟩ := Option.map_eq_some_iff.mp hentry
          exact .join k info hk hinfo hexited

end Moves

/-- A job is in the queue, or a worker runs it. -/
def Holds (p : ThreadPool J n) (job : J) : Prop :=
  job ∈ p.queued ∨ ∃ i, p.workers i = .running job

theorem queued_append (p : ThreadPool J n) (job : J) :
    (p.mJobs ++ [some job]).reduceOption = p.queued ++ [job] := by
  rw [List.reduceOption_append]
  rfl

/-- A worker that is not given a job holds none that was not held before. -/
theorem Holds.of_setWorker {p q : ThreadPool J n} {i : Fin n} {w : Worker J} {job : J}
    (h : q.Holds job) (hworkers : q.workers = (p.setWorker i w).workers) (hw : w ≠ .running job)
    (hqueue : job ∈ q.queued → p.Holds job) : p.Holds job := by
  obtain hqueued | ⟨k, hk⟩ := h
  · exact hqueue hqueued
  · rw [hworkers] at hk
    by_cases hki : k = i
    · subst hki
      exact absurd ((setWorker_self p k w).symm.trans hk) hw
    · exact Or.inr ⟨k, (setWorker_of_ne p w hki).symm.trans hk⟩

/-- Only `enqueue` brings in a job. -/
theorem Holds.of_moves {p p' : ThreadPool J n} {e : Event J n} {job : J} (hm : Moves p e p')
    (h : p'.Holds job) : p.Holds job ∨ ∃ wakes, e = .enqueue job wakes := by
  have htail : ∀ {t : Option J} {rest : List (Option J)}, p.mJobs = t :: rest →
      job ∈ rest.reduceOption → p.Holds job := by
    intro t rest hjobs hin
    apply Or.inl
    rw [queued, hjobs, List.reduceOption_mem_iff]
    exact List.mem_cons_of_mem t (List.reduceOption_mem_iff.mp hin)
  have hnew : ∀ new : J, job ∈ (p.mJobs ++ [some new]).reduceOption → p.Holds job ∨ job = new := by
    intro new hin
    rw [queued_append, List.mem_append, List.mem_singleton] at hin
    exact hin.imp_left Or.inl
  cases hm with
  | wakes new i hopen hasleep =>
      obtain hqueued | ⟨k, hk⟩ := h
      · exact (hnew new hqueued).imp_right fun heq => ⟨some i, by rw [heq]⟩
      · have hheld : (p.setWorker i .ready).Holds job := Or.inr ⟨k, hk⟩
        exact Or.inl (hheld.of_setWorker rfl nofun Or.inl)
  | enqueue new hopen hnone =>
      obtain hqueued | ⟨k, hk⟩ := h
      · exact (hnew new hqueued).imp_right fun heq => ⟨none, by rw [heq]⟩
      · exact Or.inl (Or.inr ⟨k, hk⟩)
  | refuse => exact Or.inl h
  | sleep i => exact Or.inl (h.of_setWorker rfl nofun Or.inl)
  | take i taken rest hready hjobs =>
      apply Or.inl
      by_cases heq : job = taken
      · apply Or.inl
        rw [queued, hjobs, heq, List.reduceOption_mem_iff]
        exact List.mem_cons_self
      · exact h.of_setWorker rfl (fun hw => heq (Worker.running.inj hw).symm) (htail hjobs)
  | exit i rest hready hjobs => exact Or.inl (h.of_setWorker rfl nofun (htail hjobs))
  | wake i => exact Or.inl (h.of_setWorker rfl nofun Or.inl)
  | finish i => exact Or.inl (h.of_setWorker rfl nofun Or.inl)
  | cancel hnot =>
      obtain hqueued | ⟨k, hk⟩ := h
      · rw [queued, List.reduceOption_replicate_none] at hqueued
        cases hqueued
      · refine Or.inl (Or.inr ⟨k, ?_⟩)
        rw [broadcast] at hk
        dsimp only at hk
        split at hk
        · cases hk
        · exact hk
  | join => exact Or.inl h

section Tally

variable {M : Type} [AddCommMonoid M]

/-- The sum of what each worker counts for. -/
def tally (f : Worker J → M) (p : ThreadPool J n) : M := ∑ i, f (p.workers i)

/-- A sum over the threads when one of them changes. -/
theorem sum_change {F F' : Fin n → M} (i : Fin n) (h : ∀ k, k ≠ i → F' k = F k) :
    ∑ k, F' k + F i = ∑ k, F k + F' i := by
  have hothers : ∑ k ∈ Finset.univ.erase i, F' k = ∑ k ∈ Finset.univ.erase i, F k :=
    Finset.sum_congr rfl fun k hk => h k (Finset.ne_of_mem_erase hk)
  rw [← Finset.add_sum_erase Finset.univ F' (Finset.mem_univ i),
    ← Finset.add_sum_erase Finset.univ F (Finset.mem_univ i), hothers]
  ac_rfl

theorem tally_setWorker (f : Worker J → M) (p : ThreadPool J n) (i : Fin n) (w : Worker J) :
    (p.setWorker i w).tally f + f (p.workers i) = p.tally f + f w := by
  have hsum : ∑ k, f ((p.setWorker i w).workers k) + f (p.workers i) =
      ∑ k, f (p.workers k) + f ((p.setWorker i w).workers i) :=
    @sum_change n M _ (fun k => f (p.workers k)) (fun k => f ((p.setWorker i w).workers k)) i
      fun k hk => congrArg f (setWorker_of_ne p w hk)
  rwa [setWorker_self] at hsum

/-- The jobs that are being run. -/
def runningJobs (p : ThreadPool J n) : Multiset J := p.tally Worker.jobs

/-- How many threads have exited. -/
def exits (p : ThreadPool J n) : Nat := p.tally Worker.gone

/-- Waking everybody changes no sum in which a sleeper counts as a ready worker. -/
theorem tally_broadcast {f : Worker J → M} (hf : f .asleep = f .ready) (p : ThreadPool J n) :
    p.broadcast.tally f = p.tally f := by
  apply Finset.sum_congr rfl
  intro i _
  rw [broadcast]
  dsimp only
  split
  · rename_i hasleep
    rw [hasleep, hf]
  · rfl

theorem broadcast_ne_asleep (p : ThreadPool J n) (i : Fin n) :
    p.broadcast.workers i ≠ .asleep := by
  rw [broadcast]
  dsimp only
  split
  · exact nofun
  · assumption

end Tally

section Runs

variable {es : List (Event J n)} {e : Event J n} {p p' : ThreadPool J n}

/-- What is in the queue before the destructor is called, and after. -/
structure Phase (es : List (Event J n)) (p : ThreadPool J n) : Prop where
  threads : p.mThreads = (new J n).mThreads
  before : p.joining = none → p.mCancelling = false ∧ dropped es = [] ∧ joined es = [] ∧
    p.exits = 0 ∧ ∀ t ∈ p.mJobs, t ≠ none
  after : ∀ k, p.joining = some k → p.mCancelling = true ∧ (∀ t ∈ p.mJobs, t = none) ∧
    p.mJobs.length + p.exits = p.mThreads.length ∧ (∀ i, p.workers i ≠ .asleep) ∧
    joined es = (p.mThreads.map ThreadInfo.pthread).take k

/-- What became of the jobs. -/
structure Accounted (es : List (Event J n)) (p : ThreadPool J n) : Prop where
  order : accepted es = taken es ++ (dropped es ++ p.queued)
  deleted : (finished es : Multiset J) + p.runningJobs = taken es

theorem tally_new {M : Type} [AddCommMonoid M] {f : Worker J → M} (hf : f .ready = 0) :
    (new J n).tally f = 0 :=
  Finset.sum_eq_zero fun _ _ => hf

theorem Phase.start : Phase [] (new J n) where
  threads := rfl
  before _ := ⟨rfl, rfl, rfl, tally_new rfl, nofun⟩
  after := nofun

theorem Accounted.start : Accounted [] (new J n) where
  order := rfl
  deleted := by
    rw [runningJobs, tally_new rfl]
    rfl

theorem dropped_append (es es' : List (Event J n)) :
    dropped (es ++ es') = dropped es ++ dropped es' :=
  List.flatMap_append

theorem joined_append (es es' : List (Event J n)) : joined (es ++ es') = joined es ++ joined es' :=
  List.filterMap_append

theorem accepted_append (es es' : List (Event J n)) :
    accepted (es ++ es') = accepted es ++ accepted es' :=
  List.filterMap_append

theorem taken_append (es es' : List (Event J n)) : taken (es ++ es') = taken es ++ taken es' :=
  List.filterMap_append

theorem finished_append (es es' : List (Event J n)) :
    finished (es ++ es') = finished es ++ finished es' :=
  List.filterMap_append

/-- The list of threads starts with entries that no thread was started for. -/
theorem mThreads_eq (J : Type) (n : Nat) : (new J n).mThreads.map ThreadInfo.pthread =
    List.replicate n none ++ (List.finRange n).map some := by
  have hfold : ∀ (l : List (Fin n)) (ts : List (ThreadInfo n)),
      l.foldl (fun mThreads i => mThreads ++ [⟨some i, i⟩]) ts =
        ts ++ l.map fun i => ⟨some i, i⟩ := by
    intro l
    induction l with
    | nil => simp
    | cons i l ih =>
        intro ts
        rw [List.foldl_cons, ih, List.append_assoc]
        rfl
  rw [new, hfold, List.map_append, List.map_replicate, List.map_map]
  rfl

theorem length_mThreads : (new J n).mThreads.length = n + n := by
  have hlen := congrArg List.length (mThreads_eq J n)
  rwa [List.length_map, List.length_append, List.length_replicate, List.length_map,
    List.length_finRange] at hlen

theorem exits_le (p : ThreadPool J n) : p.exits ≤ n := by
  have hone : ∀ i ∈ (Finset.univ : Finset (Fin n)), (p.workers i).gone ≤ 1 := by
    intro i _
    cases p.workers i <;> simp [Worker.gone]
  have hall : ∑ _i : Fin n, 1 = n := by simp
  exact (Finset.sum_le_sum hone).trans_eq hall

/-- After the destructor has been called there are tokens for all workers. -/
theorem Phase.token (h : Phase es p) (i : Fin n) {k : Nat} (hk : p.joining = some k) :
    ∃ rest, p.mJobs = none :: rest := by
  obtain ⟨-, htokens, hlen, -⟩ := h.after k hk
  have hle := p.exits_le
  have hpos := i.pos
  rw [h.threads, length_mThreads] at hlen
  obtain ⟨t, rest, hjobs⟩ := List.exists_cons_of_length_pos (show 0 < p.mJobs.length by omega)
  have ht : t = none := htokens t (hjobs ▸ List.mem_cons_self)
  exact ⟨rest, ht ▸ hjobs⟩

/-- A step of a worker keeps the phase. -/
theorem Phase.work (h : Phase es p) {es' : List (Event J n)} {i : Fin n} {w : Worker J}
    {jobs : List (Option J)} (hdropped : dropped es' = dropped es)
    (hjoined : joined es' = joined es)
    (hsub : ∀ t ∈ jobs, t ∈ p.mJobs)
    (hbefore : p.joining = none → w.gone = (p.workers i).gone)
    (hafter : ∀ k, p.joining = some k → w ≠ .asleep ∧
      jobs.length + w.gone = p.mJobs.length + (p.workers i).gone) :
    Phase es' { p.setWorker i w with mJobs := jobs } := by
  have htally := tally_setWorker Worker.gone p i w
  refine ⟨h.threads, fun hnone => ?_, fun k hk => ?_⟩
  · obtain ⟨hopen, hd, hj, hexits, htokens⟩ := h.before hnone
    have hsame := hbefore hnone
    refine ⟨hopen, hdropped.trans hd, hjoined.trans hj, ?_, fun t ht => htokens t (hsub t ht)⟩
    · show (p.setWorker i w).tally Worker.gone = 0
      rw [exits] at hexits
      omega
  · obtain ⟨hclosed, htokens, hlen, hawake, hj⟩ := h.after k hk
    obtain ⟨hw, hcount⟩ := hafter k hk
    refine ⟨hclosed, fun t ht => htokens t (hsub t ht), ?_, fun l => ?_, ?_⟩
    · show jobs.length + (p.setWorker i w).tally Worker.gone = p.mThreads.length
      rw [exits] at hlen
      omega
    · by_cases hl : l = i
      · subst hl
        rw [setWorker_self]
        exact hw
      · rw [setWorker_of_ne p w hl]
        exact hawake l
    · rw [hjoined]
      exact hj

theorem Phase.enqueue (h : Phase es p) {job : J} {wakes : Option (Fin n)}
    (hopen : p.mCancelling = false) :
    Phase (es ++ [.enqueue job wakes]) { p with mJobs := p.mJobs ++ [some job] } := by
  refine ⟨h.threads, fun hnone => ?_, fun k hk => ?_⟩
  · obtain ⟨-, hd, hj, hexits, htokens⟩ := h.before hnone
    refine ⟨hopen, ?_, ?_, hexits, fun t ht => ?_⟩
    · rw [dropped_append, hd]
      rfl
    · rw [joined_append, hj]
      rfl
    · obtain hin | hnew := List.mem_append.mp ht
      · exact htokens t hin
      · rw [List.mem_singleton.mp hnew]
        exact nofun
  · rw [(h.after k hk).1] at hopen
    cases hopen

theorem Phase.moves (h : Phase es p) (hm : Moves p e p') : Phase (es ++ [e]) p' := by
  have hquiet : ∀ {e : Event J n}, dropped [e] = [] → dropped (es ++ [e]) = dropped es := by
    intro e he
    rw [dropped_append, he, List.append_nil]
  have hsilent : ∀ {e : Event J n}, joined [e] = [] → joined (es ++ [e]) = joined es := by
    intro e he
    rw [joined_append, he, List.append_nil]
  cases hm with
  | wakes job i hopen hasleep =>
      have hwoken : Phase es (p.setWorker i .ready) :=
        h.work rfl rfl (fun t ht => ht) (fun _ => by rw [hasleep]; rfl) fun k hk =>
          absurd hasleep ((h.after k hk).2.2.2.1 i)
      exact hwoken.enqueue hopen
  | enqueue job hopen hnone => exact h.enqueue hopen
  | refuse job =>
      refine ⟨h.threads, fun hnone => ?_, fun k hk => ?_⟩
      · rw [hquiet rfl, hsilent rfl]
        exact h.before hnone
      · rw [hsilent rfl]
        exact h.after k hk
  | sleep i hready hempty =>
      refine h.work (hquiet rfl) (hsilent rfl) (fun t ht => ht) (fun _ => by rw [hready]; rfl)
        fun k hk => ?_
      obtain ⟨rest, hnone⟩ := h.token i hk
      rw [hempty] at hnone
      cases hnone
  | take i job rest hready hjobs =>
      refine h.work (hquiet rfl) (hsilent rfl) (fun t ht => hjobs ▸ List.mem_cons_of_mem _ ht)
        (fun _ => by rw [hready]; rfl) fun k hk => ?_
      obtain ⟨rest', hnone⟩ := h.token i hk
      rw [hjobs] at hnone
      cases hnone
  | exit i rest hready hjobs =>
      refine h.work (hquiet rfl) (hsilent rfl) (fun t ht => hjobs ▸ List.mem_cons_of_mem _ ht)
        (fun hnone => ?_) fun k hk => ⟨nofun, ?_⟩
      · exact absurd rfl ((h.before hnone).2.2.2.2 none (hjobs ▸ List.mem_cons_self))
      · rw [hjobs, hready]
        rfl
  | wake i hasleep =>
      refine h.work (hquiet rfl) (hsilent rfl) (fun t ht => ht) (fun _ => by rw [hasleep]; rfl)
        fun k hk => ?_
      exact absurd hasleep ((h.after k hk).2.2.2.1 i)
  | finish i job hrunning =>
      refine h.work (hquiet rfl) (hsilent rfl) (fun t ht => ht) (fun _ => by rw [hrunning]; rfl)
        fun k hk => ⟨nofun, ?_⟩
      rw [hrunning]
      rfl
  | cancel hnot =>
      obtain ⟨-, -, hj, hexits, -⟩ := h.before hnot
      refine ⟨h.threads, nofun, ?_⟩
      rintro k ⟨rfl⟩
      refine ⟨rfl, fun t ht => List.eq_of_mem_replicate ht, ?_, p.broadcast_ne_asleep, ?_⟩
      · show (List.replicate p.mThreads.length none).length + p.broadcast.tally Worker.gone = _
        rw [tally_broadcast rfl, ← exits, hexits, List.length_replicate]
        rfl
      · rw [hsilent rfl, hj]
        rfl
  | join k info hk hentry hexited =>
      obtain ⟨hclosed, htokens, hlen, hawake, hj⟩ := h.after k hk
      refine ⟨h.threads, nofun, ?_⟩
      rintro l ⟨rfl⟩
      refine ⟨hclosed, htokens, hlen, hawake, ?_⟩
      have hget : (p.mThreads.map ThreadInfo.pthread)[k]? = some info.pthread := by
        rw [List.getElem?_map, hentry]
        rfl
      rw [joined_append, hj, List.take_add_one, hget]
      rfl

theorem runningJobs_setWorker (p : ThreadPool J n) (i : Fin n) (w : Worker J) :
    (p.setWorker i w).runningJobs + (p.workers i).jobs = p.runningJobs + w.jobs :=
  tally_setWorker Worker.jobs p i w

theorem runningJobs_of_same {i : Fin n} {w : Worker J} (h : w.jobs = (p.workers i).jobs) :
    (p.setWorker i w).runningJobs = p.runningJobs := by
  have hset := runningJobs_setWorker p i w
  rw [h] at hset
  exact add_right_cancel hset

/-- What an event shows of the jobs is what changes in the queue and the workers. -/
theorem Accounted.concat (h : Accounted es p) (hfront : taken [e] = [] ∨ dropped es = [])
    (hqueue : p.queued ++ accepted [e] = taken [e] ++ (dropped [e] ++ p'.queued))
    (hrunning : (finished [e] : Multiset J) + p'.runningJobs = p.runningJobs + taken [e]) :
    Accounted (es ++ [e]) p' := by
  refine ⟨?_, ?_⟩
  · rw [accepted_append, taken_append, dropped_append, h.order, List.append_assoc,
      List.append_assoc, hqueue]
    obtain hnone | hnone := hfront
    · rw [hnone]
      simp
    · rw [hnone]
      simp
  · rw [finished_append, taken_append, ← Multiset.coe_add, ← Multiset.coe_add, ← h.deleted,
      add_assoc, add_assoc, hrunning]

/-- Where every job that was accepted is after a step. -/
theorem Accounted.moves (h : Accounted es p) (hphase : Phase es p) (hm : Moves p e p') :
    Accounted (es ++ [e]) p' := by
  have hzero : ∀ m : Multiset J, (([] : List J) : Multiset J) + m = m := zero_add
  have hnil : ∀ m : Multiset J, m = m + (([] : List J) : Multiset J) := fun m => (add_zero m).symm
  have hsame : ∀ {i : Fin n} {w : Worker J}, w.jobs = (p.workers i).jobs →
      (([] : List J) : Multiset J) + (p.setWorker i w).runningJobs =
        p.runningJobs + (([] : List J) : Multiset J) := by
    intro i w hw
    rw [runningJobs_of_same hw, hzero, ← hnil]
  cases hm with
  | wakes job i hopen hasleep =>
      refine h.concat (Or.inl rfl) (queued_append p job).symm (hsame ?_)
      rw [hasleep]
      rfl
  | enqueue job hopen hnone =>
      exact h.concat (Or.inl rfl) (queued_append p job).symm ((hzero _).trans (hnil _))
  | refuse job =>
      exact h.concat (Or.inl rfl) (List.append_nil _) ((hzero _).trans (hnil _))
  | sleep i hready hempty =>
      refine h.concat (Or.inl rfl) (List.append_nil _) (hsame ?_)
      rw [hready]
      rfl
  | take i job rest hready hjobs =>
      have hnot : p.joining = none := by
        cases hk : p.joining with
        | none => rfl
        | some k =>
            obtain ⟨rest', hnone⟩ := hphase.token i hk
            rw [hjobs] at hnone
            cases hnone
      refine h.concat (Or.inr (hphase.before hnot).2.1) ?_ ?_
      · rw [queued, hjobs]
        exact List.append_nil _
      · have hset := runningJobs_setWorker p i (.running job)
        rw [hready] at hset
        exact (hzero _).trans ((add_zero _).symm.trans hset)
  | exit i rest hready hjobs =>
      refine h.concat (Or.inl rfl) ?_ (hsame ?_)
      · rw [queued, hjobs]
        exact List.append_nil _
      · rw [hready]
        rfl
  | wake i hasleep =>
      refine h.concat (Or.inl rfl) (List.append_nil _) (hsame ?_)
      rw [hasleep]
      rfl
  | finish i job hrunning =>
      refine h.concat (Or.inl rfl) (List.append_nil _) ?_
      have hset := runningJobs_setWorker p i .ready
      rw [hrunning] at hset
      exact (add_comm _ _).trans hset
  | cancel hnot =>
      refine h.concat (Or.inl rfl) ?_ ?_
      · have htokens : (List.replicate p.mThreads.length (none : Option J)).reduceOption = [] := by
          rw [List.reduceOption_replicate_none]
        show p.queued ++ [] = [] ++ ((p.queued ++ []) ++ List.reduceOption _)
        rw [htokens]
        simp
      · exact ((hzero _).trans (tally_broadcast rfl p)).trans (hnil _)
  | join k info hk hentry hexited =>
      exact h.concat (Or.inl rfl) (List.append_nil _) ((hzero _).trans (hnil _))

/-- Somebody is awake as long as there is something in the queue. -/
theorem awake_moves (hn : 0 < n) (h : p.mJobs ≠ [] → ∃ i, p.workers i ≠ .asleep)
    (hm : Moves p e p') : p'.mJobs ≠ [] → ∃ i, p'.workers i ≠ .asleep := by
  have hself : ∀ {i : Fin n} {w : Worker J}, w ≠ .asleep →
      (p.setWorker i w).workers i ≠ .asleep := by
    intro i w hw
    rwa [setWorker_self]
  cases hm with
  | wakes job i => exact fun _ => ⟨i, hself nofun⟩
  | enqueue job hopen hnone => exact fun _ => ⟨⟨0, hn⟩, hnone _⟩
  | refuse => exact h
  | sleep i hready hempty => exact fun hne => absurd hempty hne
  | take i => exact fun _ => ⟨i, hself nofun⟩
  | exit i => exact fun _ => ⟨i, hself nofun⟩
  | wake i => exact fun _ => ⟨i, hself nofun⟩
  | finish i => exact fun _ => ⟨i, hself nofun⟩
  | cancel => exact fun _ => ⟨⟨0, hn⟩, p.broadcast_ne_asleep _⟩
  | join => exact h

theorem joining_moves (h : p.joining ≠ none) (hm : Moves p e p') : p'.joining ≠ none := by
  cases hm with
  | cancel => exact nofun
  | join => exact nofun
  | _ => exact h

/-- A queue of tokens holds no job. -/
theorem Phase.queued_eq_nil (h : Phase es p) (hk : p.joining ≠ none) : p.queued = [] := by
  obtain ⟨k, hk⟩ := Option.ne_none_iff_exists'.mp hk
  have htokens : p.mJobs = List.replicate p.mJobs.length none :=
    List.eq_replicate_of_mem (h.after k hk).2.1
  rw [queued, htokens, List.reduceOption_replicate_none]

variable [DecidableEq J]

theorem exec_kept (h : exec step (new J n) es = some p) : Phase es p ∧ Accounted es p := by
  apply exec_induction (P := fun es p => Phase es p ∧ Accounted es p) _ _ h
  · exact ⟨.start, .start⟩
  · rintro es p e p' - ⟨hphase, hacc⟩ hstep
    have hm := step_moves hstep
    exact ⟨hphase.moves hm, hacc.moves hphase hm⟩

/-- Once the destructor has been called no job is taken. -/
theorem taken_of_joining {es' : List (Event J n)} (hphase : Phase es p) (hk : p.joining ≠ none)
    (h : exec step p es' = some p') : taken es' = [] ∧ p'.joining ≠ none := by
  refine And.imp_right And.left (exec_induction (P := fun es' q => taken es' = [] ∧
    q.joining ≠ none ∧ Phase (es ++ es') q) ⟨rfl, hk, ?_⟩ ?_ h)
  · rwa [List.append_nil]
  · rintro es' q e q' - ⟨htaken, hq, hphase⟩ hstep
    have hm := step_moves hstep
    refine ⟨?_, joining_moves hq hm, ?_⟩
    · rw [taken_append, htaken, List.nil_append]
      cases hm with
      | take i job rest hready hjobs =>
          obtain ⟨k, hk⟩ := Option.ne_none_iff_exists'.mp hq
          obtain ⟨rest', hnone⟩ := hphase.token i hk
          rw [hjobs] at hnone
          cases hnone
      | _ => rfl
    · rw [← List.append_assoc]
      exact hphase.moves hm

end Runs

/-- In every run jobs are taken in the order of the queue, each at most once, and deleted
once, by the worker or by the destructor; the queue is not left to sleepers, and not taken
from when the destructor has been called; from then on every worker gets a token. -/
structure Serves (J : Type) [DecidableEq J] (n : Nat) : Prop where
  order : ∀ es p, exec step (new J n) es = some p →
    accepted es = taken es ++ (dropped es ++ p.queued)
  deleted : ∀ es p, exec step (new J n) es = some p →
    (finished es : Multiset J) + p.runningJobs = taken es
  awake : ∀ es p, exec step (new J n) es = some p → p.mJobs ≠ [] → ∃ i, p.workers i ≠ .asleep
  notRun : ∀ es jobs es' p, exec step (new J n) (es ++ .cancel jobs :: es') = some p →
    taken es' = [] ∧ p.queued = []
  tokens : ∀ es p, exec step (new J n) es = some p → p.joining ≠ none →
    ∀ i, p.workers i ≠ .asleep ∧ (p.workers i = .ready → ∃ q, p.step (.exit i) = some q)

/-- In every run the destructor joins threads that were started, none of them twice, and
when it is done all of them. -/
structure JoinsStarted (J : Type) [DecidableEq J] (n : Nat) : Prop where
  started : ∀ es p, exec step (new J n) es = some p → ∀ t ∈ joined es, ∃ i, t = some i
  once : ∀ es p, exec step (new J n) es = some p → (joined es).Nodup
  all : ∀ es p, exec step (new J n) es = some p → p.joining = some p.mThreads.length →
    ∀ i, some i ∈ joined es

structure LifeCycle (J : Type) [DecidableEq J] (n : Nat) : Prop extends
  Serves J n, JoinsStarted J n

theorem serves (J : Type) [DecidableEq J] {n : Nat} (hn : 0 < n) : Serves J n where
  order es p h := (exec_kept h).2.order
  deleted es p h := (exec_kept h).2.deleted
  awake es p h := by
    apply exec_induction (P := fun _ p => p.mJobs ≠ [] → ∃ i, p.workers i ≠ .asleep) _ _ h
    · exact fun hne => absurd rfl hne
    · rintro es p e p' - hawake hstep
      exact awake_moves hn hawake (step_moves hstep)
  notRun es jobs es' p h := by
    have hassoc : es ++ .cancel jobs :: es' = (es ++ [.cancel jobs]) ++ es' := by simp
    rw [hassoc] at h
    obtain ⟨m, hm, hrest⟩ := exec_append_eq_some.mp h
    obtain ⟨m₀, hm₀, hcancel⟩ := exec_concat_eq_some.mp hm
    have hjoining : m.joining ≠ none := by
      obtain ⟨-, hcancel⟩ := Option.ite_none_right_eq_some.mp hcancel
      cases hcancel
      exact nofun
    obtain ⟨htaken, hp⟩ := taken_of_joining (exec_kept hm).1 hjoining hrest
    exact ⟨htaken, (exec_kept h).1.queued_eq_nil hp⟩
  tokens es p h hk i := by
    obtain ⟨k, hk⟩ := Option.ne_none_iff_exists'.mp hk
    have hphase := (exec_kept h).1
    obtain ⟨rest, hjobs⟩ := hphase.token i hk
    refine ⟨(hphase.after k hk).2.2.2.1 i, fun hready => ?_⟩
    rw [step, hjobs, if_pos ⟨hready, rfl⟩]
    exact ⟨_, rfl⟩

/-- The first entry that the destructor joins is none of the threads. -/
theorem exec_join_nothing (J : Type) [DecidableEq J] {n : Nat} (hn : 0 < n) :
    ∃ p, exec step (new J n) [.cancel [], .join none] = some p := by
  have hfirst : (new J n).mThreads[0]?.map ThreadInfo.pthread = some none := by
    rw [← List.getElem?_map, mThreads_eq, List.getElem?_append_left (by simpa using hn),
      List.getElem?_replicate_of_lt hn]
  obtain ⟨q, hq, hthreads, hk⟩ : ∃ q, (new J n).step (.cancel []) = some q ∧
      q.mThreads = (new J n).mThreads ∧ q.joining = some 0 :=
    ⟨{ (new J n).broadcast with
        mCancelling := true
        mJobs := List.replicate (new J n).mThreads.length none
        joining := some 0 }, by rw [step, if_pos ⟨rfl, rfl⟩], rfl, rfl⟩
  have hjoin : q.step (.join none) = some { q with joining := some 1 } := by
    rw [step, hk]
    exact if_pos ⟨by rw [hthreads, hfirst], nofun⟩
  refine ⟨{ q with joining := some 1 }, ?_⟩
  rw [exec, hq, Option.bind_some, exec, hjoin]
  rfl

/-- The destructor joins what no thread was started for. -/
theorem not_joinsStarted (J : Type) [DecidableEq J] {n : Nat} (hn : 0 < n) :
    ¬ JoinsStarted J n := by
  intro hjoins
  obtain ⟨p, hrun⟩ := exec_join_nothing J hn
  obtain ⟨i, hi⟩ := hjoins.started _ p hrun none (List.mem_singleton_self _)
  cases hi

/-- No pool goes through the life cycle. -/
theorem lifeCycle_false (J : Type) [DecidableEq J] (n : Nat) (hn : 1 ≤ n) : ¬ LifeCycle J n :=
  fun hlife => not_joinsStarted J hn hlife.toJoinsStarted

theorem lifeCycle_false_four : ¬ LifeCycle Nat 4 := lifeCycle_false Nat 4 (by decide)

/-- A pool of two threads. -/
theorem two_never_joined : ¬ LifeCycle Nat 2 :=
  fun hlife => not_joinsStarted Nat (by decide) hlife.toJoinsStarted

end ThreadPool

end Lzopfs
