import Lzopfs.LRUMap
import Lzopfs.OpenCompressedFile
import Lzopfs.ThreadPool

/-!
# The cache of blocks

`getBlocks` delivers the blocks that are cached, queues a job for each of the others, and
waits till the jobs have counted a number down to zero. A job delivers its block from the
cache or decompresses it. Calls and workers interleave freely between the sections that
are guarded by the lock of the cache, of the pool or of a call.
-/

namespace Lzopfs

open Verify

namespace BlockCache

structure Key where
  id : String
  offset : Int
  deriving DecidableEq

abbrev Map := LRUMap Key Buffer

/-- The key of a block of a file. -/
def keyOf (file : String) (b : Block) : Key := ⟨file, toOff b.coff⟩

/-- A job is for one of the blocks that a call needs. -/
structure Job where
  call : Nat
  index : Nat
  deriving DecidableEq

/-- How far a job has come. -/
inductive Pc where
  | start
  /-- The block is not cached. -/
  | missed
  | decompressed (nbuf : Buffer)
  | added (nbuf : Buffer)
  | delivered
  | counted

/-- Where a call is, once it has looked through the cache. -/
inductive Phase where
  /-- It has queued so many jobs. -/
  | enqueuing (done : Nat)
  | waiting
  /-- Its wait has ended, but the lock is still to be taken. -/
  | woken
  | returned
  deriving DecidableEq

/-- A call of `getBlocks`, with the blocks from its iterator up to `max`. -/
structure Call where
  file : String
  blocks : List Block
  need : List Block
  remain : Nat
  phase : Phase
  delivered : List (Block × Buffer)

end BlockCache

open BlockCache

structure BlockCache (n : Nat) where
  mMap : Map
  mPool : ThreadPool Job n
  /-- How far the job of each worker has come. -/
  pcs : Fin n → Pc
  calls : Nat → Option Call
  terminated : Bool

namespace BlockCache

variable {n : Nat}

def new (n : Nat) (maxSize : UInt64) : BlockCache n where
  mMap := LRUMap.new maxSize
  mPool := ThreadPool.new Job n
  pcs := fun _ => .start
  calls := fun _ => none
  terminated := false

/-- What a lookup points to. -/
def found : LRUMap.Outcome Key Buffer → Option Buffer
  | .value v => v
  | _ => none

/-- The first section of a call: what is cached is delivered, the other blocks are
needed. -/
def scan (file : String) : Map → List Block → Map × List (Block × Buffer) × List Block
  | m, [] => (m, [], [])
  | m, b :: bs =>
      let (o, m) := m.find (keyOf file b)
      let (m, hits, need) := scan file m bs
      match found o with
      | some buf => (m, (b, buf) :: hits, need)
      | none => (m, hits, b :: need)

/-- What happens. -/
inductive Event (n : Nat) where
  /-- The first section of a call. -/
  | scan (c : Nat) (file : String) (it : List Block) (max : Int)
  | enqueue (c : Nat) (wakes : Option (Fin n))
  | wait (c : Nat)
  /-- The call has its lock again, and returns. -/
  | resume (c : Nat)
  /-- The wait of a call ends without a signal. -/
  | spurious (c : Nat)
  /-- A worker waits for a job, or wakes up without a signal. -/
  | sleep (i : Fin n)
  | wake (i : Fin n)
  | take (i : Fin n) (job : Job)
  /-- The next section of the job that a worker runs. -/
  | work (i : Fin n)
  /-- `decompressBlock` throws. -/
  | throws (i : Fin n) (job : Job)
  | finish (i : Fin n) (job : Job)

def setCall (s : BlockCache n) (c : Nat) (call : Call) : BlockCache n :=
  { s with calls := Function.update s.calls c (some call) }

def setPc (s : BlockCache n) (i : Fin n) (pc : Pc) : BlockCache n :=
  { s with pcs := Function.update s.pcs i pc }

@[simp] theorem setCall_self (s : BlockCache n) (c : Nat) (call : Call) :
    (s.setCall c call).calls c = some call := by
  simp [setCall]

theorem setCall_of_ne (s : BlockCache n) {c d : Nat} (call : Call) (h : d ≠ c) :
    (s.setCall c call).calls d = s.calls d := by
  simp [setCall, h]

@[simp] theorem setPc_self (s : BlockCache n) (i : Fin n) (pc : Pc) :
    (s.setPc i pc).pcs i = pc := by
  simp [setPc]

theorem setPc_of_ne (s : BlockCache n) {i k : Fin n} (pc : Pc) (h : k ≠ i) :
    (s.setPc i pc).pcs k = s.pcs k := by
  simp [setPc, h]

/-- The callback of a call. -/
def Call.deliver (call : Call) (b : Block) (buf : Buffer) : Call :=
  { call with delivered := call.delivered ++ [(b, buf)] }

/-- Count down, and signal at zero. -/
def Call.countDown (call : Call) : Call :=
  { call with
    remain := call.remain - 1
    phase := if call.remain - 1 = 0 ∧ call.phase = .waiting then .woken else call.phase }

/-- The job that a worker runs, with its call and its block. -/
def running (s : BlockCache n) (i : Fin n) : Option (Job × Call × Block) :=
  match s.mPool.workers i with
  | .running job =>
      match s.calls job.call with
      | some call => call.need[job.index]?.map fun b => (job, call, b)
      | none => none
  | _ => none

/-- A step of the pool. -/
def poolStep (s : BlockCache n) (e : ThreadPool.Event Job n) : Option (BlockCache n) :=
  (s.mPool.step e).map fun mPool => { s with mPool }

/-- A step of a job, given what `decompressBlock` makes of a block. -/
def jobStep (content : String → Block → Buffer) (s : BlockCache n) (i : Fin n) :
    Pc → Job → Call → Block → Option (BlockCache n)
  | .start, job, call, b =>
      let (o, m) := s.mMap.find (keyOf call.file b)
      match found o with
      | some buf =>
          some (({ s with mMap := m }.setCall job.call (call.deliver b buf)).setPc i .delivered)
      | none => some ({ s with mMap := m }.setPc i .missed)
  | .missed, _, call, b => some (s.setPc i (.decompressed (content call.file b)))
  | .decompressed nbuf, _, call, b =>
      let (_, m) := s.mMap.add (keyOf call.file b) nbuf (UInt64.ofNat nbuf.length)
      some ({ s with mMap := m }.setPc i (.added nbuf))
  | .added nbuf, job, call, b =>
      some ((s.setCall job.call (call.deliver b nbuf)).setPc i .delivered)
  | .delivered, job, call, _ =>
      if call.phase = .waiting ∨ call.phase = .woken then
        some ((s.setCall job.call call.countDown).setPc i .counted)
      else none
  | .counted, _, _, _ => none

def changePhase (s : BlockCache n) (c : Nat) (phase phase' : Phase) : Option (BlockCache n) :=
  match s.calls c with
  | some call =>
      if call.phase = phase then some (s.setCall c { call with phase := phase' }) else none
  | none => none

/-- `threadFunc` does not stop an exception, and so it ends the process. -/
def step (content : String → Block → Buffer) (s : BlockCache n) (e : Event n) :
    Option (BlockCache n) :=
  if s.terminated then none
  else match e with
    | .scan c file it max =>
        match s.calls c with
        | some _ => none
        | none =>
            let blocks := OpenCompressedFile.scanned it max
            let (m, hits, need) := scan file s.mMap blocks
            some ({ s with mMap := m }.setCall c
              { file := file
                blocks := blocks
                need := need
                remain := need.length
                phase := if need = [] then .returned else .enqueuing 0
                delivered := hits })
    | .enqueue c wakes =>
        match s.calls c with
        | some call =>
            match call.phase with
            | .enqueuing k =>
                if k < call.need.length then
                  (s.poolStep (.enqueue ⟨c, k⟩ wakes)).map fun s =>
                    s.setCall c { call with phase := .enqueuing (k + 1) }
                else none
            | _ => none
        | none => none
    | .wait c =>
        match s.calls c with
        | some call => s.changePhase c (.enqueuing call.need.length) .waiting
        | none => none
    | .resume c => s.changePhase c .woken .returned
    | .spurious c => s.changePhase c .waiting .woken
    | .sleep i => s.poolStep (.sleep i)
    | .wake i => s.poolStep (.wake i)
    | .take i job => (s.poolStep (.take i job)).map fun s => s.setPc i .start
    | .work i =>
        match s.running i with
        | some (job, call, b) => jobStep content s i (s.pcs i) job call b
        | none => none
    | .throws i job =>
        match s.mPool.workers i, s.pcs i with
        | .running job', .missed => if job' = job then some { s with terminated := true } else none
        | _, _ => none
    | .finish i job =>
        match s.pcs i with
        | .counted => s.poolStep (.finish i job)
        | _ => none

/-- What the job of a worker can do next. -/
inductive JobMoves (content : String → Block → Buffer) (s : BlockCache n) (i : Fin n) (job : Job)
    (call : Call) (b : Block) : Pc → BlockCache n → Prop where
  | hit {m : Map} {o : LRUMap.Outcome Key Buffer} {buf : Buffer}
      (hfind : s.mMap.find (keyOf call.file b) = (o, m)) (hfound : found o = some buf) :
      JobMoves content s i job call b .start
        (({ s with mMap := m }.setCall job.call (call.deliver b buf)).setPc i .delivered)
  | miss {m : Map} {o : LRUMap.Outcome Key Buffer}
      (hfind : s.mMap.find (keyOf call.file b) = (o, m)) (hfound : found o = none) :
      JobMoves content s i job call b .start ({ s with mMap := m }.setPc i .missed)
  | decompress : JobMoves content s i job call b .missed
      (s.setPc i (.decompressed (content call.file b)))
  | add {m : Map} {o : LRUMap.Outcome Key Buffer} (nbuf : Buffer)
      (hadd : s.mMap.add (keyOf call.file b) nbuf (UInt64.ofNat nbuf.length) = (o, m)) :
      JobMoves content s i job call b (.decompressed nbuf)
        ({ s with mMap := m }.setPc i (.added nbuf))
  | callback (nbuf : Buffer) : JobMoves content s i job call b (.added nbuf)
      ((s.setCall job.call (call.deliver b nbuf)).setPc i .delivered)
  | count (hphase : call.phase = .waiting ∨ call.phase = .woken) :
      JobMoves content s i job call b .delivered
        ((s.setCall job.call call.countDown).setPc i .counted)

/-- What a step can do. -/
inductive Moves (content : String → Block → Buffer) (s : BlockCache n) :
    Event n → BlockCache n → Prop where
  | scan {c : Nat} {file : String} {it : List Block} {max : Int} {m : Map}
      {hits : List (Block × Buffer)} {need : List Block} (hfresh : s.calls c = none)
      (hscan : BlockCache.scan file s.mMap (OpenCompressedFile.scanned it max) =
        (m, hits, need)) :
      Moves content s (.scan c file it max) ({ s with mMap := m }.setCall c
        { file := file
          blocks := OpenCompressedFile.scanned it max
          need := need
          remain := need.length
          phase := if need = [] then .returned else .enqueuing 0
          delivered := hits })
  | enqueue {c k : Nat} {wakes : Option (Fin n)} {call : Call} {mPool : ThreadPool Job n}
      (hcall : s.calls c = some call) (hphase : call.phase = .enqueuing k)
      (hk : k < call.need.length) (hpool : s.mPool.Moves (.enqueue ⟨c, k⟩ wakes) mPool) :
      Moves content s (.enqueue c wakes)
        ({ s with mPool := mPool }.setCall c { call with phase := .enqueuing (k + 1) })
  | wait {c : Nat} {call : Call} (hcall : s.calls c = some call)
      (hphase : call.phase = .enqueuing call.need.length) :
      Moves content s (.wait c) (s.setCall c { call with phase := .waiting })
  | resume {c : Nat} {call : Call} (hcall : s.calls c = some call) (hphase : call.phase = .woken) :
      Moves content s (.resume c) (s.setCall c { call with phase := .returned })
  | spurious {c : Nat} {call : Call} (hcall : s.calls c = some call)
      (hphase : call.phase = .waiting) :
      Moves content s (.spurious c) (s.setCall c { call with phase := .woken })
  | sleep {i : Fin n} {mPool : ThreadPool Job n} (hpool : s.mPool.Moves (.sleep i) mPool) :
      Moves content s (.sleep i) { s with mPool := mPool }
  | wake {i : Fin n} {mPool : ThreadPool Job n} (hpool : s.mPool.Moves (.wake i) mPool) :
      Moves content s (.wake i) { s with mPool := mPool }
  | take {i : Fin n} {job : Job} {mPool : ThreadPool Job n}
      (hpool : s.mPool.Moves (.take i job) mPool) :
      Moves content s (.take i job) ({ s with mPool := mPool }.setPc i .start)
  | work {i : Fin n} {job : Job} {call : Call} {b : Block} {s' : BlockCache n}
      (hrunning : s.mPool.workers i = .running job) (hcall : s.calls job.call = some call)
      (hb : call.need[job.index]? = some b)
      (hjob : JobMoves content s i job call b (s.pcs i) s') : Moves content s (.work i) s'
  | throws {i : Fin n} {job : Job} (hrunning : s.mPool.workers i = .running job)
      (hpc : s.pcs i = .missed) : Moves content s (.throws i job) { s with terminated := true }
  | finish {i : Fin n} {job : Job} {mPool : ThreadPool Job n} (hpc : s.pcs i = .counted)
      (hpool : s.mPool.Moves (.finish i job) mPool) :
      Moves content s (.finish i job) { s with mPool := mPool }

section Inversion

variable {content : String → Block → Buffer} {s s' : BlockCache n} {e : Event n}

theorem poolStep_moves {pe : ThreadPool.Event Job n} (h : s.poolStep pe = some s') :
    ∃ mPool, s.mPool.Moves pe mPool ∧ s' = { s with mPool := mPool } := by
  obtain ⟨mPool, hpool, rfl⟩ := Option.map_eq_some_iff.mp h
  exact ⟨mPool, ThreadPool.step_moves hpool, rfl⟩

theorem changePhase_moves {c : Nat} {phase phase' : Phase}
    (h : s.changePhase c phase phase' = some s') :
    ∃ call, s.calls c = some call ∧ call.phase = phase ∧
      s' = s.setCall c { call with phase := phase' } := by
  rw [changePhase] at h
  split at h
  · rename_i call hcall
    obtain ⟨hphase, h⟩ := Option.ite_none_right_eq_some.mp h
    cases h
    exact ⟨call, hcall, hphase, rfl⟩
  · cases h

theorem jobStep_moves {i : Fin n} {pc : Pc} {job : Job} {call : Call} {b : Block}
    (h : jobStep content s i pc job call b = some s') : JobMoves content s i job call b pc s' := by
  cases pc with
  | start =>
      rw [jobStep] at h
      dsimp only at h
      split at h
      · rename_i buf hfound
        cases h
        exact .hit rfl hfound
      · rename_i hfound
        cases h
        exact .miss rfl hfound
  | missed =>
      cases h
      exact .decompress
  | decompressed nbuf =>
      cases h
      exact .add nbuf rfl
  | added nbuf =>
      cases h
      exact .callback nbuf
  | delivered =>
      obtain ⟨hphase, h⟩ := Option.ite_none_right_eq_some.mp h
      cases h
      exact .count hphase
  | counted => cases h

theorem step_moves (h : step content s e = some s') :
    s.terminated = false ∧ Moves content s e s' := by
  rw [step.eq_def] at h
  obtain ⟨halive, h⟩ := Option.ite_none_left_eq_some.mp h
  refine ⟨Bool.eq_false_iff.mpr halive, ?_⟩
  cases e with
  | scan c file it max =>
      dsimp only at h
      split at h
      · cases h
      · rename_i hfresh
        cases h
        exact .scan hfresh rfl
  | enqueue c wakes =>
      dsimp only at h
      split at h
      · rename_i call hcall
        split at h
        · rename_i k hphase
          obtain ⟨hk, h⟩ := Option.ite_none_right_eq_some.mp h
          obtain ⟨t, ht, rfl⟩ := Option.map_eq_some_iff.mp h
          obtain ⟨mPool, hpool, rfl⟩ := poolStep_moves ht
          exact .enqueue hcall hphase hk hpool
        · cases h
      · cases h
  | wait c =>
      dsimp only at h
      split at h
      · rename_i call hcall
        obtain ⟨call', hcall', hphase, rfl⟩ := changePhase_moves h
        rw [hcall] at hcall'
        cases hcall'
        exact .wait hcall hphase
      · cases h
  | resume c =>
      obtain ⟨call, hcall, hphase, rfl⟩ := changePhase_moves h
      exact .resume hcall hphase
  | spurious c =>
      obtain ⟨call, hcall, hphase, rfl⟩ := changePhase_moves h
      exact .spurious hcall hphase
  | sleep i =>
      obtain ⟨mPool, hpool, rfl⟩ := poolStep_moves h
      exact .sleep hpool
  | wake i =>
      obtain ⟨mPool, hpool, rfl⟩ := poolStep_moves h
      exact .wake hpool
  | take i job =>
      obtain ⟨t, ht, rfl⟩ := Option.map_eq_some_iff.mp h
      obtain ⟨mPool, hpool, rfl⟩ := poolStep_moves ht
      exact .take hpool
  | work i =>
      dsimp only at h
      split at h
      · rename_i job call b hrun
        rw [running] at hrun
        split at hrun
        · rename_i job' hworker
          split at hrun
          · rename_i call' hcall
            obtain ⟨b', hb, heq⟩ := Option.map_eq_some_iff.mp hrun
            cases heq
            exact .work hworker hcall hb (jobStep_moves h)
          · cases hrun
        · cases hrun
      · cases h
  | throws i job =>
      dsimp only at h
      split at h
      · rename_i job' hworker hpc
        obtain ⟨hjob, hs⟩ := Option.ite_none_right_eq_some.mp h
        cases hs
        rw [hjob] at hworker
        exact .throws hworker hpc
      · cases h
  | finish i job =>
      dsimp only at h
      split at h
      · rename_i hpc
        obtain ⟨mPool, hpool, rfl⟩ := poolStep_moves h
        exact .finish hpc hpool
      · cases h

end Inversion

end BlockCache

end Lzopfs
