import Lzopfs.BlockFaults
import Lzopfs.IndexFile

/-!
# What is delivered

Buffers are cached under the file and the compressed offset of their block. If no two
blocks of a file have that offset in common, what is cached under a key is what the block
with that key contains, and so is all that a call delivers.
-/

namespace Lzopfs

open Verify

namespace BlockCache

variable {n : Nat}

/-- What the cache holds of the blocks of files. -/
structure Faithful (content : String → Block → Buffer) (files : String → List Block) (m : Map) :
    Prop where
  coherent : m.Coherent
  entries : ∀ e ∈ m.contents, ∃ b ∈ files e.key.id,
    e.key = keyOf e.key.id b ∧ e.value = content e.key.id b

/-- No two blocks of a file are at the same offset. -/
def Distinct (files : String → List Block) : Prop := ∀ file, ((files file).map Block.coff).Nodup

section Faithful

variable {content : String → Block → Buffer} {files : String → List Block} {m m' : Map}
  {file : String} {b : Block}

theorem Distinct.eq_of_keyOf (hfiles : Distinct files) {b b' : Block} (hb : b ∈ files file)
    (hb' : b' ∈ files file) (hkey : keyOf file b = keyOf file b') : b = b' :=
  List.inj_on_of_nodup_map (hfiles file) hb hb'
    (IndexedCompFile.toOff_injective (Key.mk.inj hkey).2)

/-- A block that is found in the cache. -/
theorem Faithful.found (h : Faithful content files m) (hfiles : Distinct files)
    (hb : b ∈ files file) {o : LRUMap.Outcome Key Buffer} {buf : Buffer}
    (hfind : m.find (keyOf file b) = (o, m')) (hfound : BlockCache.found o = some buf) :
    buf = content file b := by
  have hvalue := (h.coherent.find_value (keyOf file b)).1
  rw [hfind] at hvalue
  dsimp only at hvalue
  rw [hvalue] at hfound
  obtain ⟨e, he, rfl⟩ := Option.map_eq_some_iff.mp hfound
  have hfirst := List.find?_some he
  have hkey : e.key = keyOf file b := of_decide_eq_true hfirst
  obtain ⟨b', hb', hkey', hbuf⟩ := h.entries e (List.mem_of_find?_eq_some he)
  rw [hkey] at hb' hkey' hbuf
  have heq : b = b' := hfiles.eq_of_keyOf hb hb' hkey'
  rw [hbuf, ← heq]
  rfl

theorem Faithful.find (h : Faithful content files m) {k : Key} {o : LRUMap.Outcome Key Buffer}
    (hfind : m.find k = (o, m')) : Faithful content files m' := by
  have hcoherent := (h.coherent.find k).1
  have hperm := (h.coherent.find_value k).2
  rw [hfind] at hcoherent hperm
  exact ⟨hcoherent, fun e he => h.entries e (hperm.mem_iff.mp he)⟩

theorem Faithful.add (h : Faithful content files m) (hb : b ∈ files file)
    {o : LRUMap.Outcome Key Buffer} {w : UInt64}
    (hadd : m.add (keyOf file b) (content file b) w = (o, m')) : Faithful content files m' := by
  have hcoherent := (h.coherent.add (keyOf file b) (content file b) w).1
  have hmem := @LRUMap.Coherent.mem_add Key Buffer m _ h.coherent (keyOf file b) (content file b) w
  rw [hadd] at hcoherent hmem
  refine ⟨hcoherent, fun e he => ?_⟩
  obtain rfl | hin := hmem he
  · exact ⟨b, hb, rfl, rfl⟩
  · exact h.entries e hin

/-- The first section of a call delivers contents, and needs blocks of the file. -/
theorem Faithful.scan {blocks need : List Block} {hits : List (Block × Buffer)}
    (h : Faithful content files m) (hfiles : Distinct files)
    (hblocks : ∀ b ∈ blocks, b ∈ files file)
    (hscan : BlockCache.scan file m blocks = (m', hits, need)) :
    Faithful content files m' ∧ (∀ d ∈ hits, d.2 = content file d.1) ∧
      ∀ b ∈ need, b ∈ files file := by
  induction blocks generalizing m m' hits need with
  | nil =>
      cases hscan
      exact ⟨h, nofun, nofun⟩
  | cons b bs ih =>
      rw [List.forall_mem_cons] at hblocks
      obtain ⟨hb, hbs⟩ := hblocks
      rw [BlockCache.scan] at hscan
      dsimp only at hscan
      obtain ⟨hm', hhits, hneed⟩ := ih (h.find rfl) hbs rfl
      split at hscan
      · rename_i buf hfound
        cases hscan
        refine ⟨hm', ?_, hneed⟩
        rw [List.forall_mem_cons]
        exact ⟨h.found hfiles hb rfl hfound, hhits⟩
      · cases hscan
        refine ⟨hm', hhits, ?_⟩
        rw [List.forall_mem_cons]
        exact ⟨hb, hneed⟩

end Faithful

/-- A call keeps its file, its blocks and what it needs. -/
def Stable (s t : BlockCache n) : Prop :=
  ∀ c call, s.calls c = some call → ∃ call', t.calls c = some call' ∧
    call'.file = call.file ∧ call'.blocks = call.blocks ∧ call'.need = call.need

/-- What the job of a worker has decompressed is the content of its block. -/
def Result (content : String → Block → Buffer) (s : BlockCache n) (i : Fin n) : Prop :=
  ∀ job call b nbuf, s.mPool.workers i = .running job → s.calls job.call = some call →
    call.need[job.index]? = some b → s.pcs i = .decompressed nbuf ∨ s.pcs i = .added nbuf →
      nbuf = content call.file b

/-- A call is about blocks of its file, and has delivered contents. -/
structure Honest (content : String → Block → Buffer) (files : String → List Block) (call : Call) :
    Prop where
  need : ∀ b ∈ call.need, b ∈ files call.file
  delivered : ∀ d ∈ call.delivered, d.2 = content call.file d.1

structure Truthful (content : String → Block → Buffer) (files : String → List Block)
    (s : BlockCache n) : Prop where
  cache : Faithful content files s.mMap
  calls : ∀ c call, s.calls c = some call → Honest content files call
  results : ∀ i, Result content s i

section Truthful

variable {content : String → Block → Buffer} {files : String → List Block} {s t : BlockCache n}
  {c : Nat} {call call' : Call} {job : Job} {e : Event n} {i : Fin n} {b : Block}

theorem stable_setCall (hcall : s.calls c = some call)
    (hcalls : t.calls = Function.update s.calls c (some call')) (hfile : call'.file = call.file)
    (hblocks : call'.blocks = call.blocks) (hneed : call'.need = call.need) : Stable s t := by
  intro d old hold
  rw [hcalls]
  by_cases hd : d = c
  · subst hd
    rw [hcall] at hold
    cases hold
    exact ⟨call', Function.update_self .., hfile, hblocks, hneed⟩
  · exact ⟨old, (Function.update_of_ne hd ..).trans hold, rfl, rfl, rfl⟩

theorem stable_of_eq (h : t.calls = s.calls) : Stable s t :=
  fun _ call hcall => ⟨call, h ▸ hcall, rfl, rfl, rfl⟩

theorem stable_moves (hm : Moves content s e t) : Stable s t := by
  cases hm with
  | @scan c file it max m hits need hfresh hscan =>
      intro d old hold
      have hd : d ≠ c := by
        rintro rfl
        rw [hfresh] at hold
        cases hold
      exact ⟨old, (setCall_of_ne _ _ hd).trans hold, rfl, rfl, rfl⟩
  | enqueue hcall => exact stable_setCall hcall rfl rfl rfl rfl
  | wait hcall => exact stable_setCall hcall rfl rfl rfl rfl
  | resume hcall => exact stable_setCall hcall rfl rfl rfl rfl
  | spurious hcall => exact stable_setCall hcall rfl rfl rfl rfl
  | sleep => exact stable_of_eq rfl
  | wake => exact stable_of_eq rfl
  | take => exact stable_of_eq rfl
  | work hrunning hcall hb hjob =>
      generalize s.pcs _ = pc at hjob
      cases hjob with
      | hit => exact stable_setCall hcall rfl rfl rfl rfl
      | miss => exact stable_of_eq rfl
      | decompress => exact stable_of_eq rfl
      | add => exact stable_of_eq rfl
      | callback => exact stable_setCall hcall rfl rfl rfl rfl
      | count => exact stable_setCall hcall rfl rfl rfl rfl
  | throws => exact stable_of_eq rfl
  | finish => exact stable_of_eq rfl

/-- A worker whose job has not moved on. -/
theorem Result.congr (h : Result content s i) (hknown : s.Known) (hstable : Stable s t)
    (hworker : ∀ job, t.mPool.workers i = .running job → s.mPool.workers i = .running job)
    (hpc : t.pcs i = s.pcs i) : Result content t i := by
  intro job call b nbuf hrunning hcall hb hpcs
  have hrunning' := hworker job hrunning
  obtain ⟨old, hold, -⟩ := hknown job (Or.inr ⟨i, hrunning'⟩)
  obtain ⟨new, hnew, hfile, -, hneed⟩ := hstable job.call old hold
  rw [hcall] at hnew
  cases hnew
  rw [hneed] at hb
  rw [hpc] at hpcs
  rw [hfile]
  exact h job old b nbuf hrunning' hold hb hpcs

/-- A job that has no result. -/
theorem Result.of_none (hpc : ∀ nbuf, t.pcs i ≠ .decompressed nbuf ∧ t.pcs i ≠ .added nbuf) :
    Result content t i :=
  fun _ _ _ nbuf _ _ _ hpcs => (hpcs.elim (hpc nbuf).1 (hpc nbuf).2).elim

/-- A job that the pool does not hand out was there before. -/
theorem running_of_moves {p q : ThreadPool Job n} {pe : ThreadPool.Event Job n} (hm : p.Moves pe q)
    (hpe : ∀ i job, pe ≠ .take i job) {k : Fin n} (hq : q.workers k = .running job) :
    p.workers k = .running job := by
  have hset : ∀ {i : Fin n} {w : Worker Job}, (p.setWorker i w).workers k = .running job →
      (∀ job, w ≠ .running job) → p.workers k = .running job := by
    intro i w hk hw
    by_cases hki : k = i
    · subst hki
      rw [ThreadPool.setWorker_self] at hk
      exact absurd hk (hw job)
    · rwa [ThreadPool.setWorker_of_ne p w hki] at hk
  cases hm with
  | wakes job i => exact hset hq nofun
  | enqueue => exact hq
  | refuse => exact hq
  | sleep i => exact hset hq nofun
  | take i job => exact absurd rfl (hpe i job)
  | exit i => exact hset hq nofun
  | wake i => exact hset hq nofun
  | finish i => exact hset hq nofun
  | cancel =>
      rw [ThreadPool.broadcast] at hq
      dsimp only at hq
      split at hq
      · cases hq
      · exact hq
  | join => exact hq

theorem Honest.deliver {buf : Buffer} (h : Honest content files call)
    (hbuf : buf = content call.file b) : Honest content files (call.deliver b buf) where
  need := h.need
  delivered d hd := by
    obtain hold | hnew := List.mem_append.mp hd
    · exact h.delivered d hold
    · rw [List.mem_singleton.mp hnew]
      exact hbuf

theorem honest_setCall (hs : ∀ c call, s.calls c = some call → Honest content files call)
    (hcalls : t.calls = Function.update s.calls c (some call'))
    (hself : Honest content files call') :
    ∀ d call, t.calls d = some call → Honest content files call := by
  intro d new hnew
  rw [hcalls] at hnew
  by_cases hd : d = c
  · subst hd
    rw [Function.update_self] at hnew
    cases hnew
    exact hself
  · rw [Function.update_of_ne hd] at hnew
    exact hs d new hnew

/-- A job does its next section. -/
theorem Truthful.work (hs : Truthful content files s) (hfiles : Distinct files) (hknown : s.Known)
    (hrunning : s.mPool.workers i = .running job) (hcall : s.calls job.call = some call)
    (hb : call.need[job.index]? = some b) (hjob : JobMoves content s i job call b (s.pcs i) t)
    (hstable : Stable s t) : Truthful content files t := by
  have hcontent : ∀ nbuf, s.pcs i = .decompressed nbuf ∨ s.pcs i = .added nbuf →
      nbuf = content call.file b := fun nbuf => hs.results i job call b nbuf hrunning hcall hb
  have hblock : b ∈ files call.file :=
    (hs.calls _ _ hcall).need b (List.mem_of_getElem? hb)
  have hsame : ∀ {m : Map} {calls : Nat → Option Call} {pc' : Pc} {k : Fin n}, k ≠ i →
      Stable s (({ s with mMap := m, calls := calls } : BlockCache n).setPc i pc') →
        Result content (({ s with mMap := m, calls := calls } : BlockCache n).setPc i pc') k :=
    fun hk hstable =>
      (hs.results _).congr hknown hstable (fun _ hworker => hworker) (setPc_of_ne _ _ hk)
  have hall : ∀ {m : Map} {calls : Nat → Option Call} {pc' : Pc},
      Stable s (({ s with mMap := m, calls := calls } : BlockCache n).setPc i pc') →
        Result content (({ s with mMap := m, calls := calls } : BlockCache n).setPc i pc') i →
          ∀ k, Result content
            (({ s with mMap := m, calls := calls } : BlockCache n).setPc i pc') k := by
    intro m calls pc' hstable hself k
    by_cases hk : k = i
    · subst hk
      exact hself
    · exact hsame hk hstable
  generalize hpc : s.pcs i = pc at hjob hcontent
  cases hjob with
  | hit hfind hfound =>
      have hbuf := hs.cache.found hfiles hblock hfind hfound
      refine
        ⟨hs.cache.find hfind, honest_setCall hs.calls rfl ((hs.calls _ _ hcall).deliver hbuf), ?_⟩
      exact hall hstable (.of_none fun nbuf => by rw [setPc_self]; exact ⟨nofun, nofun⟩)
  | miss hfind hfound =>
      refine ⟨hs.cache.find hfind, hs.calls, ?_⟩
      exact hall hstable (.of_none fun nbuf => by rw [setPc_self]; exact ⟨nofun, nofun⟩)
  | decompress =>
      refine ⟨hs.cache, hs.calls, hall hstable ?_⟩
      intro job' call' b' nbuf hrunning' hcall' hb' hpcs
      rw [setPc_self] at hpcs
      obtain hpcs | hpcs := hpcs
      · cases hrunning.symm.trans hrunning'
        cases hcall.symm.trans hcall'
        cases hb.symm.trans hb'
        cases hpcs
        rfl
      · cases hpcs
  | add nbuf hadd =>
      have hbuf := hcontent nbuf (Or.inl rfl)
      rw [hbuf] at hadd
      refine ⟨hs.cache.add hblock hadd, hs.calls, hall hstable ?_⟩
      intro job' call' b' nbuf' hrunning' hcall' hb' hpcs
      rw [setPc_self] at hpcs
      obtain hpcs | hpcs := hpcs
      · cases hpcs
      · cases hrunning.symm.trans hrunning'
        cases hcall.symm.trans hcall'
        cases hb.symm.trans hb'
        cases hpcs
        exact hbuf
  | callback nbuf =>
      have hbuf := hcontent nbuf (Or.inr rfl)
      refine ⟨hs.cache, honest_setCall hs.calls rfl ((hs.calls _ _ hcall).deliver hbuf), ?_⟩
      exact hall hstable (.of_none fun nbuf => by rw [setPc_self]; exact ⟨nofun, nofun⟩)
  | count hphase =>
      have hhonest := hs.calls _ _ hcall
      refine ⟨hs.cache, honest_setCall hs.calls rfl ⟨hhonest.need, hhonest.delivered⟩, ?_⟩
      exact hall hstable (.of_none fun nbuf => by rw [setPc_self]; exact ⟨nofun, nofun⟩)

/-- Iterators are over blocks of the files they are used for. -/
def Reads (files : String → List Block) (es : List (Event n)) : Prop :=
  ∀ c file it max, Event.scan c file it max ∈ es → ∀ b ∈ it, b ∈ files file

theorem Truthful.moves (hs : Truthful content files s) (hfiles : Distinct files) (hknown : s.Known)
    (hm : Moves content s e t) (he : Reads files [e]) : Truthful content files t := by
  have hstable := stable_moves hm
  have hkept : ∀ {t : BlockCache n}, Stable s t →
      (∀ k job, t.mPool.workers k = .running job → s.mPool.workers k = .running job) →
        t.pcs = s.pcs → ∀ k, Result content t k :=
    fun hstable hworkers hpcs k =>
      (hs.results k).congr hknown hstable (hworkers k) (congrFun hpcs k)
  -- A call that only moves on has the same blocks and deliveries.
  have hphase : ∀ {c : Nat} {call : Call} {phase : Phase}, s.calls c = some call →
      Honest content files { call with phase := phase } := fun hcall =>
    ⟨(hs.calls _ _ hcall).need, (hs.calls _ _ hcall).delivered⟩
  cases hm with
  | @scan c file it max m hits need hfresh hscan =>
      have hblocks : ∀ b ∈ OpenCompressedFile.scanned it max, b ∈ files file := fun b hb =>
        he c file it max (List.mem_singleton_self _) b ((List.takeWhile_prefix _).mem hb)
      obtain ⟨hm', hhits, hneed⟩ := hs.cache.scan hfiles hblocks hscan
      exact ⟨hm', honest_setCall hs.calls rfl ⟨hneed, hhits⟩,
        hkept hstable (fun _ _ hworker => hworker) rfl⟩
  | enqueue hcall hphase' hk hpool =>
      exact ⟨hs.cache, honest_setCall hs.calls rfl (hphase hcall),
        hkept hstable (fun _ _ hworker => running_of_moves hpool nofun hworker) rfl⟩
  | wait hcall =>
      exact ⟨hs.cache, honest_setCall hs.calls rfl (hphase hcall),
        hkept hstable (fun _ _ hworker => hworker) rfl⟩
  | resume hcall =>
      exact ⟨hs.cache, honest_setCall hs.calls rfl (hphase hcall),
        hkept hstable (fun _ _ hworker => hworker) rfl⟩
  | spurious hcall =>
      exact ⟨hs.cache, honest_setCall hs.calls rfl (hphase hcall),
        hkept hstable (fun _ _ hworker => hworker) rfl⟩
  | sleep hpool =>
      exact ⟨hs.cache, hs.calls,
        hkept hstable (fun _ _ hworker => running_of_moves hpool nofun hworker) rfl⟩
  | wake hpool =>
      exact ⟨hs.cache, hs.calls,
        hkept hstable (fun _ _ hworker => running_of_moves hpool nofun hworker) rfl⟩
  | @take i job mPool hpool =>
      refine ⟨hs.cache, hs.calls, fun k => ?_⟩
      by_cases hk : k = i
      · subst hk
        exact .of_none fun nbuf => by rw [setPc_self]; exact ⟨nofun, nofun⟩
      · refine (hs.results k).congr hknown hstable (fun job' hworker => ?_) (setPc_of_ne _ _ hk)
        cases hpool with
        | take _ _ rest => exact (ThreadPool.setWorker_of_ne _ _ hk).symm.trans hworker
  | work hrunning hcall hb hjob => exact hs.work hfiles hknown hrunning hcall hb hjob hstable
  | throws => exact ⟨hs.cache, hs.calls, hkept hstable (fun _ _ hworker => hworker) rfl⟩
  | finish hpc hpool =>
      exact ⟨hs.cache, hs.calls,
        hkept hstable (fun _ _ hworker => running_of_moves hpool nofun hworker) rfl⟩

theorem Reads.append {es es' : List (Event n)} (h : Reads files (es ++ es')) :
    Reads files es ∧ Reads files es' :=
  ⟨fun c file it max hin => h c file it max (List.mem_append_left _ hin),
    fun c file it max hin => h c file it max (List.mem_append_right _ hin)⟩

variable {maxSize : UInt64} {es : List (Event n)}

theorem exec_truthful (hfiles : Distinct files)
    (h : exec (step content) (new n maxSize) es = some s) (hes : Reads files es) :
    Truthful content files s := by
  revert hes
  apply exec_induction (P := fun es s => Reads files es → Truthful content files s) _ _ h
  · exact fun _ =>
      ⟨⟨LRUMap.coherent_new maxSize, nofun⟩, nofun, fun i job call b nbuf hrunning => by
      cases hrunning⟩
  · intro es s e t hrun hs hstep hes
    obtain ⟨hes, he⟩ := hes.append
    exact (hs hes).moves hfiles (exec_kept hrun).known (step_moves hstep).2 he

/-- A call stays what it was when it began. -/
theorem exec_begun (h : exec (step content) (new n maxSize) es = some s) {file : String}
    {it : List Block} {max : Int} (hin : Event.scan c file it max ∈ es) :
    ∃ call, s.calls c = some call ∧ call.file = file ∧
      call.blocks = OpenCompressedFile.scanned it max := by
  revert hin
  apply exec_induction (P := fun es s => Event.scan c file it max ∈ es →
    ∃ call, s.calls c = some call ∧ call.file = file ∧
      call.blocks = OpenCompressedFile.scanned it max) _ _ h
  · exact nofun
  · intro es s e t hrun hs hstep hin
    have hm := (step_moves hstep).2
    obtain hold | hnew := List.mem_append.mp hin
    · obtain ⟨call, hcall, hfile, hblocks⟩ := hs hold
      obtain ⟨call', hcall', hfile', hblocks', -⟩ := stable_moves hm c call hcall
      exact ⟨call', hcall', hfile'.trans hfile, hblocks'.trans hblocks⟩
    · rw [← List.mem_singleton.mp hnew] at hm
      cases hm with
      | scan hfresh hscan => exact ⟨_, setCall_self _ _ _, rfl, rfl⟩

/-- Nothing is owed once all jobs of a call have counted down. -/
theorem owed_eq_zero {need : List Block} (h : outstanding (uncounted c) s = 0) :
    outstanding (owed c need) s = 0 := by
  have hne : ∀ job, s.Unfinished job → job.call ≠ c := by
    rintro job hjob rfl
    exact absurd h hjob.outstanding_pos.ne'
  refine outstanding_eq_zero (fun job hjob => ?_) fun i job hi => ?_
  · exact owed_of_ne (hne job (Or.inl hjob))
  · by_cases hpc : s.pcs i = .counted
    · rw [hpc]
      rfl
    · exact owed_of_ne (hne job (Or.inr ⟨i, hi, hpc⟩))

/-- The delivery of blocks after a run: what the cache holds is the content of blocks; a
call is about the blocks from its iterator up to its bound, has delivered each of them at
most once, and exactly once when it has returned, with its content; it counts the jobs that
it has yet to queue, or that are queued or running and have yet to count down; it is not
asleep without one of these, and has not returned with one. -/
structure Protocol (content : String → Block → Buffer) (files : String → List Block)
    (es : List (Event n)) (s : BlockCache n) : Prop where
  cached : ∀ e ∈ s.mMap.contents, (∃ b ∈ files e.key.id, e.key = keyOf e.key.id b) ∧
    ∀ b ∈ files e.key.id, e.key = keyOf e.key.id b → e.value = content e.key.id b
  begun : ∀ c file it max, Event.scan c file it max ∈ es → ∃ call, s.calls c = some call ∧
    call.file = file ∧ call.blocks = OpenCompressedFile.scanned it max
  once : ∀ c call, s.calls c = some call →
    (call.delivered.map Prod.fst : Multiset Block) ≤ call.blocks ∧
      ∀ d ∈ call.delivered, d.2 = content call.file d.1
  all : ∀ c call, s.calls c = some call → call.phase = .returned →
    call.delivered.Perm (call.blocks.map fun b => (b, content call.file b))
  counted : ∀ c call, s.calls c = some call →
    call.remain = (call.need.drop call.done).length + outstanding (uncounted c) s
  awake : ∀ c call, s.calls c = some call → call.phase = .waiting →
    ∃ job, s.Unfinished job ∧ job.call = c
  last : ∀ c call, s.calls c = some call → call.phase = .returned →
    call.remain = 0 ∧ ∀ job, s.Unfinished job → job.call ≠ c

/-- A call with all its jobs counted has delivered all its blocks. -/
theorem CallKept.perm (h : CallKept s c call) (hhonest : Honest content files call)
    (hphase : call.phase = .returned) (hremain : call.remain = 0) :
    call.delivered.Perm (call.blocks.map fun b => (b, content call.file b)) := by
  have hdone : call.done = call.need.length := by rw [Call.done, hphase]
  have hcount := h.remain
  have hblocks := h.blocks
  rw [hdone, List.drop_length] at hcount hblocks
  rw [owed_eq_zero (by omega), add_zero] at hblocks
  have hperm : (call.delivered.map Prod.fst).Perm call.blocks :=
    Multiset.coe_eq_coe.mp ((add_zero _).symm.trans hblocks)
  have hself : (call.delivered.map Prod.fst).map (fun b => (b, content call.file b)) =
      call.delivered := by
    rw [List.map_map]
    apply (List.map_congr_left fun d hd => ?_).trans (List.map_id call.delivered)
    exact Prod.ext rfl (hhonest.delivered d hd).symm
  rw [← hself]
  exact hperm.map _

/-- If the blocks of each file are at distinct offsets, and waits end only when they are
signalled, delivery is as it should be, whoever reads and whatever the interleaving. -/
theorem exec_protocol (hfiles : Distinct files)
    (h : exec (step content) (new n maxSize) es = some s) (hreads : Reads files es)
    (hes : spuriousWakes es = []) : Protocol content files es s := by
  have hkept := exec_kept h
  have htruth := exec_truthful hfiles h hreads
  have hzero : ∀ c call, s.calls c = some call → call.phase = .returned → call.remain = 0 :=
    fun c call hcall hphase => exec_signalled h hes c call hcall (Or.inr hphase)
  refine ⟨?_, fun c file it max hin => exec_begun h hin, ?_, ?_, ?_, ?_, ?_⟩
  · intro e he
    obtain ⟨b, hb, hkey, hvalue⟩ := htruth.cache.entries e he
    refine ⟨⟨b, hb, hkey⟩, fun b' hb' hkey' => ?_⟩
    rw [hvalue, hfiles.eq_of_keyOf hb hb' (hkey.symm.trans hkey')]
  · intro c call hcall
    refine ⟨?_, (htruth.calls c call hcall).delivered⟩
    rw [← (hkept.calls c call hcall).blocks, add_assoc]
    exact Multiset.le_add_right _ _
  · intro c call hcall hphase
    exact (hkept.calls c call hcall).perm (htruth.calls c call hcall) hphase
      (hzero c call hcall hphase)
  · exact fun c call hcall => (hkept.calls c call hcall).remain
  · exact fun c call hcall hphase => hkept.released hcall hphase
  · intro c call hcall hphase
    refine ⟨hzero c call hcall hphase, ?_⟩
    rintro job hjob rfl
    have hpos := hkept.remain_pos hcall hjob
    rw [hzero _ call hcall hphase] at hpos
    exact absurd hpos (Nat.lt_irrefl 0)

/-- What a call hands to the callback are the blocks it went through, with their contents. -/
theorem exec_delivered (hfiles : Distinct files)
    (h : exec (step content) (new n maxSize) es = some s) (hreads : Reads files es)
    (hes : spuriousWakes es = []) {file : String} {it : List Block} {max : Int}
    (hscan : .scan c file it max ∈ es) (hcall : s.calls c = some call)
    (hphase : call.phase = .returned) :
    OpenCompressedFile.MakesUp (content file)
      (OpenCompressedFile.scanned it max) call.delivered := by
  obtain ⟨call', hcall', hfile, hblocks⟩ := exec_begun h hscan
  cases hcall.symm.trans hcall'
  have hremain := exec_signalled h hes c call hcall (.inr hphase)
  have hhonest := (exec_truthful hfiles h hreads).calls c call hcall
  have hperm := ((exec_kept h).calls c call hcall).perm hhonest hphase hremain
  rw [hblocks, hfile] at hperm
  exact hperm

/-- So a call delivers as a read takes it to. -/
theorem exec_delivers (hfiles : Distinct files)
    (h : exec (step content) (new n maxSize) es = some s) (hreads : Reads files es)
    (hes : spuriousWakes es = []) {file : String} {it : List Block} {max : Int}
    (hscan : .scan c file it max ∈ es) (hcall : s.calls c = some call)
    (hphase : call.phase = .returned) :
    OpenCompressedFile.Delivers (content file) (fun _ => none) it max call.delivered :=
  (exec_delivered hfiles h hreads hes hscan hcall hphase).delivers

end Truthful

theorem exec_protocol_two : ∃ s, exec (step sevens) (new 2 100) twoReads = some s ∧
    Protocol sevens (fun _ => [oneByte, nextBytes]) twoReads s := by
  obtain ⟨s, hs⟩ := twoReads_run
  have hreads : Reads (fun _ => [oneByte, nextBytes]) twoReads := by
    intro c file it max hin
    simp only [twoReads, List.mem_cons, Event.scan.injEq, reduceCtorEq, List.not_mem_nil,
      or_false, false_or] at hin
    obtain ⟨-, -, rfl, -⟩ | ⟨-, -, rfl, -⟩ := hin
    · exact fun b hb => hb
    · exact fun b hb => List.mem_cons_of_mem _ hb
  exact ⟨s, hs, exec_protocol (fun _ => by decide) hs hreads rfl⟩

end BlockCache

end Lzopfs
