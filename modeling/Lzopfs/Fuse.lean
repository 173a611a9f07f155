import Lzopfs.BlockContent
import Lzopfs.BlockSizes
import Lzopfs.FileContents
import Lzopfs.FileList

/-!
# The mounted file system

The callbacks that libfuse is given, and the process they run in. Every open file is a
handle on a source. A read request looks up its block and has the cache deliver; while it
waits, the threads of libfuse take other requests, and the workers of the pool do the jobs
of all of them. The answer is what the deliveries have left in the buffer.
-/

namespace Lzopfs

open Verify PathUtils BlockCache

/-- The size of the cache. -/
def CacheSize : UInt64 := 1024 * 1024 * 32

/-- How a source is named in the cache. -/
def idOf (file : CompressedFile) : String := String.ofList file.path

/-- A list of files that have been opened, each with its blocks, with what these decompress
to, and with the contents that this makes up. -/
structure Mount where
  files : FileList.Map
  comp : Str → CompFile
  content : String → Block → Buffer
  contents : Str → Buffer
  rooted : ∀ path file, FileList.find files path = some file → ∃ name, path = '/' :: name
  holds : ∀ path, (comp path).Holds (content (String.ofList path)) (contents path)

namespace Mount

variable (m : Mount)

/-- The blocks of the files, by what the cache calls them. -/
def blocks (id : String) : List Block := (m.comp id.toList).blocks

/-- What a file contains. -/
def data (file : CompressedFile) : Buffer := m.contents file.path

theorem blocks_idOf (file : CompressedFile) : m.blocks (idOf file) = (m.comp file.path).blocks := by
  rw [blocks, idOf, String.toList_ofList]

theorem blocks_distinct : Distinct m.blocks := fun id => (m.holds id.toList).distinct

theorem length_data (file : CompressedFile) :
    (m.data file).length = BlockListCompFile.total (m.comp file.path).blocks := by
  rw [data, ← (m.holds file.path).contents]
  exact OpenCompressedFile.length_contents (m.holds file.path).lengths

theorem mem_forNames {path : Str} :
    path ∈ FileList.forNames m.files ↔ ∃ file, FileList.find m.files path = some file := by
  rw [FileList.forNames, ← AList.mem_keys, ← AList.lookup_isSome, Option.isSome_iff_exists]
  rfl

end Mount

def lf_getattr (m : Mount) (path : Str) : Int × Stat :=
  if path = ['/'] then (0, { st_mode := S_IFDIR ||| 0o755, st_nlink := 3, st_size := 0 })
  else match FileList.find m.files path with
    | some file => (0, {
        st_mode := S_IFREG ||| 0o444
        st_nlink := 1
        st_size := (m.comp file.path).uncompressedSize })
    | none => (-ENOENT, { st_mode := 0, st_nlink := 0, st_size := 0 })

/-- `DirFiller`: a name without its first character. -/
def dirFiller (path : Str) : Str := path.tail

def lf_readdir (m : Mount) (path : Str) : Int × List Str :=
  if path ≠ ['/'] then (-ENOENT, [])
  else (0, dirFiller ['/', '.'] :: dirFiller ['/', '.', '.'] ::
    (FileList.forNames m.files).map dirFiller)

/-- `lf_open`, with what becomes of opening the source. An exception is answered with the
error code as it is. -/
def lf_open (m : Mount) (path : Str) (flags : UInt32) (opens : Except Int Unit) :
    Int × Option CompressedFile :=
  match FileList.find m.files path with
  | none => (-ENOENT, none)
  | some file =>
      if flags &&& O_ACCMODE ≠ O_RDONLY then (-EACCES, none)
      else match opens with
        | .ok () => (0, some file)
        | .error error_code => (error_code, none)

/-- A read that a thread of libfuse waits for. -/
structure Request where
  id : Nat
  fh : Nat
  file : CompressedFile
  buf : Buffer
  size : UInt64
  offset : Int

/-- `FSData`, the handles that libfuse keeps, and the reads under way. -/
structure Server (n : Nat) where
  cache : BlockCache n
  handles : Nat → Option CompressedFile
  requests : List Request
  exited : Option Nat

/-- The exit status of a request that ends the process. -/
def Outcome.status : Outcome → Option Nat
  | .exited status => some status
  | _ => none

namespace Server

variable {n : Nat}

/-- What happens. -/
inductive Event (n : Nat) where
  | getattr (path : Str)
  | readdir (path : Str)
  /-- A new `OpenCompressedFile` is at `fh`, if the source can be opened. -/
  | openFile (path : Str) (flags : UInt32) (fh : Nat) (opens : Except Int Unit)
  | release (fh : Nat)
  /-- A read comes in, and looks through the cache. -/
  | read (id fh : Nat) (buf : Buffer) (size : UInt64) (offset : Int)
  /-- Another step of the calls and the workers. -/
  | cache (e : BlockCache.Event n)
  /-- `getBlocks` has returned. -/
  | answer (id : Nat)

/-- `lf_init`. -/
def lf_init (n : Nat) (cacheSize : UInt64) : Server n where
  cache := BlockCache.new n cacheSize
  handles := fun _ => none
  requests := []
  exited := none

/-- The first part of `lf_read`, up to the first section of `getBlocks`. -/
def beginRead (m : Mount) (s : Server n) (id fh : Nat) (file : CompressedFile) (buf : Buffer)
    (size : UInt64) (offset : Int) : Option (Server n × List Seen) :=
  match (m.comp file.path).findBlock offset with
  | .error e => some ({ s with exited := (except e).status },
      [.asked id fh size offset, .answered id (except e)])
  | .ok biter =>
      (s.cache.step m.content (.scan id (idOf file) biter (toOff (ofOff offset + size)))).map
        fun cache => ({ s with
            cache := cache
            requests := ⟨id, fh, file, buf, size, offset⟩ :: s.requests },
              [.asked id fh size offset])

/-- The end of `lf_read`. -/
def endRead (m : Mount) (s : Server n) (r : Request) (call : BlockCache.Call) :
    Server n × List Seen :=
  let outcome := lf_read (m.comp r.file.path) (fun _ _ => call.delivered) r.buf r.size r.offset
  ({ s with
      requests := s.requests.filter fun r' => r'.id ≠ r.id
      exited := outcome.status }, [.answered r.id outcome])

/-- The end of `lf_open`. -/
def opened (s : Server n) (path : Str) (flags : UInt32) (fh : Nat) :
    Int × Option CompressedFile → Option (Server n × List Seen)
  | (ret, none) => some (s, [.opened path flags ret none])
  | (ret, some file) =>
      if (s.handles fh).isSome then none
      else some ({ s with handles := Function.update s.handles fh (some file) },
        [.opened path flags ret (some fh)])

/-- A step of the cache other than the start of a call. -/
def cacheStep (m : Mount) (s : Server n) : BlockCache.Event n → Option (Server n × List Seen)
  | .scan _ _ _ _ => none
  | e => (s.cache.step m.content e).map fun cache => ({ s with cache := cache }, [])

/-- A step of the process. There is none for what would be undefined: a handle that is not
open, or a release of one that is being read. -/
def step (m : Mount) (s : Server n) (e : Event n) : Option (Server n × List Seen) :=
  if s.exited.isSome || s.cache.terminated then none
  else match e with
    | .getattr path => some (s, [.getattr path (lf_getattr m path).1 (lf_getattr m path).2])
    | .readdir path => some (s, [.readdir path (lf_readdir m path).1 (lf_readdir m path).2])
    | .openFile path flags fh opens => s.opened path flags fh (lf_open m path flags opens)
    | .release fh =>
        if (s.handles fh).isSome && s.requests.all fun r => r.fh ≠ fh then
          some ({ s with handles := Function.update s.handles fh none }, [.released fh 0])
        else none
    | .read id fh buf size offset =>
        (s.handles fh).bind fun file => beginRead m s id fh file buf size offset
    | .cache e => cacheStep m s e
    | .answer id =>
        match s.requests.find? fun r => r.id = id, s.cache.calls id with
        | some r, some call =>
            if call.phase = .returned then some (endRead m s r call) else none
        | _, _ => none

def service (m : Mount) (n : Nat) (cacheSize : UInt64) : Service (Server n) (Event n) Seen where
  start := lf_init n cacheSize
  step := step m

end Server

namespace Mount

/-- The directory of a mount. -/
def tree (m : Mount) : Tree where
  names := (FileList.forNames m.files).map dirFiller
  contents path := (FileList.find m.files path).map m.data
  listed path := by
    rw [Option.isSome_map, Option.isSome_iff_exists]
    constructor
    · rintro ⟨file, hfind⟩
      obtain ⟨name, rfl⟩ := m.rooted path file hfind
      exact ⟨name, List.mem_map.mpr ⟨_, m.mem_forNames.mpr ⟨file, hfind⟩, rfl⟩, rfl⟩
    · rintro ⟨name, hname, rfl⟩
      obtain ⟨path, hpath, rfl⟩ := List.mem_map.mp hname
      obtain ⟨file, hfind⟩ := m.mem_forNames.mp hpath
      obtain ⟨name, rfl⟩ := m.rooted path file hfind
      exact ⟨file, hfind⟩

variable (m : Mount)

theorem getattr_tree (path : Str) : ReadOnlyFs.getattr m.tree path = lf_getattr m path := by
  rw [ReadOnlyFs.getattr, lf_getattr]
  by_cases hroot : path = ['/']
  · rw [if_pos hroot, if_pos hroot]
    rfl
  · rw [if_neg hroot, if_neg hroot, tree]
    dsimp only
    cases hfind : FileList.find m.files path with
    | none => rfl
    | some file =>
        dsimp only [Option.map_some]
        rw [(m.holds file.path).regular.uncompressedSize, ← m.length_data]
        rfl

theorem readdir_tree (path : Str) : ReadOnlyFs.readdir m.tree path = lf_readdir m path := by
  rw [ReadOnlyFs.readdir, lf_readdir, ite_not]
  rfl

theorem openFile_tree (path : Str) (flags : UInt32) (opens : Except Int Unit) :
    ReadOnlyFs.openFile m.tree path flags opens =
      ((lf_open m path flags opens).1, (lf_open m path flags opens).2.map m.data) := by
  rw [ReadOnlyFs.openFile, lf_open, tree]
  dsimp only
  cases FileList.find m.files path with
  | none => rfl
  | some file =>
      dsimp only [Option.map_some]
      split
      · rfl
      · cases opens with
        | error error_code => rfl
        | ok => rfl

end Mount

namespace Server

variable {n : Nat} {m : Mount} {cacheSize : UInt64} {s : Server n}

/-- What the kernel promises: requests stay in the range of `off_t`, and have room for what
they ask for. Waits end only when they are signalled. -/
def Event.Promised : Event n → Prop
  | .read _ _ buf size offset =>
      0 ≤ offset ∧ offset.toNat + size.toNat < 2 ^ 63 ∧ buf.length = size.toNat
  | .cache e => spuriousWakes [e] = []
  | _ => True

/-- The `int` that a read returns has room for the size asked for. -/
def Event.Counted : Event n → Prop
  | .read _ _ _ size _ => size.toNat < 2 ^ 31
  | _ => True

/-- A request that a call of `getBlocks` has been made for. -/
structure Begun (m : Mount) (es : List (BlockCache.Event n)) (r : Request) (off : Nat)
    (it : List Block) : Prop where
  offset : r.offset = off
  range : off + r.size.toNat < 2 ^ 63
  room : r.buf.length = r.size.toNat
  found : (m.comp r.file.path).findBlock off = .ok it
  scanned : .scan r.id (idOf r.file) it (toOff (ofOff off + r.size)) ∈ es

/-- The run of the cache that the process is at. -/
structure Ran (m : Mount) (cacheSize : UInt64) (s : Server n) (es : List (BlockCache.Event n)) :
    Prop where
  exec : exec (BlockCache.step m.content) (BlockCache.new n cacheSize) es = some s.cache
  reads : Reads m.blocks es
  signalled : spuriousWakes es = []
  begun : ∀ r ∈ s.requests, ∃ off it, Begun m es r off it

/-- The process as a file system that is only read. -/
def seen (m : Mount) (s : Server n) : ReadOnlyFs.State where
  handles fh := (s.handles fh).map m.data
  requests := s.requests.map fun r => ⟨r.id, m.data r.file, r.buf, r.size, r.offset.toNat⟩
  exited := s.exited

theorem Begun.mono {es es' : List (BlockCache.Event n)} {r : Request} {off : Nat}
    {it : List Block} (h : Begun m es r off it) (hsub : es ⊆ es') : Begun m es' r off it :=
  { h with scanned := hsub h.scanned }

theorem spuriousWakes_append (es es' : List (BlockCache.Event n)) :
    spuriousWakes (es ++ es') = spuriousWakes es ++ spuriousWakes es' :=
  List.filterMap_append

/-- Another step of the cache. -/
theorem Ran.next {es : List (BlockCache.Event n)} {e : BlockCache.Event n} {cache : BlockCache n}
    (h : Ran m cacheSize s es) (hstep : s.cache.step m.content e = some cache)
    (hreads : Reads m.blocks [e]) (hwakes : spuriousWakes [e] = []) :
    Ran m cacheSize { s with cache := cache } (es ++ [e]) where
  exec := exec_concat_eq_some.mpr ⟨s.cache, h.exec, hstep⟩
  reads c file it max hin := by
    obtain hold | hnew := List.mem_append.mp hin
    · exact h.reads c file it max hold
    · exact hreads c file it max hnew
  signalled := by rw [spuriousWakes_append, h.signalled, hwakes, List.append_nil]
  begun r hr := by
    obtain ⟨off, it, hbegun⟩ := h.begun r hr
    exact ⟨off, it, hbegun.mono (List.subset_append_left _ _)⟩

/-- The deliveries of a call that has returned are what its request asked for. -/
theorem Ran.delivered {es : List (BlockCache.Event n)} {r : Request} {off : Nat} {it : List Block}
    {call : BlockCache.Call} (h : Ran m cacheSize s es) (hbegun : Begun m es r off it)
    (hcall : s.cache.calls r.id = some call) (hphase : call.phase = .returned) :
    OpenCompressedFile.MakesUp (m.content (idOf r.file))
      (OpenCompressedFile.scanned it (toOff (ofOff off + r.size))) call.delivered :=
  exec_delivered m.blocks_distinct h.exec h.reads h.signalled hbegun.scanned hcall hphase

/-- A request reads the bytes it asked for. -/
theorem Ran.read {es : List (BlockCache.Event n)} {r : Request} {call : BlockCache.Call}
    (h : Ran m cacheSize s es) (hr : r ∈ s.requests) (hcall : s.cache.calls r.id = some call)
    (hphase : call.phase = .returned) :
    let n := min r.size.toNat ((m.data r.file).length - r.offset.toNat)
    (m.comp r.file.path).read (fun _ _ => call.delivered) r.buf r.size r.offset =
      .ok (some (n, ((m.data r.file).drop r.offset.toNat).take n ++ r.buf.drop n)) := by
  obtain ⟨off, it, hbegun⟩ := h.begun r hr
  have hds := h.delivered hbegun hcall hphase
  have hregular := (m.holds r.file.path).regular
  have hrange := hbegun.range
  have hfind := hregular.findBlock (show off < 2 ^ 63 by omega)
  have hoff : off < BlockListCompFile.total (m.comp r.file.path).blocks := by
    by_contra hnot
    rw [if_neg hnot, hbegun.found] at hfind
    cases hfind
  have hread : (m.comp r.file.path).read (fun _ _ => call.delivered) r.buf r.size off = _ :=
    hregular.read (m.holds r.file.path).lengths hrange hbegun.room fun it' hit => by
      cases hbegun.found.symm.trans hit
      exact hds
  rw [if_pos hoff] at hread
  rw [hbegun.offset, Int.toNat_natCast, m.length_data, Mount.data,
    ← (m.holds r.file.path).contents]
  exact hread

/-- A request is answered with the bytes it asked for. -/
theorem Ran.outcome {es : List (BlockCache.Event n)} {r : Request} {call : BlockCache.Call}
    (h : Ran m cacheSize s es) (hr : r ∈ s.requests) (hcall : s.cache.calls r.id = some call)
    (hphase : call.phase = .returned) (hsmall : r.size.toNat < 2 ^ 31) :
    lf_read (m.comp r.file.path) (fun _ _ => call.delivered) r.buf r.size r.offset =
      ReadOnlyFs.serve (m.data r.file) r.buf r.size r.offset.toNat := by
  rw [CompFile.lf_read_of_read (h.read hr hcall hphase), ReadOnlyFs.serve,
    CompFile.toInt_of_lt (by omega)]

/-- Where a request begins: it is in front of the end of its file. -/
theorem beginRead_cases {id fh : Nat} {file : CompressedFile} {buf : Buffer} {size : UInt64}
    {off : Nat} {s' : Server n} {ws : List Seen} (hlt : off < 2 ^ 63)
    (h : beginRead m s id fh file buf size off = some (s', ws)) :
    ((m.data file).length ≤ off ∧ s' = { s with exited := some 1 } ∧
      ws = [.asked id fh size off, .answered id (.exited 1)]) ∨
    ∃ it cache, off < (m.data file).length ∧ (m.comp file.path).findBlock off = .ok it ∧
      s.cache.step m.content (.scan id (idOf file) it (toOff (ofOff off + size))) = some cache ∧
      s' = { s with cache := cache, requests := ⟨id, fh, file, buf, size, off⟩ :: s.requests } ∧
      ws = [.asked id fh size off] := by
  have hfind := (m.holds file.path).regular.findBlock hlt
  rw [← m.length_data] at hfind
  rw [beginRead] at h
  by_cases hoff : off < (m.data file).length
  · rw [if_pos hoff] at hfind
    rw [hfind] at h
    obtain ⟨cache, hcache, hpair⟩ := Option.map_eq_some_iff.mp h
    cases hpair
    exact .inr ⟨_, cache, hoff, hfind, hcache, rfl, rfl⟩
  · rw [if_neg hoff] at hfind
    rw [hfind] at h
    cases h
    exact .inl ⟨Nat.le_of_not_lt hoff, rfl, rfl⟩

/-- The blocks that a lookup leads to are blocks of the file. -/
theorem reads_scan {id : Nat} {file : CompressedFile} {it : List Block} {max : Int} {off : Nat}
    (hlt : off < 2 ^ 63) (hfind : (m.comp file.path).findBlock off = .ok it) :
    Reads m.blocks [(.scan id (idOf file) it max : BlockCache.Event n)] := by
  intro c name it' max' hin b hb
  cases List.mem_singleton.mp hin
  have hdrop := (m.holds file.path).regular.findBlock hlt
  rw [hfind] at hdrop
  split at hdrop
  · cases hdrop
    rw [m.blocks_idOf]
    exact List.mem_of_mem_drop hb
  · cases hdrop

/-- The answers to all requests can be counted. -/
def Counted (s : Server n) : Prop := ∀ r ∈ s.requests, r.size.toNat < 2 ^ 31

/-- A step of the process is no step of the file system, or one that shows the same when the
answers can be counted. -/
def Matched (m : Mount) (cacheSize : UInt64) (s s' : Server n) (ws : List Seen) : Prop :=
  (∃ es, Ran m cacheSize s' es) ∧
    (s.Counted → ∃ ops, (ReadOnlyFs.service m.tree).run (seen m s) ops = some (seen m s', ws))

theorem Matched.of_perform {s s' : Server n} {ws : List Seen} {es : List (BlockCache.Event n)}
    (op : ReadOnlyFs.Op) (hexited : s.exited = none)
    (h : s.Counted → ReadOnlyFs.perform m.tree (seen m s) op = some (seen m s', ws))
    (hran : Ran m cacheSize s' es) : Matched m cacheSize s s' ws := by
  refine ⟨⟨es, hran⟩, fun hcounted => ⟨[op], Service.run_single ?_⟩⟩
  have halive : ¬ (seen m s).exited.isSome = true := by
    rw [seen, hexited]
    exact Bool.false_ne_true
  exact (if_neg halive).trans (h hcounted)

/-- Only the cache and the requests matter for its run. -/
theorem Ran.congr {s' : Server n} {es : List (BlockCache.Event n)} (h : Ran m cacheSize s es)
    (hcache : s'.cache = s.cache) (hrequests : s'.requests ⊆ s.requests) :
    Ran m cacheSize s' es where
  exec := hcache ▸ h.exec
  reads := h.reads
  signalled := h.signalled
  begun r hr := h.begun r (hrequests hr)

theorem seen_setHandle (fh : Nat) (file : Option CompressedFile) :
    seen m { s with handles := Function.update s.handles fh file } =
      { seen m s with
        handles := Function.update (seen m s).handles fh (file.map m.data) } := by
  rw [seen, seen]
  congr 1
  funext k
  by_cases hk : k = fh
  · subst hk
    simp
  · simp [hk]

section Alive

variable {s' : Server n} {ws : List Seen} {es : List (BlockCache.Event n)}

theorem matched_open {path : Str} {flags : UInt32} {fh : Nat} {opens : Except Int Unit}
    (hran : Ran m cacheSize s es) (hexited : s.exited = none)
    (h : s.opened path flags fh (lf_open m path flags opens) = some (s', ws)) :
    Matched m cacheSize s s' ws := by
  have hperform : ReadOnlyFs.perform m.tree (seen m s) (.openFile path flags fh opens) =
      (seen m s).opened path flags fh
        ((lf_open m path flags opens).1, (lf_open m path flags opens).2.map m.data) := by
    rw [← m.openFile_tree]
    rfl
  generalize lf_open m path flags opens = r at h hperform
  obtain ⟨ret, handle⟩ := r
  cases handle with
  | none =>
      cases h
      exact .of_perform _ hexited (fun _ => hperform) hran
  | some file =>
      obtain ⟨hnew, h⟩ := Option.ite_none_left_eq_some.mp h
      cases h
      refine .of_perform _ hexited (fun _ => hperform.trans ?_)
        (hran.congr rfl (List.Subset.refl _))
      rw [seen_setHandle]
      exact if_neg (by simpa [seen] using hnew)

theorem matched_release {fh : Nat} (hran : Ran m cacheSize s es) (hexited : s.exited = none)
    (hopen : (s.handles fh).isSome = true) :
    Matched m cacheSize s { s with handles := Function.update s.handles fh none }
      [.released fh 0] := by
  refine .of_perform (.release fh) hexited (fun _ => ?_) (hran.congr rfl (List.Subset.refl _))
  rw [seen_setHandle]
  exact if_pos (by simpa [seen] using hopen)

theorem matched_read {id fh : Nat} {file : CompressedFile} {buf : Buffer} {size : UInt64}
    {offset : Int} (hran : Ran m cacheSize s es) (hexited : s.exited = none)
    (hpromised : (Event.read id fh buf size offset : Event n).Promised)
    (hfile : s.handles fh = some file)
    (h : beginRead m s id fh file buf size offset = some (s', ws)) :
    Matched m cacheSize s s' ws := by
  obtain ⟨hpos, hrange, hbuf⟩ := hpromised
  obtain ⟨off, rfl⟩ := Int.eq_ofNat_of_zero_le hpos
  rw [Int.toNat_natCast] at hrange
  have hperform : ReadOnlyFs.perform m.tree (seen m s) (.read id fh buf size off) =
      some ((seen m s).asked id fh (m.data file) buf size off) := by
    rw [ReadOnlyFs.perform, seen]
    dsimp only
    rw [hfile]
    rfl
  rcases beginRead_cases (by omega) h with ⟨hend, rfl, rfl⟩ |
    ⟨it, cache, hoff, hfind, hcache, rfl, rfl⟩
  · refine .of_perform _ hexited (fun _ => hperform.trans ?_) (hran.congr rfl (List.Subset.refl _))
    rw [ReadOnlyFs.State.asked, if_neg (Nat.not_lt.mpr hend)]
    rfl
  · have hnext := hran.next hcache (reads_scan (by omega) hfind) rfl
    have hbegun : Begun m (es ++ [.scan id (idOf file) it (toOff (ofOff off + size))])
        ⟨id, fh, file, buf, size, off⟩ off it :=
      ⟨rfl, hrange, hbuf, hfind, List.mem_append_right _ (List.mem_singleton_self _)⟩
    have hran' : Ran m cacheSize { s with
        cache := cache
        requests := ⟨id, fh, file, buf, size, off⟩ :: s.requests }
        (es ++ [.scan id (idOf file) it (toOff (ofOff off + size))]) := by
      refine ⟨hnext.exec, hnext.reads, hnext.signalled, ?_⟩
      rw [List.forall_mem_cons]
      exact ⟨⟨off, it, hbegun⟩, hnext.begun⟩
    refine .of_perform _ hexited (fun _ => hperform.trans ?_) hran'
    rw [ReadOnlyFs.State.asked, if_pos hoff]
    rfl

theorem matched_answer {r : Request} {call : BlockCache.Call} {id : Nat}
    (hran : Ran m cacheSize s es) (hexited : s.exited = none)
    (hr : s.requests.find? (fun r => r.id = id) = some r) (hcall : s.cache.calls id = some call)
    (hphase : call.phase = .returned) :
    Matched m cacheSize s (endRead m s r call).1 (endRead m s r call).2 := by
  have hid : r.id = id := by simpa using List.find?_some hr
  subst hid
  have hmem := List.mem_of_find?_eq_some hr
  have hfind : (seen m s).requests.find? (fun r' => r'.id = r.id) =
      some ⟨r.id, m.data r.file, r.buf, r.size, r.offset.toNat⟩ := by
    rw [seen, List.find?_map]
    exact congrArg (Option.map _) hr
  have hread := CompFile.lf_read_of_read (hran.read hmem hcall hphase)
  have hgoes : (lf_read (m.comp r.file.path) (fun _ _ => call.delivered) r.buf r.size
      r.offset).status = s.exited := by
    rw [hread, hexited]
    rfl
  refine .of_perform (.answer r.id) hexited (fun hcounted => ?_)
    (hran.congr rfl List.filter_sublist.subset)
  rw [ReadOnlyFs.perform, hfind, Option.map_some, ReadOnlyFs.State.answered, seen, seen,
    List.filter_map, endRead, hgoes, hran.outcome hmem hcall hphase (hcounted r hmem)]
  rfl

/-- The other steps of the cache look up nothing, and nothing is seen of them. -/
theorem cacheStep_cases {e : BlockCache.Event n} (h : cacheStep m s e = some (s', ws)) :
    Reads m.blocks [e] ∧ ∃ cache, s.cache.step m.content e = some cache ∧
      s' = { s with cache := cache } ∧ ws = [] := by
  have hreads : (∀ c file it max, e ≠ .scan c file it max) → Reads m.blocks [e] := by
    intro hne c file it max hin
    exact absurd (List.mem_singleton.mp hin).symm (hne c file it max)
  cases e with
  | scan c file it max => cases h
  | _ =>
      obtain ⟨cache, hcache, hpair⟩ := Option.map_eq_some_iff.mp h
      cases hpair
      exact ⟨hreads fun _ _ _ _ h => (by cases h), cache, hcache, rfl, rfl⟩

/-- The process does nothing that the file system could not do. -/
theorem matched_step {e : Event n} (hran : Ran m cacheSize s es) (he : e.Promised)
    (h : step m s e = some (s', ws)) : Matched m cacheSize s s' ws := by
  obtain ⟨halive, h⟩ := Option.ite_none_left_eq_some.mp h
  rw [Bool.or_eq_true, not_or, Option.not_isSome_iff_eq_none] at halive
  obtain ⟨hexited, -⟩ := halive
  cases e with
  | getattr path =>
      cases h
      refine .of_perform (.getattr path) hexited (fun _ => ?_) hran
      rw [← m.getattr_tree]
      rfl
  | readdir path =>
      cases h
      refine .of_perform (.readdir path) hexited (fun _ => ?_) hran
      rw [← m.readdir_tree]
      rfl
  | openFile path flags fh opens => exact matched_open hran hexited h
  | release fh =>
      obtain ⟨hopen, h⟩ := Option.ite_none_right_eq_some.mp h
      cases h
      rw [Bool.and_eq_true] at hopen
      exact matched_release hran hexited hopen.1
  | read id fh buf size offset =>
      obtain ⟨file, hfile, h⟩ := Option.bind_eq_some_iff.mp h
      exact matched_read hran hexited he hfile h
  | cache e =>
      obtain ⟨hreads, cache, hcache, rfl, rfl⟩ := cacheStep_cases h
      exact ⟨⟨_, hran.next hcache hreads he⟩, fun _ => ⟨[], rfl⟩⟩
  | answer id =>
      dsimp only at h
      split at h
      · rename_i r call hr hcall
        obtain ⟨hphase, h⟩ := Option.ite_none_right_eq_some.mp h
        cases h
        exact matched_answer hran hexited hr hcall hphase
      · cases h

/-- New requests come with reads only. -/
theorem counted_step {e : Event n} (hs : s.Counted) (he : e.Counted)
    (h : step m s e = some (s', ws)) : s'.Counted := by
  obtain ⟨-, h⟩ := Option.ite_none_left_eq_some.mp h
  cases e with
  | getattr path =>
      cases h
      exact hs
  | readdir path =>
      cases h
      exact hs
  | openFile path flags fh opens =>
      dsimp only at h
      generalize lf_open m path flags opens = r at h
      obtain ⟨ret, handle⟩ := r
      cases handle with
      | none =>
          cases h
          exact hs
      | some file =>
          obtain ⟨-, h⟩ := Option.ite_none_left_eq_some.mp h
          cases h
          exact hs
  | release fh =>
      obtain ⟨-, h⟩ := Option.ite_none_right_eq_some.mp h
      cases h
      exact hs
  | read id fh buf size offset =>
      obtain ⟨file, -, h⟩ := Option.bind_eq_some_iff.mp h
      rw [beginRead] at h
      split at h
      · cases h
        exact hs
      · obtain ⟨cache, -, hpair⟩ := Option.map_eq_some_iff.mp h
        cases hpair
        exact List.forall_mem_cons.mpr ⟨he, hs⟩
  | cache e =>
      obtain ⟨-, cache, -, rfl, -⟩ := cacheStep_cases h
      exact hs
  | answer id =>
      dsimp only at h
      split at h
      · obtain ⟨-, h⟩ := Option.ite_none_right_eq_some.mp h
        cases h
        exact fun r hr => hs r (List.mem_of_mem_filter hr)
      · cases h

end Alive

/-- The file system that is only read follows the process. -/
def simulation (m : Mount) (n : Nat) (cacheSize : UInt64) :
    Simulation (service m n cacheSize) (ReadOnlyFs.service m.tree)
      fun e => e.Promised ∧ e.Counted where
  rel s t := t = seen m s ∧ s.Counted ∧ ∃ es, Ran m cacheSize s es
  start := ⟨rfl, fun _ h => (by cases h), [], rfl, fun _ _ _ _ h => (by cases h), rfl,
    fun _ h => (by cases h)⟩
  follows {s t e s' ws} hrel he hstep := by
    obtain ⟨rfl, hcounted, es, hran⟩ := hrel
    obtain ⟨hran', hshows⟩ := matched_step hran he.1 hstep
    obtain ⟨ops, hrun⟩ := hshows hcounted
    exact ⟨ops, seen m s', hrun, rfl, counted_step hcounted he.2 hstep, hran'⟩

/-- Whatever programs ask for, however the threads interleave and whatever the cache has
room for, a mount shows nothing but a directory of files with their contents. -/
theorem shows_tree {es : List (Event n)} {ws : List Seen}
    (h : (service m n cacheSize).run (lf_init n cacheSize) es = some (s, ws))
    (hes : ∀ e ∈ es, e.Promised ∧ e.Counted) : (ReadOnlyFs.service m.tree).Shows ws :=
  (simulation m n cacheSize).shows hes h

def twoByteList : FileList.Map :=
  AList.singleton ['/', 'f'] ⟨['/', 'd', '/', 'f', '.', 'x', 'z'], .pixz⟩

theorem twoByteList_rooted (path : Str) (file : CompressedFile)
    (h : FileList.find twoByteList path = some file) : ∃ name, path = '/' :: name := by
  have hmem : path ∈ twoByteList := AList.lookup_isSome.mp (Option.isSome_iff_exists.mpr ⟨file, h⟩)
  rw [twoByteList, AList.mem_keys, AList.keys_singleton, List.mem_singleton] at hmem
  exact ⟨['f'], hmem⟩

theorem twoByteFile_regular : CompFile.twoByteFile.Regular := by
  intro b hb
  rw [List.mem_singleton.mp hb]
  decide

theorem twoByteFile_holds :
    CompFile.twoByteFile.Holds (fun b => List.replicate b.usize.toNat 7) [7, 7] where
  regular := twoByteFile_regular
  distinct := List.nodup_singleton _
  lengths _ _ := List.length_replicate
  contents := rfl

/-- It is mounted alone. -/
def twoBytes : Mount where
  files := twoByteList
  comp _ := CompFile.twoByteFile
  content _ b := List.replicate b.usize.toNat 7
  contents _ := [7, 7]
  rooted := twoByteList_rooted
  holds _ := twoByteFile_holds

/-- A request for three bytes at offset 1, which a worker decompresses the block for. -/
def oneRequest : List (Event 1) :=
  [.getattr ['/', 'f'], .openFile ['/', 'f'] 0 5 (.ok ()), .read 0 5 [0, 0, 0] 3 1,
    .cache (.enqueue 0 none), .cache (.wait 0), .cache (.take 0 ⟨0, 0⟩), .cache (.work 0),
    .cache (.work 0), .cache (.work 0), .cache (.work 0), .cache (.work 0), .cache (.resume 0),
    .answer 0]

theorem shows_tree_one : (ReadOnlyFs.service twoBytes.tree).Shows
    [.getattr ['/', 'f'] 0 ⟨0x8124, 1, 2⟩, .opened ['/', 'f'] 0 0 (some 5), .asked 0 5 3 1,
      .answered 0 (.returned 1 [7, 0, 0])] := by
  have hrun : ∃ s, (service twoBytes 1 100).run (lf_init 1 100) oneRequest = some (s,
      [.getattr ['/', 'f'] 0 ⟨0x8124, 1, 2⟩, .opened ['/', 'f'] 0 0 (some 5), .asked 0 5 3 1,
        .answered 0 (.returned 1 [7, 0, 0])]) := ⟨_, rfl⟩
  obtain ⟨s, hs⟩ := hrun
  have hthree : (3 : UInt64).toNat < 2 ^ 31 := by decide
  apply shows_tree hs
  simp only [oneRequest, List.forall_mem_cons]
  exact ⟨⟨trivial, trivial⟩, ⟨trivial, trivial⟩, ⟨⟨by decide, by decide, rfl⟩, hthree⟩,
    ⟨rfl, trivial⟩, ⟨rfl, trivial⟩, ⟨rfl, trivial⟩, ⟨rfl, trivial⟩, ⟨rfl, trivial⟩, ⟨rfl, trivial⟩,
    ⟨rfl, trivial⟩, ⟨rfl, trivial⟩, ⟨rfl, trivial⟩, ⟨trivial, trivial⟩, fun _ h => (by cases h)⟩

end Server

end Lzopfs
