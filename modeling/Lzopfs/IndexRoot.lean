import Lzopfs.LzopFormat
import Lzopfs.PathUtils
import Mathlib.Logic.Function.Basic
import Mathlib.Data.Set.Function

/-!
# Where index files are kept

Without an index root the index of a source is kept next to it, under the path of the
source and an extension. In an index root it is kept under the base name of the source
only, so sources in different directories can meet there. Nothing in an index file
tells which source it is of: whatever is found at the path is read.
-/

namespace Lzopfs

open Verify FileHandle PathUtils

namespace IndexedCompFile

def blockIdx : Str := ['.', 'b', 'l', 'o', 'c', 'k', 'I', 'd', 'x']

/-- The index path the constructor chooses. -/
def indexPathOf (path indexRoot : Str) : Str :=
  if indexRoot = [] then path ++ blockIdx
  else indexRoot ++ '/' :: (basename path ++ blockIdx)

/-- A source that is opened with an index root, in whatever format. -/
structure Source (indexRoot : Str) : Type 1 where
  path : Str
  β : Type
  file : IndexedCompFile β
  indexPath_eq : file.indexPath = String.ofList (indexPathOf path indexRoot)

/-- A call of `loadIndex` for a source. -/
structure Load (indexRoot : Str) : Type 1 where
  source : Source indexRoot
  fuel : Nat
  fh : FileHandle

/-- The files, and the source that `writeIndex` last wrote the file at a path for. -/
structure Indexes where
  fs : FileSystem
  writer : String → Option Str

namespace Indexes

def start (fs : FileSystem) : Indexes := ⟨fs, fun _ => none⟩

/-- What a call of `loadIndex` does to the files. -/
def load {indexRoot : Str} (x : Indexes) (call : Load indexRoot) : Indexes :=
  match call.source.file.tryIndex x.fs, call.source.file.loadIndex call.fuel x.fs call.fh with
  | .ok (false, _), some (.ok (_, fs)) =>
      ⟨fs, Function.update x.writer call.source.file.indexPath (some call.source.path)⟩
  | _, _ => x

def loadAll {indexRoot : Str} (x : Indexes) (calls : List (Load indexRoot)) : Indexes :=
  calls.foldl load x

/-- An index that is read for the source was written for it. -/
def ReadsOwn {indexRoot : Str} (x : Indexes) (source : Source indexRoot) : Prop :=
  ∀ mBlocks, source.file.tryIndex x.fs = .ok (true, mBlocks) →
    x.writer source.file.indexPath = some source.path

end Indexes

/-- Files at the index paths of the sources are sources themselves: no index has been
written yet. -/
def Fresh (indexRoot : Str) (sources : Set Str) (fs : FileSystem) : Prop :=
  ∀ path ∈ sources, fs.contents (String.ofList (indexPathOf path indexRoot)) ≠ none →
    indexPathOf path indexRoot ∈ sources

/-- Distinct sources have distinct index paths, and whatever is opened one after the
other, every index that is read was written for its source. -/
def KeptApart (indexRoot : Str) (sources : Set Str) : Prop :=
  (∀ p ∈ sources, ∀ q ∈ sources, p ≠ q → indexPathOf p indexRoot ≠ indexPathOf q indexRoot) ∧
    ∀ fs, Fresh indexRoot sources fs → ∀ calls : List (Load indexRoot),
      (∀ call ∈ calls, call.source.path ∈ sources) → ∀ source : Source indexRoot,
        source.path ∈ sources → ((Indexes.start fs).loadAll calls).ReadsOwn source

section

variable {indexRoot p q : Str} {sources : Set Str} {x : Indexes}

theorem indexPathOf_eq_iff : indexPathOf p indexRoot = indexPathOf q indexRoot ↔
    if indexRoot = [] then p = q else basename p = basename q := by
  rw [indexPathOf, indexPathOf]
  by_cases hroot : indexRoot = []
  · rw [if_pos hroot, if_pos hroot, if_pos hroot, List.append_left_inj]
  · rw [if_neg hroot, if_neg hroot, if_neg hroot, List.append_right_inj, List.cons_inj_right,
      List.append_left_inj]

theorem saveIndex_ok {β : Type} {file : IndexedCompFile β} {fs fs' : FileSystem}
    {mBlocks : List β} (h : file.saveIndex fs mBlocks = .ok fs') :
    ∃ data, fs' = fs.store file.indexPath data := by
  rw [saveIndex] at h
  split at h
  · cases hwrite : (file.writeIndex mBlocks).run ⟨file.indexPath, [], 0⟩ with
    | error e =>
        rw [hwrite] at h
        cases h
    | ok out =>
        rw [hwrite] at h
        cases h
        exact ⟨_, rfl⟩
  · cases h

/-- A call leaves everything as it is, or writes the index of its source. -/
theorem Indexes.load_cases (x : Indexes) (call : Load indexRoot) : x.load call = x ∨
    ∃ data, x.load call = ⟨x.fs.store call.source.file.indexPath data,
      Function.update x.writer call.source.file.indexPath (some call.source.path)⟩ := by
  rw [load]
  split
  · rename_i htry hload
    right
    rw [loadIndex, htry] at hload
    obtain ⟨built, -, hsave⟩ := Option.map_eq_some_iff.mp hload
    cases built with
    | error e => cases hsave
    | ok mBlocks =>
        change (do
          let fs ← call.source.file.saveIndex x.fs mBlocks
          pure (mBlocks, fs)) = _ at hsave
        cases hwritten : call.source.file.saveIndex x.fs mBlocks with
        | error e =>
            rw [hwritten] at hsave
            cases hsave
        | ok fs =>
            rw [hwritten] at hsave
            cases hsave
            obtain ⟨data, rfl⟩ := saveIndex_ok hwritten
            exact ⟨data, rfl⟩
  · exact .inl rfl

/-- Every index file there is was written for the source whose path it has. -/
def Owned (indexRoot : Str) (sources : Set Str) (x : Indexes) : Prop :=
  ∀ path ∈ sources, x.fs.contents (String.ofList (indexPathOf path indexRoot)) ≠ none →
    x.writer (String.ofList (indexPathOf path indexRoot)) = some path

theorem Owned.load {call : Load indexRoot} (h : Owned indexRoot sources x)
    (hinj : Set.InjOn (fun path => indexPathOf path indexRoot) sources)
    (hcall : call.source.path ∈ sources) : Owned indexRoot sources (x.load call) := by
  obtain heq | ⟨data, heq⟩ := x.load_cases call
  · rw [heq]
    exact h
  · rw [heq]
    intro path hpath hfile
    simp only [call.source.indexPath_eq] at hfile ⊢
    by_cases hsame : path = call.source.path
    · rw [hsame, Function.update_self]
    · have hne : String.ofList (indexPathOf path indexRoot) ≠
          String.ofList (indexPathOf call.source.path indexRoot) := by
        intro hofList
        exact hsame (hinj hpath hcall (String.ofList_injective hofList))
      rw [Function.update_of_ne hne]
      simp only [FileSystem.store, if_neg hne] at hfile
      exact h path hpath hfile

theorem Owned.loadAll {calls : List (Load indexRoot)} (h : Owned indexRoot sources x)
    (hinj : Set.InjOn (fun path => indexPathOf path indexRoot) sources)
    (hcalls : ∀ call ∈ calls, call.source.path ∈ sources) :
    Owned indexRoot sources (x.loadAll calls) := by
  induction calls generalizing x with
  | nil => exact h
  | cons call calls ih =>
      rw [List.forall_mem_cons] at hcalls
      exact ih (h.load hinj hcalls.1) hcalls.2

theorem Owned.readsOwn {source : Source indexRoot} (h : Owned indexRoot sources x)
    (hsource : source.path ∈ sources) : x.ReadsOwn source := by
  intro mBlocks htry
  rw [source.indexPath_eq]
  apply h source.path hsource
  intro hnone
  rw [tryIndex, source.indexPath_eq, hnone] at htry
  cases htry

/-- An lzop source. -/
def lzopSource (path indexRoot : Str) : Source indexRoot where
  path := path
  β := Block
  file := LzopFile.file ⟨fun _ _ => 0, fun _ _ => 0⟩ (String.ofList path)
    (String.ofList (indexPathOf path indexRoot)) LzopFile.AdlerDec
  indexPath_eq := rfl

theorem lzopSource_indexPath (path indexRoot : Str) :
    (lzopSource path indexRoot).file.indexPath = String.ofList (indexPathOf path indexRoot) := rfl

/-- A file in the place of an index is read as one. -/
theorem tryIndex_lzopSource {fs : FileSystem} (bs : List Block)
    (h : fs.contents (String.ofList (indexPathOf p indexRoot)) =
      some (bs.flatMap encodeBase ++ beBytes 4 0)) :
    (lzopSource p indexRoot).file.tryIndex fs =
      .ok (true, (lzopSource p indexRoot).file.withUoffs 0
        (bs.takeWhile (lzopSource p indexRoot).file.IsStored)) := by
  let c := LzopFile.codec ⟨fun _ _ => 0, fun _ _ => 0⟩ (String.ofList p)
    (String.ofList (indexPathOf p indexRoot)) LzopFile.AdlerDec
  let fh : FileHandle := ⟨String.ofList (indexPathOf p indexRoot),
    bs.flatMap encodeBase ++ beBytes 4 0, 0⟩
  have hrest : fh.rest = c.encodeIndex bs ++ [] := by
    rw [List.append_nil]
    rfl
  have hread : ((lzopSource p indexRoot).file.readIndex []).run fh = _ :=
    c.run_readIndexLoop bs hrest
  have htry : (lzopSource p indexRoot).file.tryIndex fs =
      (((lzopSource p indexRoot).file.readIndex []).run fh).map Prod.fst := by
    rw [tryIndex, lzopSource_indexPath, h]
  rw [htry, hread]
  rfl

/-- The first open of an lzop source leaves its index behind. -/
theorem load_lzopSource {fs : FileSystem} {bs : List Block} {fuel : Nat} {fh : FileHandle}
    (hnone : fs.contents (String.ofList (indexPathOf p indexRoot)) = none)
    (hwritable : fs.writable (String.ofList (indexPathOf p indexRoot)) = true)
    (hbuild : (lzopSource p indexRoot).file.buildIndex fuel [] fh = some (.ok bs)) :
    (Indexes.start fs).load ⟨lzopSource p indexRoot, fuel, fh⟩ =
      ⟨fs.store (String.ofList (indexPathOf p indexRoot)) (bs.flatMap encodeBase ++ beBytes 4 0),
        Function.update (fun _ => none) (String.ofList (indexPathOf p indexRoot)) (some p)⟩ := by
  let c := LzopFile.codec ⟨fun _ _ => 0, fun _ _ => 0⟩ (String.ofList p)
    (String.ofList (indexPathOf p indexRoot)) LzopFile.AdlerDec
  have htry : (lzopSource p indexRoot).file.tryIndex fs = .ok (false, []) := by
    rw [tryIndex, lzopSource_indexPath, hnone]
  have hsave : (lzopSource p indexRoot).file.saveIndex fs bs =
      .ok (fs.store (String.ofList (indexPathOf p indexRoot))
        (bs.flatMap encodeBase ++ beBytes 4 0)) := by
    have hwrite : ((lzopSource p indexRoot).file.writeIndex bs).run
        ⟨(lzopSource p indexRoot).file.indexPath, [], 0⟩ = _ := c.run_writeIndex bs
    apply (if_pos hwritable).trans
    rw [hwrite]
    rfl
  have hload : (lzopSource p indexRoot).file.loadIndex fuel fs fh =
      some (.ok (bs, fs.store (String.ofList (indexPathOf p indexRoot))
        (bs.flatMap encodeBase ++ beBytes 4 0))) := by
    rw [loadIndex, htry]
    simp only
    rw [hbuild]
    show some (do
      let fs ← (lzopSource p indexRoot).file.saveIndex fs bs
      pure (bs, fs)) = _
    rw [hsave]
    rfl
  simp only [Indexes.load, Indexes.start]
  rw [htry, hload]
  rfl

/-- Sources are kept apart exactly if, in an index root, they have different base names,
and none of them is in the place of an index. -/
theorem keptApart_iff (indexRoot : Str) (sources : Set Str) : KeptApart indexRoot sources ↔
    (indexRoot = [] ∨ Set.InjOn basename sources) ∧
      ∀ path ∈ sources, indexPathOf path indexRoot ∉ sources := by
  constructor
  · rintro ⟨hpaths, hreads⟩
    constructor
    · by_cases hroot : indexRoot = []
      · exact .inl hroot
      · right
        intro p hp q hq hbase
        by_contra hne
        apply hpaths p hp q hq hne
        rw [indexPathOf_eq_iff, if_neg hroot]
        exact hbase
    · intro path hpath hmem
      let fs : FileSystem := {
        contents := fun file =>
          if file = String.ofList (indexPathOf path indexRoot) then some (beBytes 4 0) else none
        writable := fun _ => true }
      have hfresh : Fresh indexRoot sources fs := by
        intro other hother hfile
        by_cases heq : String.ofList (indexPathOf other indexRoot) =
            String.ofList (indexPathOf path indexRoot)
        · rw [String.ofList_injective heq]
          exact hmem
        · exact absurd (if_neg heq) hfile
      have hread : (lzopSource path indexRoot).file.tryIndex fs = _ :=
        tryIndex_lzopSource [] (if_pos rfl)
      have hown := hreads fs hfresh [] (by simp) (lzopSource path indexRoot) hpath _ hread
      cases hown
  · rintro ⟨hroot, hplace⟩
    have hinj : Set.InjOn (fun path => indexPathOf path indexRoot) sources := by
      intro p hp q hq heq
      have hiff := indexPathOf_eq_iff.mp heq
      split at hiff
      · exact hiff
      · rename_i hne
        exact hroot.resolve_left hne hp hq hiff
    constructor
    · intro p hp q hq hne heq
      exact hne (hinj hp hq heq)
    · intro fs hfresh calls hcalls source hsource
      have hstart : Owned indexRoot sources (Indexes.start fs) := by
        intro path hpath hfile
        exact absurd (hfresh path hpath hfile) (hplace path hpath)
      exact (hstart.loadAll hinj hcalls).readsOwn hsource

end

/-- The handle of an lzop file with one block, behind its header. -/
def storedHandle (path : Str) : FileHandle :=
  ⟨String.ofList path, LzopFile.storedPart.serialise ⟨fun _ _ => 0, fun _ _ => 0⟩,
    (LzopFile.storedPart.header ⟨fun _ _ => 0, fun _ _ => 0⟩).length⟩

theorem buildIndex_storedHandle (path indexRoot : Str) :
    (lzopSource path indexRoot).file.buildIndex 0 [] (storedHandle path) =
      some (.ok [⟨2, 2, 0, 50⟩]) := by
  have hrest : (storedHandle path).rest = LzopFile.storedPart.body ++
      LzopFile.serialise ⟨fun _ _ => 0, fun _ _ => 0⟩ [] := by
    rw [LzopFile.serialise, List.flatMap_nil, List.append_nil]
    exact List.drop_left
  have hloop := LzopFile.buildIndexLoop_run (String.ofList path) 0 [] LzopFile.storedPart [] hrest
  have hbuild : (LzopFile.buildIndex ⟨fun _ _ => 0, fun _ _ => 0⟩ (String.ofList path)
      LzopFile.AdlerDec []).run (storedHandle path) = _ :=
    (FileM.run_bind_ok run_size).trans hloop
  exact congrArg (fun out => some (out.map Prod.fst)) hbuild

/-- In an index root, the index of `/a/x.lzo` is read for `/b/x.lzo`. -/
theorem reads_foreign : ∃ (fs : FileSystem) (call : Load "/i".toList) (mBlocks : List Block),
    Fresh "/i".toList {"/a/x.lzo".toList, "/b/x.lzo".toList} fs ∧
      call.source.path = "/a/x.lzo".toList ∧
      let x := (Indexes.start fs).load call
      let source := lzopSource "/b/x.lzo".toList "/i".toList
      source.file.tryIndex x.fs = .ok (true, mBlocks) ∧ mBlocks ≠ [] ∧
        x.writer source.file.indexPath = some "/a/x.lzo".toList := by
  let fs : FileSystem := { contents := fun _ => none, writable := fun _ => true }
  have hshared : indexPathOf "/b/x.lzo".toList "/i".toList =
      indexPathOf "/a/x.lzo".toList "/i".toList := by decide
  have hload := @load_lzopSource _ _ fs _ _ _ rfl rfl
    (buildIndex_storedHandle "/a/x.lzo".toList "/i".toList)
  refine ⟨fs, ⟨lzopSource "/a/x.lzo".toList "/i".toList, 0, storedHandle "/a/x.lzo".toList⟩,
    [⟨2, 2, 0, 50⟩], ?_, rfl, ?_, List.cons_ne_nil _ _, ?_⟩
  · intro path _ hfile
    exact absurd rfl hfile
  · rw [hload]
    apply tryIndex_lzopSource [⟨2, 2, 0, 50⟩]
    rw [hshared]
    exact FileSystem.contents_store _ _ _
  · rw [hload, lzopSource_indexPath, hshared]
    simp only [Function.update_self]

theorem sameName_not_keptApart :
    ¬ KeptApart "/i".toList {"/a/x.lzo".toList, "/b/x.lzo".toList} := by
  rintro ⟨-, hreads⟩
  obtain ⟨fs, call, mBlocks, hfresh, hpath, htry, -, hwriter⟩ := reads_foreign
  have hown := hreads fs hfresh [call] (by simp [hpath])
    (lzopSource "/b/x.lzo".toList "/i".toList) (Set.mem_insert_of_mem _ rfl) mBlocks htry
  have hsame := hwriter.symm.trans hown
  exact absurd (Option.some.inj hsame) (by decide)

end IndexedCompFile

end Lzopfs
