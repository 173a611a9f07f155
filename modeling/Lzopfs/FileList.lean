import Lzopfs.Basic
import Lzopfs.PathUtils
import Mathlib.Data.List.AList

/-!
# The list of mounted files

Every source is offered to the openers of the formats in turn, and the file of the first
one that takes it is put into the map under the name it is mounted as. That name depends
on the base name of the source and on the format only, so two sources can get one name,
and the later one then hides the earlier one.
-/

namespace Lzopfs

open PathUtils

/-- The formats, in the order their openers are tried. -/
inductive Format where
  | lzop
  | gzip
  | bzip2
  | pixz
  | zstd
  deriving DecidableEq, Repr

/-- The name with the extension of a format replaced or removed: those in `tars` become
`tar`, those in `exts` disappear. -/
def destNameBy (tars exts : List Str) (base : Str) : Str :=
  match tars.findSome? fun ext => replaceExtension base ext ['t', 'a', 'r'] with
  | some name => name
  | none => (exts.findSome? (removeExtension base)).getD base

def LzopFile.destName (path : Str) : Str :=
  destNameBy [['t', 'z', 'o']] [['l', 'z', 'o']] (basename path)

def GzipFile.destName (path : Str) : Str :=
  destNameBy [['t', 'g', 'z']] [['g', 'z']] (basename path)

def Bzip2File.destName (path : Str) : Str :=
  destNameBy [['t', 'b', 'z', '2']] [['b', 'z', '2']] (basename path)

def PixzFile.destName (path : Str) : Str :=
  destNameBy [['t', 'p', 'x', 'z'], ['t', 'x', 'z']] [['p', 'x', 'z'], ['x', 'z']] (basename path)

def ZstdFile.destName (path : Str) : Str := destNameBy [] [['z', 's', 't']] (basename path)

/-- An opened file. -/
structure CompressedFile where
  path : Str
  format : Format
  deriving DecidableEq, Repr

namespace CompressedFile

def destName (file : CompressedFile) : Str :=
  match file.format with
  | .lzop => LzopFile.destName file.path
  | .gzip => GzipFile.destName file.path
  | .bzip2 => Bzip2File.destName file.path
  | .pixz => PixzFile.destName file.path
  | .zstd => ZstdFile.destName file.path

end CompressedFile

namespace FileList

/-- The files by the path they are mounted as. -/
abbrev Map := AList fun _ : Str => CompressedFile

/-- What is printed about a source that is skipped. -/
inductive Skipped where
  /-- `Don't understand format of file` -/
  | format (source : Str)
  /-- `Error reading file` -/
  | error (source : Str) (e : Exn)

def Openers : List Format := [.lzop, .gzip, .bzip2, .pixz, .zstd]

/-- A source and what the openers do on it when it is added. -/
structure Call where
  source : Str
  opens : Format → Except Exn Unit

/-- Try the openers until one does not throw a `FormatException`. -/
def tryOpeners (call : Call) : List Format → Except Exn (Option CompressedFile)
  | [] => .ok none
  | format :: openers =>
      match call.opens format with
      | .ok () => .ok (some ⟨call.source, format⟩)
      | .error (.format _ _) => tryOpeners call openers
      | .error e => .error e

def find (mMap : Map) (dest : Str) : Option CompressedFile := mMap.lookup dest

def add (mMap : Map) (call : Call) : Map × Option Skipped :=
  match tryOpeners call Openers with
  | .ok none => (mMap, some (.format call.source))
  | .ok (some file) => (mMap.insert ('/' :: file.destName) file, none)
  | .error e => (mMap, some (.error call.source e))

/-- The names `forNames` goes through, in some order. -/
def forNames (mMap : Map) : List Str := mMap.keys

/-- The calls made when the program starts. -/
def addAll (calls : List Call) : Map := calls.foldl (fun mMap call => (add mMap call).1) ∅

/-- The file of a source that some opener accepts. -/
def accept (call : Call) : Option CompressedFile :=
  match tryOpeners call Openers with
  | .ok file => file
  | .error _ => none

def accepted (calls : List Call) : List CompressedFile := calls.filterMap accept

/-- What a directory can list. -/
def ValidEntry (name : Str) : Prop := name ≠ [] ∧ '/' ∉ name ∧ name ≠ ['.'] ∧ name ≠ ['.', '.']

instance (name : Str) : Decidable (ValidEntry name) :=
  inferInstanceAs (Decidable (name ≠ [] ∧ '/' ∉ name ∧ name ≠ ['.'] ∧ name ≠ ['.', '.']))

/-- Every accepted source is mounted under a name of its own, that finds its file. -/
def AllReachable (calls : List Call) : Prop :=
  (forNames (addAll calls)).Nodup ∧
    (∀ name ∈ forNames (addAll calls), ∃ entry, name = '/' :: entry ∧ ValidEntry entry) ∧
    (forNames (addAll calls)).length = (accepted calls).length ∧
    ∀ file ∈ accepted calls, find (addAll calls) ('/' :: file.destName) = some file

/-- The extensions of a format that become `tar`. -/
def tars : Format → List Str
  | .lzop => [['t', 'z', 'o']]
  | .gzip => [['t', 'g', 'z']]
  | .bzip2 => [['t', 'b', 'z', '2']]
  | .pixz => [['t', 'p', 'x', 'z'], ['t', 'x', 'z']]
  | .zstd => []

/-- The extensions of a format that disappear. -/
def exts : Format → List Str
  | .lzop => [['l', 'z', 'o']]
  | .gzip => [['g', 'z']]
  | .bzip2 => [['b', 'z', '2']]
  | .pixz => [['p', 'x', 'z'], ['x', 'z']]
  | .zstd => [['z', 's', 't']]

/-- A source of an odd name: of the root, of a directory entry that is always there, or
of one of these behind an extension. -/
def Odd (file : CompressedFile) : Prop :=
  basename file.path = ['/'] ∨ ∃ dots ∈ [['.'], ['.', '.']],
    basename file.path = dots ∨ ∃ ext ∈ exts file.format, basename file.path = dots ++ '.' :: ext

theorem destName_eq (file : CompressedFile) :
    file.destName = destNameBy (tars file.format) (exts file.format) (basename file.path) := by
  obtain ⟨path, format⟩ := file
  cases format <;> rfl

/-- The three ways a name comes about. -/
theorem destNameBy_cases (tars exts : List Str) (base : Str) :
    (∃ front ext, base = front ++ '.' :: ext ∧
        destNameBy tars exts base = front ++ ['.', 't', 'a', 'r']) ∨
      (∃ ext ∈ exts, base = destNameBy tars exts base ++ '.' :: ext ∧
        destNameBy tars exts base ≠ []) ∨
      destNameBy tars exts base = base := by
  simp only [destNameBy]
  cases htar : tars.findSome? fun ext => replaceExtension base ext ['t', 'a', 'r'] with
  | some name =>
      obtain ⟨ext, -, hext⟩ := List.exists_of_findSome?_eq_some htar
      obtain ⟨front, hbase, -, rfl⟩ := replaceExtension_iff.mp hext
      exact .inl ⟨front, ext, hbase, rfl⟩
  | none =>
      cases hrem : exts.findSome? (removeExtension base) with
      | some name =>
          obtain ⟨ext, hmem, hext⟩ := List.exists_of_findSome?_eq_some hrem
          exact .inr (.inl ⟨ext, hmem, removeExtension_iff.mp hext⟩)
      | none => exact .inr (.inr rfl)

/-- Only the odd sources get a name that a directory can't list. -/
theorem validEntry_iff (file : CompressedFile) : ValidEntry file.destName ↔ ¬ Odd file := by
  rw [destName_eq]
  constructor
  · have hslash : ∀ format, ¬ ValidEntry (destNameBy (tars format) (exts format) ['/']) := by
      intro format
      cases format <;> decide
    have hdots : ∀ format, ∀ dots ∈ [['.'], ['.', '.']],
        ¬ ValidEntry (destNameBy (tars format) (exts format) dots) := by
      intro format
      cases format <;> decide
    have hexts : ∀ format, ∀ dots ∈ [['.'], ['.', '.']], ∀ ext ∈ exts format,
        ¬ ValidEntry (destNameBy (tars format) (exts format) (dots ++ '.' :: ext)) := by
      intro format
      cases format <;> decide
    rintro hvalid (hbase | ⟨dots, hmem, hbase | ⟨ext, hext, hbase⟩⟩) <;> rw [hbase] at hvalid
    · exact hslash _ hvalid
    · exact hdots _ dots hmem hvalid
    · exact hexts _ dots hmem ext hext hvalid
  · intro hodd
    simp only [Odd, not_or, not_exists, not_and] at hodd
    obtain ⟨hroot, hdots⟩ := hodd
    have hnoslash := slash_notMem_basename hroot
    rcases destNameBy_cases (tars file.format) (exts file.format) (basename file.path) with
      ⟨front, ext, hbase, hname⟩ | ⟨ext, hext, hbase, hne⟩ | hname
    · have hfront : '/' ∉ front := by
        intro hmem
        apply hnoslash
        rw [hbase]
        exact List.mem_append_left _ hmem
      rw [hname]
      refine ⟨by simp, ?_, ?_, ?_⟩
      · simpa using hfront
      · intro heq
        have hlen := congrArg List.length heq
        simp at hlen
      · intro heq
        have hlen := congrArg List.length heq
        simp at hlen
    · refine ⟨hne, ?_, ?_, ?_⟩
      · intro hmem
        apply hnoslash
        rw [hbase]
        exact List.mem_append_left _ hmem
      · intro hdot
        apply (hdots ['.'] (by simp)).2 ext hext
        rw [← hdot]
        exact hbase
      · intro hdot
        apply (hdots ['.', '.'] (by simp)).2 ext hext
        rw [← hdot]
        exact hbase
    · rw [hname]
      exact ⟨basename_ne_nil, hnoslash, (hdots _ (by simp)).1, (hdots _ (by simp)).1⟩

/-- Put the files into the map one after the other. -/
def register (files : List CompressedFile) (mMap : Map) : Map :=
  files.foldl (fun mMap file => mMap.insert ('/' :: file.destName) file) mMap

variable {files : List CompressedFile} {mMap : Map} {name : Str}

theorem add_fst (mMap : Map) (call : Call) :
    (add mMap call).1 = register (accept call).toList mMap := by
  rw [add, accept]
  cases tryOpeners call Openers with
  | error e => rfl
  | ok file => cases file <;> rfl

theorem addAll_eq (calls : List Call) : addAll calls = register (accepted calls) ∅ := by
  rw [addAll]
  generalize (∅ : Map) = mMap
  induction calls generalizing mMap with
  | nil => rfl
  | cons call calls ih =>
      rw [List.foldl_cons, ih, add_fst, register, register, ← List.foldl_append, accepted, accepted,
        List.filterMap_cons]
      cases accept call <;> rfl

theorem mem_register : name ∈ register files mMap ↔
    (∃ file ∈ files, name = '/' :: file.destName) ∨ name ∈ mMap := by
  induction files generalizing mMap with
  | nil => simp [register]
  | cons file files ih =>
      have hcons : register (file :: files) mMap =
          register files (mMap.insert ('/' :: file.destName) file) := rfl
      rw [hcons, ih, AList.mem_insert, List.exists_mem_cons_iff, or_left_comm, or_assoc]

/-- A name that no later file gets keeps its file. -/
theorem lookup_register (h : ∀ file ∈ files, '/' :: file.destName ≠ name) :
    (register files mMap).lookup name = mMap.lookup name := by
  induction files generalizing mMap with
  | nil => rfl
  | cons file files ih =>
      rw [List.forall_mem_cons] at h
      have hcons : register (file :: files) mMap =
          register files (mMap.insert ('/' :: file.destName) file) := rfl
      rw [hcons, ih h.2, AList.lookup_insert_ne h.1.symm]

theorem lookup_register_mem {file : CompressedFile}
    (hnames : (files.map CompressedFile.destName).Nodup) (hfile : file ∈ files) :
    (register files mMap).lookup ('/' :: file.destName) = some file := by
  induction files generalizing mMap with
  | nil => cases hfile
  | cons first files ih =>
      rw [List.map_cons, List.nodup_cons] at hnames
      have hcons : register (first :: files) mMap =
          register files (mMap.insert ('/' :: first.destName) first) := rfl
      rw [hcons]
      obtain rfl | hlater := List.mem_cons.mp hfile
      · rw [lookup_register, AList.lookup_insert]
        intro other hother heq
        apply hnames.1
        rw [← List.cons_injective heq]
        exact List.mem_map_of_mem hother
      · exact ih hnames.2 hlater

theorem keys_register_perm (hnames : (files.map CompressedFile.destName).Nodup) :
    ((register files ∅).keys).Perm (files.map fun file => '/' :: file.destName) := by
  have hnodup : (files.map fun file => '/' :: file.destName).Nodup := by
    have hslash := hnames.map (List.cons_injective (a := '/'))
    rwa [List.map_map] at hslash
  rw [List.perm_ext_iff_of_nodup (AList.keys_nodup _) hnodup]
  intro name
  rw [← AList.mem_keys, mem_register, List.mem_map]
  constructor
  · rintro (⟨file, hfile, rfl⟩ | hmem)
    · exact ⟨file, hfile, rfl⟩
    · exact absurd hmem (AList.notMem_empty name)
  · rintro ⟨file, hfile, rfl⟩
    exact .inl ⟨file, hfile, rfl⟩

theorem accept_path {call : Call} {file : CompressedFile} (h : accept call = some file) :
    file.path = call.source := by
  have htry : ∀ openers, tryOpeners call openers = .ok (some file) → file.path = call.source := by
    intro openers
    induction openers with
    | nil => exact nofun
    | cons format openers ih =>
        intro h
        rw [tryOpeners] at h
        split at h
        · cases h
          rfl
        · exact ih h
        · cases h
  rw [accept] at h
  split at h
  · rename_i out hout
    exact htry Openers (h ▸ hout)
  · cases h

theorem accepted_paths (calls : List Call) :
    ((accepted calls).map CompressedFile.path).Sublist (calls.map Call.source) := by
  induction calls with
  | nil => exact List.Sublist.refl _
  | cons call calls ih =>
      rw [accepted, List.filterMap_cons]
      cases hfile : accept call with
      | none => exact ih.cons _
      | some file =>
          rw [List.map_cons, List.map_cons, accept_path hfile]
          exact ih.cons_cons _

/-- The accepted sources are all reachable exactly if they get different names and none
of them is odd. -/
theorem allReachable_iff {calls : List Call} (hcalls : (calls.map Call.source).Nodup) :
    AllReachable calls ↔ ((accepted calls).map CompressedFile.destName).Nodup ∧
      ∀ file ∈ accepted calls, ¬ Odd file := by
  rw [AllReachable, addAll_eq, forNames]
  constructor
  · rintro ⟨-, hvalid, -, hfind⟩
    constructor
    · have hpaths : (accepted calls).Nodup :=
        (hcalls.sublist (accepted_paths calls)).of_map _
      apply List.Nodup.map_on _ hpaths
      intro file hfile other hother hname
      have hsame := hfind file hfile
      rw [hname, hfind other hother] at hsame
      exact (Option.some.inj hsame).symm
    · intro file hfile
      have hkey : '/' :: file.destName ∈ (register (accepted calls) ∅).keys := by
        rw [← AList.mem_keys, mem_register]
        exact .inl ⟨file, hfile, rfl⟩
      obtain ⟨entry, hentry, hok⟩ := hvalid _ hkey
      rw [← validEntry_iff, List.cons_injective hentry]
      exact hok
  · rintro ⟨hnames, hodd⟩
    have hperm := keys_register_perm hnames
    refine ⟨AList.keys_nodup _, ?_, ?_, ?_⟩
    · intro name hname
      obtain ⟨file, hfile, rfl⟩ := List.mem_map.mp (hperm.subset hname)
      exact ⟨file.destName, rfl, (validEntry_iff file).mpr (hodd file hfile)⟩
    · rw [hperm.length_eq, List.length_map]
    · intro file hfile
      exact lookup_register_mem hnames hfile

/-- Sources that the gzip opener takes. -/
def gzipCall (source : Str) : Call where
  source := source
  opens
    | .lzop => .error (.format (String.ofList source) "magic mismatch")
    | _ => .ok ()

theorem two_reachable :
    AllReachable [gzipCall "/a/x.gz".toList, gzipCall "/a/y.tgz".toList] :=
  (allReachable_iff (by decide)).mpr (by
    refine ⟨by decide, ?_⟩
    intro file hfile
    rw [← validEntry_iff]
    revert file
    decide)

/-- Two sources of one name: the second one hides the first. -/
theorem hidden : ([gzipCall "/a/x.gz".toList, gzipCall "/b/x.gz".toList].map Call.source).Nodup ∧
    ¬ AllReachable [gzipCall "/a/x.gz".toList, gzipCall "/b/x.gz".toList] := by
  refine ⟨by decide, ?_⟩
  rintro ⟨-, -, hlength, -⟩
  exact absurd hlength (by decide)

end FileList

end Lzopfs
