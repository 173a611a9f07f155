import Lzopfs.Fuse
import Lzopfs.PixzContents
import Lzopfs.ZstdContents

/-!
# Mounting what was packed

The sources that were accepted when the program started are in the directory, under the names
that their formats give them. When each was written by a packer of its format, programs see
what was packed.
-/

namespace Lzopfs

open Verify FileList

/-- The libraries that sources are read with. -/
structure Libraries where
  lzo : LzopFile.Lzo
  lzoLib : LzoLib
  zstd : Zstd
  liblzma : PixzFile.Liblzma
  lzma : Lzma
  takesRest : ZstdFile.TakesRest zstd
  reports : liblzma.Reports
  endsWithin : PixzFile.EndsWithin lzma

/-- A source that was packed: the file that opening it made, what reading one of its blocks
gives, and what was packed. Other files may have changed since it was opened. -/
inductive Packed (libs : Libraries) (params : OpenParams) (file : CompressedFile) :
    CompFile → (Block → Buffer → Prop) → Buffer → Prop
  | lzop {fs fs' : FileSystem} {o : Opened Block} {p : LzopFile.Part} {ps : List LzopFile.Part}
      {plains : List Buffer} (hformat : file.format = .lzop)
      (hfile : fs.contents (String.ofList file.path) = some (LzopFile.serialise libs.lzo (p :: ps)))
      (hfresh : fs.contents (params.indexPath file.path) = none)
      (hwritable : fs.writable (params.indexPath file.path) = true)
      (hpacks : List.Forall₂ (LzopFile.PartBlock.Packs libs.lzoLib)
        ((p :: ps).flatMap LzopFile.Part.blocks) plains)
      (hne : plains ≠ []) (hlt : (LzopFile.serialise libs.lzo (p :: ps)).length < 2 ^ 63)
      (hsize : plains.flatten.length < 2 ^ 63)
      (hopened : LzopFile.new libs.lzo params file.path fs = some (.ok o, fs')) :
      Packed libs params file (.blockList o.mBlocks)
        (LzopFile.Gives libs.lzoLib
          ⟨String.ofList file.path, LzopFile.serialise libs.lzo (p :: ps), 0⟩) plains.flatten
  | zstd {fs fs' : FileSystem} {o : Opened Block} {flags : UInt8} {f : ZstdFile.Frame}
      {frames : List ZstdFile.Frame} {plains : List Buffer} (hformat : file.format = .zstd)
      (hfile : fs.contents (String.ofList file.path) =
          some (ZstdFile.serialise flags (f :: frames)))
      (hmagic : leBytes 4 ZstdFile.ZSTD_MAGICNUMBER.toNat <+: f.bytes) (hfirst : f.usize ≠ 0)
      (hpacks : List.Forall₂ (ZstdFile.Frame.Packs libs.zstd) (f :: frames) plains)
      (hfit : (ZstdFile.table flags ((f :: frames).map ZstdFile.Frame.entry)).length +
        ZstdFile.FooterSize < 2 ^ 32)
      (hlt : (ZstdFile.serialise flags (f :: frames)).length < 2 ^ 63)
      (hsize : plains.flatten.length < 2 ^ 63)
      (hopened : ZstdFile.new params file.path fs = some (.ok o, fs')) :
      Packed libs params file (.blockList o.mBlocks)
        (ZstdFile.Gives libs.zstd
          ⟨String.ofList file.path, ZstdFile.serialise flags (f :: frames), 0⟩) plains.flatten
  | pixz {fs : FileSystem} {fuel : Nat} {flags : libs.liblzma.Flags}
      {start : libs.liblzma.decoder.State} {s : PixzFile.BlockStream libs.liblzma libs.lzma}
      {ss : List (PixzFile.BlockStream libs.liblzma libs.lzma)} {idx : PixzFile.LzmaIndex}
      {warned : Bool} (hformat : file.format = .pixz)
      (hfile : fs.contents (String.ofList file.path) =
        some (PixzFile.BlockStream.serialise (s :: ss)))
      (hheader : libs.liblzma.stream_header_decode s.header = .ok flags)
      (hstart : libs.liblzma.index_decoder = some start)
      (hcombine : PixzFile.Combine libs.liblzma.toLzmaIndexing
        (PixzFile.entries ((s :: ss).map PixzFile.BlockStream.part)))
      (hfit : ∀ plain ∈ PixzFile.BlockStream.plains (s :: ss), plain.length < 2 ^ 32)
      (hlt : (PixzFile.BlockStream.serialise (s :: ss)).length < 2 ^ 63)
      (hfuel : (PixzFile.BlockStream.serialise (s :: ss)).length < fuel)
      (hopened : PixzFile.new libs.liblzma params.maxBlock file.path fuel fs =
        some (.ok (idx, warned))) :
      Packed libs params file (.pixz idx)
        (PixzFile.Gives libs.lzma (String.ofList file.path)
          ⟨String.ofList file.path, PixzFile.BlockStream.serialise (s :: ss), 0⟩ idx)
        (PixzFile.BlockStream.plains (s :: ss)).flatten

variable {libs : Libraries} {params : OpenParams} {file : CompressedFile} {calls : List Call}

/-- In each format, the blocks serve what was packed. -/
theorem Packed.serves {comp : CompFile} {gives : Block → Buffer → Prop} {data : Buffer}
    (h : Packed libs params file comp gives data) : comp.Serves gives data := by
  cases h with
  | lzop hformat hfile hfresh hwritable hpacks hne hlt hsize hopened =>
      obtain ⟨fs', hnew⟩ := LzopFile.new_serialise hfile hfresh hwritable hpacks hne hlt hsize
      cases hopened.symm.trans hnew
      exact LzopFile.serves_partsFrom rfl hpacks hlt hsize
  | zstd hformat hfile hmagic hfirst hpacks hfit hlt hsize hopened =>
      cases hopened.symm.trans
        (ZstdFile.new_serialise libs.takesRest hfile hmagic hfirst hpacks hfit hlt hsize)
      exact ZstdFile.serves_blocksFrom libs.takesRest rfl hfirst hpacks hlt hsize
  | pixz hformat hfile hheader hstart hcombine hfit hlt hfuel hopened =>
      obtain ⟨idx, hblocks, hnew⟩ := PixzFile.new_serialise libs.reports hfile hheader hstart
        hcombine hfit hlt hfuel
      rw [hnew] at hopened
      split at hopened
      · cases hopened
      · cases hopened
        exact PixzFile.serves_listed libs.endsWithin hblocks hfit hlt

namespace FileList

theorem mem_of_lookup_register {files : List CompressedFile} {mMap : Map} {name : Str}
    (h : (register files mMap).lookup name = some file) :
    file ∈ files ∨ mMap.lookup name = some file := by
  induction files generalizing mMap with
  | nil => exact .inr h
  | cons first files ih =>
      have hcons : register (first :: files) mMap =
          register files (mMap.insert ('/' :: first.destName) first) := rfl
      rw [hcons] at h
      cases ih h with
      | inl hlater => exact .inl (List.mem_cons_of_mem _ hlater)
      | inr hfirst =>
          by_cases hname : name = '/' :: first.destName
          · rw [hname, AList.lookup_insert] at hfirst
            cases hfirst
            exact .inl List.mem_cons_self
          · rw [AList.lookup_insert_ne hname] at hfirst
            exact .inr hfirst

/-- What is found was accepted. -/
theorem mem_accepted_of_find {path : Str} (h : find (addAll calls) path = some file) :
    file ∈ accepted calls := by
  rw [find, addAll_eq] at h
  cases mem_of_lookup_register h with
  | inl hmem => exact hmem
  | inr hnone => cases hnone

theorem rooted_addAll {path : Str} (h : find (addAll calls) path = some file) :
    ∃ name, path = '/' :: name := by
  rw [find, addAll_eq] at h
  have hmem : path ∈ register (accepted calls) ∅ :=
    AList.lookup_isSome.mp (Option.isSome_iff_exists.mpr ⟨file, h⟩)
  cases mem_register.mp hmem with
  | inl hnamed =>
      obtain ⟨file, -, hname⟩ := hnamed
      exact ⟨_, hname⟩
  | inr hnone => cases hnone

end FileList

/-- A file that nobody asks for. -/
theorem CompFile.holds_nil (decompress : Block → Buffer) :
    (CompFile.blockList []).Holds decompress [] where
  regular := ⟨trivial, Nat.two_pow_pos 63, rfl⟩
  distinct := .nil
  lengths b hb := by cases hb
  contents := rfl

/-- The accepted sources can be mounted. -/
theorem exists_mount (hcalls : (calls.map Call.source).Nodup)
    (hpacked : ∀ file ∈ accepted calls, ∃ comp gives data,
        Packed libs params file comp gives data) :
    ∃ m : Mount, m.files = addAll calls ∧ ∀ file ∈ accepted calls, ∃ gives,
      Packed libs params file (m.comp file.path) gives (m.data file) ∧
        ∀ b ∈ (m.comp file.path).blocks, gives b (m.content (idOf file) b) := by
  have hpaths : ((accepted calls).map CompressedFile.path).Nodup :=
    (accepted_paths calls).nodup hcalls
  have hall : ∀ path, ∃ comp decompress data, CompFile.Holds comp decompress data ∧
      ∀ file ∈ accepted calls, file.path = path → ∃ gives, Packed libs params file comp gives data ∧
        ∀ b ∈ comp.blocks, gives b (decompress b) := by
    intro path
    by_cases hsome : ∃ file ∈ accepted calls, file.path = path
    · obtain ⟨file, hfile, rfl⟩ := hsome
      obtain ⟨comp, gives, data, h⟩ := hpacked file hfile
      obtain ⟨decompress, hgives, hholds⟩ := h.serves
      refine ⟨comp, decompress, data, hholds, ?_⟩
      intro other hother hsame
      rw [List.inj_on_of_nodup_map hpaths hother hfile hsame]
      exact ⟨gives, h, hgives⟩
    · refine ⟨.blockList [], fun _ => [], [], CompFile.holds_nil _, ?_⟩
      intro file hfile hsame
      exact absurd ⟨file, hfile, hsame⟩ hsome
  choose comp decompress data hholds hgiven using hall
  have hnamed : ∀ path, (comp path).Holds (decompress (String.ofList path).toList) (data path) := by
    intro path
    rw [String.toList_ofList]
    exact hholds path
  refine ⟨⟨addAll calls, comp, fun id => decompress id.toList, data,
    fun _ _ => rooted_addAll, hnamed⟩, rfl, ?_⟩
  intro file hfile
  obtain ⟨gives, h, hgives⟩ := hgiven file.path file hfile rfl
  refine ⟨gives, h, ?_⟩
  intro b hb
  show gives b (decompress (idOf file).toList b)
  rw [idOf, String.toList_ofList]
  exact hgives b hb

namespace Server

/-- Programs see the directory of what was packed, in the mount of the accepted sources. -/
theorem shows_packed {cacheSize : UInt64} {n : Nat} (hcalls : (calls.map Call.source).Nodup)
    (hpacked : ∀ file ∈ accepted calls, ∃ comp gives data,
        Packed libs params file comp gives data) :
    ∃ m : Mount, m.files = addAll calls ∧
      (∀ path file, find (addAll calls) path = some file →
        m.tree.contents path = some (m.data file) ∧ ∃ gives,
          Packed libs params file (m.comp file.path) gives (m.data file) ∧
            ∀ b ∈ (m.comp file.path).blocks, gives b (m.content (idOf file) b)) ∧
      ∀ es s ws, (service m n cacheSize).run (lf_init n cacheSize) es = some (s, ws) →
        (∀ e ∈ es, e.Promised ∧ e.Counted) → (ReadOnlyFs.service m.tree).Shows ws := by
  obtain ⟨m, hfiles, hm⟩ := exists_mount hcalls hpacked
  refine ⟨m, hfiles, ?_, ?_⟩
  · intro path file hfind
    have hcontents : m.tree.contents path = (find m.files path).map m.data := rfl
    rw [hcontents, hfiles, hfind]
    exact ⟨rfl, hm file (mem_accepted_of_find hfind)⟩
  · intro es s ws hrun hes
    exact (simulation m n cacheSize).shows hes hrun

/-- The libraries, as far as the sources below need them. -/
def knownLibraries : Libraries where
  lzo := ⟨fun _ _ => 0, fun _ _ => 0⟩
  lzoLib := LzopFile.noLib
  zstd := ZstdFile.rawZstd
  liblzma := PixzFile.lettersLib
  lzma := PixzFile.letterLzma
  takesRest := ZstdFile.rawZstd_takesRest
  reports := PixzFile.knownField_reports _ _ _
  endsWithin := PixzFile.letterLzma_endsWithin

/-- There is a source of each of three formats. -/
def packedFiles : FileSystem where
  contents path :=
    if path = "/d/hi.lzo" then some (LzopFile.serialise knownLibraries.lzo [LzopFile.storedPart])
    else if path = "/d/abc.zst" then some (ZstdFile.serialise 0 [ZstdFile.oneFrame])
    else if path = "/d/abc.xz" then some (PixzFile.BlockStream.serialise [PixzFile.lettersStream])
    else none
  writable _ := true

/-- A source that the opener of its format accepts. -/
def acceptedCall (source : Str) (format : Format) : Call where
  source := source
  opens f := if f = format then .ok () else .error (.format (String.ofList source) "magic mismatch")

def packedCalls : List Call :=
  [acceptedCall "/d/hi.lzo".toList .lzop, acceptedCall "/d/abc.zst".toList .zstd,
    acceptedCall "/d/abc.xz".toList .pixz]

theorem packed_hi : ∃ comp gives data,
    Packed knownLibraries ⟨100, [], 32⟩ ⟨"/d/hi.lzo".toList, .lzop⟩ comp gives data := by
  have hfile : packedFiles.contents (String.ofList "/d/hi.lzo".toList) =
      some (LzopFile.serialise knownLibraries.lzo [LzopFile.storedPart]) := by decide
  have hfresh : packedFiles.contents (OpenParams.indexPath ⟨100, [], 32⟩ "/d/hi.lzo".toList) =
      none := by decide
  have hpacks : List.Forall₂ (LzopFile.PartBlock.Packs knownLibraries.lzoLib)
      ([LzopFile.storedPart].flatMap LzopFile.Part.blocks) [[0x68, 0x69]] := by
    apply List.Forall₂.cons _ .nil
    rw [LzopFile.PartBlock.Packs, if_pos rfl]
  obtain ⟨fs', hnew⟩ := LzopFile.new_serialise hfile hfresh rfl hpacks (List.cons_ne_nil _ _)
    (by decide) (by decide)
  exact ⟨_, _, _, .lzop rfl hfile hfresh rfl hpacks (List.cons_ne_nil _ _) (by decide) (by decide)
    hnew⟩

theorem packed_abc : ∃ comp gives data,
    Packed knownLibraries ⟨100, [], 32⟩ ⟨"/d/abc.zst".toList, .zstd⟩ comp gives data := by
  have hfile : packedFiles.contents (String.ofList "/d/abc.zst".toList) =
      some (ZstdFile.serialise 0 [ZstdFile.oneFrame]) := by decide
  have hmagic : leBytes 4 ZstdFile.ZSTD_MAGICNUMBER.toNat <+: ZstdFile.oneFrame.bytes := by decide
  have hpacks : List.Forall₂ (ZstdFile.Frame.Packs knownLibraries.zstd) [ZstdFile.oneFrame]
      [[0x61, 0x62, 0x63]] := .cons ⟨List.prefix_refl _, rfl, rfl⟩ .nil
  have hnew :=
    @ZstdFile.new_serialise _ ⟨100, [], 32⟩ _ _ _ _ _ _ knownLibraries.takesRest hfile hmagic
    (by decide) hpacks (by decide) (by decide) (by decide)
  exact ⟨_, _, _,
    .zstd rfl hfile hmagic (by decide) hpacks (by decide) (by decide) (by decide) hnew⟩

theorem packed_xz : ∃ comp gives data,
    Packed knownLibraries ⟨100, [], 32⟩ ⟨"/d/abc.xz".toList, .pixz⟩ comp gives data := by
  have hfile : packedFiles.contents (String.ofList "/d/abc.xz".toList) =
      some (PixzFile.BlockStream.serialise [PixzFile.lettersStream]) := by decide
  obtain ⟨idx, -, hnew⟩ := @PixzFile.new_serialise knownLibraries.lzma knownLibraries.liblzma 100
    _ packedFiles 100 (4 : UInt8) [] PixzFile.lettersStream [] knownLibraries.reports hfile rfl rfl
    PixzFile.lettersStream_combine (by decide) (by decide) (by decide)
  exact ⟨_, _, _, .pixz rfl hfile rfl rfl PixzFile.lettersStream_combine (by decide) (by decide)
    (by decide) hnew⟩

theorem shows_packed_three :
    ∃ m : Mount, m.files = addAll packedCalls ∧
      (∀ path file, find (addAll packedCalls) path = some file →
        m.tree.contents path = some (m.data file) ∧ ∃ gives,
          Packed knownLibraries ⟨100, [], 32⟩ file (m.comp file.path) gives (m.data file) ∧
            ∀ b ∈ (m.comp file.path).blocks, gives b (m.content (idOf file) b)) ∧
      ∀ es s ws, (service m 2 CacheSize).run (lf_init 2 CacheSize) es = some (s, ws) →
        (∀ e ∈ es, e.Promised ∧ e.Counted) → (ReadOnlyFs.service m.tree).Shows ws := by
  apply @shows_packed knownLibraries ⟨100, [], 32⟩ packedCalls
  · decide
  · have haccepted : accepted packedCalls = [⟨"/d/hi.lzo".toList, .lzop⟩,
        ⟨"/d/abc.zst".toList, .zstd⟩, ⟨"/d/abc.xz".toList, .pixz⟩] := rfl
    rw [haccepted]
    simp only [List.forall_mem_cons]
    exact ⟨packed_hi, packed_abc, packed_xz, fun _ h => (by cases h)⟩

end Server

end Lzopfs
