import Lzopfs.FileContents
import Lzopfs.IndexPrefix

/-!
# Opening a source

The constructor of a format opens its source, checks the type of the file, loads or builds
the list of blocks, and looks whether there is a block at all. An index that it has built
is left behind for the next time, also if there turns out to be no block in it.
-/

namespace Lzopfs

open Verify FileHandle BlockListCompFile PathUtils

/-- `FileHandle::FileHandle`, for reading. -/
def FileSystem.openRead (fs : FileSystem) (path : String) : Except Exn FileHandle :=
  match fs.contents path with
  | none => .error (.sys ("open error for file " ++ path) (fs.readErrno path))
  | some data => .ok ⟨path, data, 0⟩

/-- What the program is started with, for the constructors. -/
structure OpenParams where
  maxBlock : UInt64
  indexRoot : Str
  blockFactor : Nat

/-- Where the index of a source is. -/
def OpenParams.indexPath (params : OpenParams) (path : Str) : String :=
  String.ofList (IndexedCompFile.indexPathOf path params.indexRoot)

/-- `checkSizes`: is there a block that is too large to cache? -/
def CompFile.checkSizes (file : CompFile) (maxBlock : UInt64) : Except Exn Bool :=
  match file.findBlock 0 with
  | .error _ => .error (.runtime "no blocks in file?")
  | .ok iter => .ok (iter.any fun b => b.usize.toUInt64 > maxBlock)

/-- A file that has been opened. -/
structure Opened (β : Type) where
  mBlocks : List β
  /-- The warning of `checkSizes` is printed. -/
  warned : Bool

section Initialize

variable {τ β : Type}

/-- `BlockListCompFile::initialize`: the result, and the files there are then. -/
def initializeFile (checkFileType : FileM τ)
    (loadIndex : τ → FileSystem → FileHandle → Option (Except Exn (List β × FileSystem)))
    (block : β → Block) (maxBlock : UInt64) (path : String) (fs : FileSystem) :
    Option (Except Exn (Opened β) × FileSystem) :=
  match fs.openRead path >>= checkFileType.run with
  | .error e => some (.error e, fs)
  | .ok (type, fh) => (loadIndex type fs fh).map fun
      | .error e => (.error e, fs)
      | .ok (mBlocks, fs) =>
          (((CompFile.blockList (mBlocks.map block)).checkSizes maxBlock).map (⟨mBlocks, ·⟩), fs)

variable {checkFileType : FileM τ} {block : β → Block} {maxBlock : UInt64} {path : String}
  {loadIndex : τ → FileSystem → FileHandle → Option (Except Exn (List β × FileSystem))}
  {fs fs' : FileSystem} {fh g : FileHandle} {type : τ} {bs : List β}

/-- The type of the file is accepted, and its blocks are loaded. -/
theorem initializeFile_eq (hopen : fs.openRead path = .ok fh)
    (hcheck : checkFileType.run fh = .ok (type, g))
    (hload : loadIndex type fs g = some (.ok (bs, fs'))) :
    initializeFile checkFileType loadIndex block maxBlock path fs =
      some (((CompFile.blockList (bs.map block)).checkSizes maxBlock).map (⟨bs, ·⟩), fs') := by
  have hchecked : fs.openRead path >>= checkFileType.run = .ok (type, g) := by
    rw [hopen]
    exact hcheck
  rw [initializeFile, hchecked]
  dsimp only
  rw [hload]
  rfl

/-- What has happened when a file is opened. -/
theorem initializeFile_ok {o : Opened β}
    (h : initializeFile checkFileType loadIndex block maxBlock path fs = some (.ok o, fs')) :
    ∃ fh type g, fs.openRead path = .ok fh ∧ checkFileType.run fh = .ok (type, g) ∧
      loadIndex type fs g = some (.ok (o.mBlocks, fs')) ∧
      (CompFile.blockList (o.mBlocks.map block)).checkSizes maxBlock = .ok o.warned := by
  rw [initializeFile] at h
  cases hchecked : fs.openRead path >>= checkFileType.run with
  | error e =>
      rw [hchecked] at h
      cases h
  | ok p =>
      obtain ⟨type, g⟩ := p
      rw [hchecked] at h
      cases hopen : fs.openRead path with
      | error e =>
          rw [hopen] at hchecked
          cases hchecked
      | ok fh =>
          rw [hopen] at hchecked
          obtain ⟨loaded, hload, hresult⟩ := Option.map_eq_some_iff.mp h
          cases loaded with
          | error e => cases hresult
          | ok loaded =>
              obtain ⟨bs, fs₁⟩ := loaded
              dsimp only at hresult
              cases hsizes : (CompFile.blockList (bs.map block)).checkSizes maxBlock with
              | error e =>
                  rw [hsizes] at hresult
                  cases hresult
              | ok warned =>
                  rw [hsizes] at hresult
                  cases hresult
                  exact ⟨fh, type, g, rfl, hchecked, hload, hsizes⟩

end Initialize

namespace CompFile

variable {file : CompFile} {maxBlock : UInt64}

/-- The first block is not empty. -/
theorem Regular.endingBefore_zero (h : file.Regular) : endingBefore file.blocks 0 = 0 := by
  have hfirst : ∀ b, file.blocks.head? = some b → b.usize ≠ 0 := by
    cases file with
    | blockList bs =>
        intro b hb husize
        have hlead := h.2.2
        cases bs with
        | nil => cases hb
        | cons a bs =>
            cases hb
            rw [leadingEmpty, List.takeWhile_cons_of_pos (by simpa using husize)] at hlead
            cases hlead
    | pixz idx =>
        intro b hb husize
        obtain ⟨a, ha, rfl⟩ := List.mem_map.mp (List.mem_of_head? hb)
        have hne : a.uncompressed_size ≠ 0 := by simpa using (List.mem_filter.mp ha).2
        have hsize := PixzFile.usize_makeBlock (h a (List.mem_of_mem_filter ha))
        rw [husize] at hsize
        exact hne (UInt64.toNat_inj.mp hsize.symm)
  cases hblocks : file.blocks with
  | nil => rfl
  | cons b bs =>
      have hne := hfirst b (by rw [hblocks]; rfl)
      have hpos : b.usize.toNat ≠ 0 := fun hzero => hne (UInt32.toNat_inj.mp hzero)
      rw [endingBefore, List.takeWhile_cons_of_neg (by simp [uend, hpos])]
      rfl

/-- A file is opened if it contains something. -/
theorem Regular.checkSizes (h : file.Regular) : file.checkSizes maxBlock =
    if 0 < total file.blocks then .ok (file.blocks.any fun b => b.usize.toUInt64 > maxBlock)
    else .error (.runtime "no blocks in file?") := by
  have hfind : file.findBlock 0 = _ := h.findBlock (show 0 < 2 ^ 63 by decide)
  rw [h.endingBefore_zero, List.drop_zero] at hfind
  rw [CompFile.checkSizes]
  by_cases hpos : 0 < total file.blocks
  · rw [if_pos hpos] at hfind ⊢
    rw [hfind]
  · rw [if_neg hpos] at hfind ⊢
    rw [hfind]

theorem total_pos {bs : List Block} (hne : bs ≠ []) (h : ∀ b ∈ bs, b.usize ≠ 0) : 0 < total bs := by
  obtain ⟨b, bs, rfl⟩ := List.exists_cons_of_ne_nil hne
  have hpos : b.usize.toNat ≠ 0 := fun hzero =>
    h b List.mem_cons_self (UInt32.toNat_inj.mp hzero)
  rw [total_cons]
  omega

end CompFile

namespace IndexedCompFile

variable {path indexRoot : Str}

theorem basename_append {dir name : Str} (hslash : '/' ∉ name) (hne : name ≠ []) :
    basename (dir ++ '/' :: name) = name := by
  have hlast : (dir ++ '/' :: name).rdropWhile (· = '/') = dir ++ '/' :: name := by
    apply List.rdropWhile_eq_self_iff.mpr
    intro hnil
    rw [List.getLast_append_of_ne_nil _ (List.cons_ne_nil _ _), List.getLast_cons hne]
    intro hend
    apply hslash
    rw [← of_decide_eq_true hend]
    exact List.getLast_mem hne
  have hfront : dir ++ '/' :: name ≠ [] := by simp
  have hall : ∀ c ∈ name.reverse, decide (c ≠ '/') = true := by
    intro c hc
    apply decide_eq_true
    rintro rfl
    exact hslash (List.mem_reverse.mp hc)
  rw [basename, if_neg hfront, hlast, if_neg hfront, List.rtakeWhile, List.reverse_append,
    List.reverse_cons, List.append_assoc, List.takeWhile_append_of_pos hall]
  simp

/-- A file is not its own index. -/
theorem indexPathOf_ne (path indexRoot : Str) : indexPathOf path indexRoot ≠ path := by
  intro heq
  rw [indexPathOf] at heq
  by_cases hroot : indexRoot = []
  · rw [if_pos hroot] at heq
    have hlen := congrArg List.length heq
    rw [List.length_append] at hlen
    exact absurd hlen (by simp [blockIdx])
  · rw [if_neg hroot] at heq
    by_cases hslash : basename path = ['/']
    · have hbase := @basename_append (indexRoot ++ ['/']) blockIdx (by decide) (by decide)
      rw [hslash] at heq
      have hpath : indexRoot ++ ['/'] ++ '/' :: blockIdx = path := by
        rw [← heq, List.append_assoc]
        rfl
      rw [hpath, hslash] at hbase
      exact absurd hbase (by decide)
    · have hbase := @basename_append indexRoot (basename path ++ blockIdx) (by
        rw [List.mem_append, not_or]
        exact ⟨slash_notMem_basename hslash, by decide⟩) (by
        intro hnil
        exact basename_ne_nil (List.append_eq_nil_iff.mp hnil).1)
      rw [heq] at hbase
      have hlen := congrArg List.length hbase
      rw [List.length_append] at hlen
      exact absurd hlen (by simp [blockIdx])

theorem openRead_store_index (params : OpenParams) (path : Str) (fs : FileSystem) (data : Buffer) :
    (fs.store (params.indexPath path) data).openRead (String.ofList path) =
      fs.openRead (String.ofList path) := by
  have hne : String.ofList path ≠ params.indexPath path := by
    intro heq
    exact indexPathOf_ne path params.indexRoot (String.ofList_injective heq).symm
  have hsame : (fs.store (params.indexPath path) data).contents (String.ofList path) =
      fs.contents (String.ofList path) := if_neg hne
  rw [FileSystem.openRead, FileSystem.openRead, hsame]
  rfl

variable {β : Type} {file : IndexedCompFile β} {fs : FileSystem} {bs : List β} {fuel : Nat}
  {fh : FileHandle}

/-- The index of blocks that have data and lie one after the other is read back. -/
theorem Codec.tryIndex_encoded (c : file.Codec) (hc : Contiguous 0 (bs.map file.block))
    (hne : ∀ b ∈ bs, (file.block b).usize ≠ 0)
    (hfs : fs.contents file.indexPath = some (c.encodeIndex bs)) :
    file.tryIndex fs = .ok (true, bs) := by
  let start : FileHandle := ⟨file.indexPath, c.encodeIndex bs, 0⟩
  have hrest : start.rest = c.encodeIndex bs ++ [] := (List.append_nil _).symm
  have hread : (file.readIndex []).run start = _ := c.run_readIndexLoop bs hrest
  have hall : bs.takeWhile file.IsStored = bs := by
    apply List.takeWhile_eq_self_iff.mpr
    intro b hb
    exact decide_eq_true (hne b hb)
  rw [hall, c.withUoffs_eq_iff.mpr hc] at hread
  rw [tryIndex, hfs]
  show ((file.readIndex []).run start).map Prod.fst = _
  rw [hread]
  rfl

/-- An index that is built is saved. -/
theorem Codec.loadIndex_built (c : file.Codec) (hnone : fs.contents file.indexPath = none)
    (hwritable : fs.writable file.indexPath = true)
    (hbuild : file.buildIndex fuel [] fh = some (.ok bs)) :
    file.loadIndex fuel fs fh =
      some (.ok (bs, fs.store file.indexPath (c.encodeIndex bs))) := by
  have hsave : file.saveIndex fs bs = .ok (fs.store file.indexPath (c.encodeIndex bs)) := by
    rw [saveIndex, if_pos hwritable, c.run_writeIndex]
    rfl
  rw [loadIndex, tryIndex, hnone]
  dsimp only
  rw [hbuild, Option.map_some]
  show some (do
    let fs ← file.saveIndex fs bs
    pure (bs, fs)) = _
  rw [hsave]
  rfl

theorem loadIndex_read (h : file.tryIndex fs = .ok (true, bs)) :
    file.loadIndex fuel fs fh = some (.ok (bs, fs)) := by
  rw [loadIndex, h]

/-- An index file that can be read is taken for an index. -/
theorem readIndex_true {more : Bool} {fh g : FileHandle}
    (h : (file.readIndex []).run fh = .ok ((more, bs), g)) : more = true := by
  refine FileLoop.of_run_ok (motive := fun _ _ r _ => r.1 = true) ?_ ?_ h
  · rintro ⟨uoff, mBlocks⟩ fh r g hbody
    obtain ⟨⟨more, b⟩, m, -, hret⟩ := FileM.of_run_bind_ok hbody
    cases more with
    | false =>
        cases hret
        rfl
    | true => cases hret
  · intro s fh s' m r g hbody ih
    exact ih

/-- Where the list of a file that is loaded comes from. -/
theorem loadIndex_cases {fs' : FileSystem} (h : file.loadIndex fuel fs fh = some (.ok (bs, fs'))) :
    (file.tryIndex fs = .ok (true, bs) ∧ fs' = fs) ∨
      file.buildIndex fuel [] fh = some (.ok bs) ∧ fs.contents file.indexPath = none ∧
        file.saveIndex fs bs = .ok fs' := by
  cases hfile : fs.contents file.indexPath with
  | some data =>
      have htry : file.tryIndex fs =
          ((file.readIndex []).run ⟨file.indexPath, data, 0⟩).map Prod.fst := by
        rw [tryIndex, hfile]
      rw [loadIndex, htry] at h
      cases hread : (file.readIndex []).run ⟨file.indexPath, data, 0⟩ with
      | error e =>
          rw [hread] at h
          cases h
      | ok out =>
          obtain ⟨⟨more, bs'⟩, g⟩ := out
          rw [hread] at h
          cases readIndex_true hread
          cases h
          exact .inl ⟨by rw [htry, hread]; rfl, rfl⟩
  | none =>
      rw [loadIndex, tryIndex, hfile] at h
      obtain ⟨built, hbuild, hsave⟩ := Option.map_eq_some_iff.mp h
      cases built with
      | error e => cases hsave
      | ok bs' =>
          change (file.saveIndex fs bs' >>= fun fs => pure (bs', fs) :
            Except Exn (List β × FileSystem)) = .ok (bs, fs') at hsave
          cases hsaved : file.saveIndex fs bs' with
          | error e =>
              rw [hsaved] at hsave
              cases hsave
          | ok fs₁ =>
              rw [hsaved] at hsave
              cases hsave
              exact .inr ⟨hbuild, rfl, hsaved⟩

/-- A source that was opened once is opened again in the same way, if what is built for it has
no empty blocks: the index that was left behind has the same list, and no file changes. -/
theorem initializeFile_again {τ : Type} {file : τ → IndexedCompFile β} {checkFileType : FileM τ}
    {block : β → Block} {maxBlock : UInt64} {params : OpenParams} {path : Str} {o : Opened β}
    {fs' : FileSystem} (hpath : ∀ type, (file type).indexPath = params.indexPath path)
    (c : ∀ type, (file type).Codec)
    (hbuilt : ∀ type g bs, (file type).buildIndex fuel [] g = some (.ok bs) →
      Contiguous 0 (bs.map (file type).block) ∧ ∀ b ∈ bs, ((file type).block b).usize ≠ 0)
    (h : initializeFile checkFileType (fun type => (file type).loadIndex fuel) block maxBlock
      (String.ofList path) fs = some (.ok o, fs')) :
    initializeFile checkFileType (fun type => (file type).loadIndex fuel) block maxBlock
      (String.ofList path) fs' = some (.ok o, fs') := by
  obtain ⟨fh, type, g, hopen, hcheck, hload, hsizes⟩ := initializeFile_ok h
  obtain ⟨-, rfl⟩ | ⟨hbuild, -, hsave⟩ := loadIndex_cases hload
  · exact h
  · obtain ⟨data, hstored⟩ := saveIndex_ok hsave
    obtain ⟨hcontiguous, hne⟩ := hbuilt type g _ hbuild
    have hdata : fs'.contents (file type).indexPath = some data := by
      rw [hstored, FileSystem.contents_store]
    have htry := (c type).tryIndex_encoded hcontiguous hne
      (hdata.trans (congrArg some ((c type).data_eq hsave hdata)))
    have hopen' : fs'.openRead (String.ofList path) = .ok fh := by
      rw [hstored, hpath, openRead_store_index, hopen]
    rw [initializeFile_eq hopen' hcheck (loadIndex_read htry), hsizes]
    rfl

end IndexedCompFile

end Lzopfs
