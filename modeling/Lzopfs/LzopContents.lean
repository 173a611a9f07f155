import Lzopfs.DecompressBlock
import Lzopfs.Initialize
import Lzopfs.IndexRoundTrip

/-!
# What an lzop file is served as

The blocks that are found in a file lie one after the other, each in front of the next one,
and each decompresses to what was packed into it. So a file that was written block by block
is served as what the blocks were made of. It does not matter whether the blocks were found
in the file itself or in the index that was left behind.
-/

namespace Lzopfs

open Verify FileHandle BlockListCompFile IndexedCompFile

/-- A positioned read of bytes that are there. -/
theorem FileHandle.preadAt_slice {fh : FileHandle} {front bytes back : Buffer}
    (hdata : fh.data = front ++ (bytes ++ back)) (hne : bytes ≠ []) (hlt : front.length < 2 ^ 63) :
    fh.preadAt (toOff (UInt64.ofNat front.length)) bytes.length = .ok bytes := by
  have hnat : (UInt64.ofNat front.length).toNat = front.length := by
    rw [UInt64.toNat_ofNat']
    omega
  have hoff : toOff (UInt64.ofNat front.length) = front.length := by
    rw [toOff_of_lt (by rw [hnat]; exact hlt), hnat]
  have htake : (fh.data.drop front.length).take bytes.length = bytes := by
    rw [hdata, List.drop_left, List.take_left]
  have hread : fh.tryPReadAt (front.length : Nat) bytes.length = .ok bytes := by
    apply (if_neg (Int.not_lt.mpr (Int.natCast_nonneg _))).trans
    rw [Int.toNat_natCast, tryPRead, htake]
    exact if_neg hne
  rw [preadAt, hoff, hread]
  exact if_neg (Nat.lt_irrefl _)

/-- Records of blocks that start one behind the other between two places of a file. -/
def Ascending (lo hi : Nat) (bs : List Block) : Prop :=
  lo ≤ hi ∧ bs.Pairwise (fun a b => a.coff < b.coff) ∧
    ∀ b ∈ bs, lo ≤ b.coff.toNat ∧ b.coff.toNat < hi

namespace Ascending

variable {lo mid hi : Nat} {as bs : List Block}

theorem append (ha : Ascending lo mid as) (hb : Ascending mid hi bs) :
    Ascending lo hi (as ++ bs) := by
  obtain ⟨hlo, hpa, hina⟩ := ha
  obtain ⟨hhi, hpb, hinb⟩ := hb
  refine ⟨Nat.le_trans hlo hhi, List.pairwise_append.mpr ⟨hpa, hpb, ?_⟩, ?_⟩
  · intro a ha b hb
    apply UInt64.lt_iff_toNat_lt.mpr
    exact Nat.lt_of_lt_of_le (hina a ha).2 (hinb b hb).1
  · intro b hb
    obtain h | h := List.mem_append.mp hb
    · exact ⟨(hina b h).1, Nat.lt_of_lt_of_le (hina b h).2 hhi⟩
    · exact ⟨Nat.le_trans hlo (hinb b h).1, (hinb b h).2⟩

theorem mono {lo' hi' : Nat} (h : Ascending lo hi bs) (hlo : lo' ≤ lo) (hhi : hi ≤ hi') :
    Ascending lo' hi' bs :=
  ⟨Nat.le_trans hlo (Nat.le_trans h.1 hhi), h.2.1, fun b hb =>
    ⟨Nat.le_trans hlo (h.2.2 b hb).1, Nat.lt_of_lt_of_le (h.2.2 b hb).2 hhi⟩⟩

theorem singleton {b : Block} (hlo : lo ≤ b.coff.toNat) (hhi : b.coff.toNat < hi) :
    Ascending lo hi [b] := by
  refine ⟨by omega, List.pairwise_singleton _ _, ?_⟩
  intro a ha
  rw [List.mem_singleton.mp ha]
  exact ⟨hlo, hhi⟩

/-- The cache does not take one block for another. -/
theorem nodup (h : Ascending lo hi bs) : (bs.map Block.coff).Nodup := by
  rw [List.Nodup, List.pairwise_map]
  exact h.2.1.imp fun hlt => UInt64.ne_of_lt hlt

end Ascending

namespace LzopFile

variable {lib : LzoLib} {lzo : Lzo} {params : OpenParams} {path : Str} {fs fs' : FileSystem}

/-- The constructor, apart from `lzo_init`. -/
def new (lzo : Lzo) (params : OpenParams) (path : Str) (fs : FileSystem) :
    Option (Except Exn (Opened Block) × FileSystem) :=
  initializeFile (checkFileType lzo (String.ofList path))
    (fun mFlags => (file lzo (String.ofList path) (params.indexPath path) mFlags).loadIndex 0)
    id params.maxBlock (String.ofList path) fs

/-- What a block was made of. A block that is not smaller than that is stored as it is. -/
def PartBlock.Packs (lib : LzoLib) (b : PartBlock) (plain : Buffer) : Prop :=
  if b.csize = b.usize then plain = b.payload
  else b.payload ≠ [] ∧ lib.decompress_safe b.payload b.usize.toNat = .ok plain ∧
    plain.length = b.usize.toNat

/-- What reading a block of a file gives. -/
def Gives (lib : LzoLib) (fh : FileHandle) (b : Block) (plain : Buffer) : Prop :=
  ∀ ubuf, ∃ d, decompressBlock lib fh b ubuf = .ok d ∧ d.ubuf = plain

/-- A block is read in its size. -/
theorem Gives.length_eq {fh : FileHandle} {b : Block} {plain : Buffer} (h : Gives lib fh b plain) :
    plain.length = b.usize.toNat := by
  obtain ⟨d, hd, rfl⟩ := h []
  rw [decompressBlock] at hd
  by_cases hstored : b.csize = b.usize
  · rw [if_pos hstored] at hd
    cases hread : fh.preadAt (toOff b.coff) b.usize.toNat with
    | error e =>
        rw [hread] at hd
        cases hd
    | ok bytes =>
        rw [hread] at hd
        cases hd
        exact length_preadAt hread
  · rw [if_neg hstored] at hd
    cases hread : fh.preadAt (toOff b.coff) b.csize.toNat with
    | error e =>
        rw [hread] at hd
        cases hd
    | ok cbuf =>
        rw [hread] at hd
        dsimp only [bind, Except.bind] at hd
        cases hdec : lib.decompress_safe cbuf b.usize.toNat with
        | error code =>
            rw [hdec] at hd
            cases hd
        | ok out =>
            rw [hdec] at hd
            cases hd
            have hle := lib.length_le hdec
            apply (Buffer.length_blit _).trans (Buffer.length_resize _ _)
            rw [Buffer.length_resize]
            omega

/-- A block is read as what it was made of. -/
theorem gives_of_describes {fh : FileHandle} {e : Block} {b : PartBlock} {plain : Buffer}
    (he : Describes fh.data e b) (hpacks : b.Packs lib plain) (hlt : fh.data.length < 2 ^ 63) :
    Gives lib fh e plain := by
  obtain ⟨husize, hcsize, front, back, hdata, hcoff⟩ := he
  have hfront : front.length < 2 ^ 63 := by
    have hlen := congrArg List.length hdata
    rw [List.length_append] at hlen
    omega
  have hread : b.payload ≠ [] →
      fh.preadAt (toOff e.coff) e.csize.toNat = .ok b.payload := by
    intro hne
    rw [hcoff, hcsize, ← b.payload_length]
    exact preadAt_slice hdata hne hfront
  intro ubuf
  rw [decompressBlock]
  rw [PartBlock.Packs] at hpacks
  by_cases hstored : b.csize = b.usize
  · have hne : b.payload ≠ [] := by
      intro hnil
      apply b.usize_ne_zero
      have hlen := b.payload_length
      rw [hnil, hstored] at hlen
      exact UInt32.toNat_inj.mp hlen.symm
    have hbytes := hread hne
    rw [if_pos hstored] at hpacks
    rw [hcsize, hstored, ← husize] at hbytes
    rw [if_pos (by rw [hcsize, husize, hstored]), hbytes, hpacks]
    exact ⟨_, rfl, rfl⟩
  · rw [if_neg hstored] at hpacks
    obtain ⟨hne, hdec, hlen⟩ := hpacks
    rw [if_neg (by rw [hcsize, husize]; exact hstored), hread hne]
    dsimp only [bind, Except.bind]
    rw [husize, hdec]
    refine ⟨_, rfl, ?_⟩
    exact ((Decoded.full_fill ubuf).mpr hlen).2

theorem forall₂_trans {α β γ : Type} {R : α → β → Prop} {S : β → γ → Prop} {T : α → γ → Prop}
    {as : List α} {bs : List β} {cs : List γ} (hab : List.Forall₂ R as bs)
    (hbc : List.Forall₂ S bs cs) (h : ∀ a b c, R a b → S b c → T a c) : List.Forall₂ T as cs := by
  induction hab generalizing cs with
  | nil =>
      cases hbc
      exact .nil
  | cons ha hab ih =>
      cases hbc with
      | cons hb hbc => exact .cons (h _ _ _ ha hb) (ih hbc)

theorem blocksFrom_ascending {flags : UInt32} (coff uoff : Nat) (bs : List PartBlock)
    (hlt : coff + (bs.flatMap (PartBlock.serialise flags)).length < 2 ^ 63) :
    Ascending (coff + 8) (coff + (bs.flatMap (PartBlock.serialise flags)).length + 8)
      (blocksFrom flags coff uoff bs) := by
  induction bs generalizing coff uoff with
  | nil => exact ⟨Nat.le_refl _, .nil, fun b hb => (by cases hb)⟩
  | cons b bs ih =>
      rw [List.flatMap_cons, List.length_append, ← Nat.add_assoc] at hlt ⊢
      have hheader := b.length_header flags
      have hserialise := b.length_serialise flags
      have hcoff : (UInt64.ofNat (coff + (b.header flags).length)).toNat =
          coff + (b.header flags).length := by
        rw [UInt64.toNat_ofNat']
        omega
      have hfirst : Ascending (coff + 8) (coff + (b.serialise flags).length + 8)
          [⟨b.usize, b.csize, UInt64.ofNat uoff,
            UInt64.ofNat (coff + (b.header flags).length)⟩] := by
        apply Ascending.singleton
        · rw [hcoff]
          omega
        · rw [hcoff]
          omega
      exact hfirst.append (ih _ _ hlt)

theorem partsFrom_ascending (lzo : Lzo) (coff uoff : Nat) (ps : List Part)
    (hlt : coff + (serialise lzo ps).length < 2 ^ 63) :
    Ascending (coff + 8) (coff + (serialise lzo ps).length + 8) (partsFrom lzo coff uoff ps) := by
  induction ps generalizing coff uoff with
  | nil => exact ⟨Nat.le_refl _, .nil, fun b hb => (by cases hb)⟩
  | cons p ps ih =>
      have hlen : (serialise lzo (p :: ps)).length =
          (p.serialise lzo).length + (serialise lzo ps).length := by
        rw [serialise, List.flatMap_cons, List.length_append]
        rfl
      have hpart : (p.serialise lzo).length = (p.header lzo).length +
          (p.blocks.flatMap (PartBlock.serialise p.flags)).length + 4 := by
        simp only [Part.serialise, Part.body, List.length_append, length_beBytes, Nat.add_assoc]
      rw [hlen] at hlt ⊢
      have hblocks := @blocksFrom_ascending p.flags (coff + (p.header lzo).length) uoff
        p.blocks (by omega)
      have hrest := ih (coff + (p.serialise lzo).length) (uoff + p.usize) (by omega)
      exact (hblocks.mono (by omega) (by omega)).append (hrest.mono (Nat.le_refl _) (by omega))

theorem usize_partsFrom (ps : List Part) :
    (partsFrom lzo 0 0 ps).map Block.usize = (ps.flatMap Part.blocks).map PartBlock.usize := by
  have hdescribes := @partsFrom_describes lzo (serialise lzo ps) 0 [] ps rfl
  rw [← List.forall₂_eq_eq_eq, List.forall₂_map_left_iff, List.forall₂_map_right_iff]
  exact hdescribes.imp fun _ _ h => h.1

theorem usize_ne_zero {ps : List Part} {e : Block} (he : e ∈ partsFrom lzo 0 0 ps) :
    e.usize ≠ 0 := by
  have hmem : e.usize ∈ (partsFrom lzo 0 0 ps).map Block.usize := List.mem_map_of_mem he
  rw [usize_partsFrom] at hmem
  obtain ⟨b, -, hb⟩ := List.mem_map.mp hmem
  rw [← hb]
  exact b.usize_ne_zero

/-- The blocks that are found in a file of some parts serve what the parts were made of. -/
theorem serves_partsFrom {fh : FileHandle} {ps : List Part} {plains : List Buffer}
    (hdata : fh.data = serialise lzo ps)
    (hpacks : List.Forall₂ (PartBlock.Packs lib) (ps.flatMap Part.blocks) plains)
    (hlt : fh.data.length < 2 ^ 63) (hsize : plains.flatten.length < 2 ^ 63) :
    (CompFile.blockList (partsFrom lzo 0 0 ps)).Serves (Gives lib fh) plains.flatten := by
  have hdescribes : List.Forall₂ (Describes fh.data) (partsFrom lzo 0 0 ps) _ :=
    partsFrom_describes [] ps hdata
  have hgives : List.Forall₂ (Gives lib fh) (partsFrom lzo 0 0 ps) plains :=
    forall₂_trans hdescribes hpacks fun _ _ _ he hpacks => gives_of_describes he hpacks hlt
  have hascending := partsFrom_ascending lzo 0 0 ps (by
    rw [← hdata]
    omega)
  exact CompFile.serves_of_forall₂ (partsFrom_contiguous lzo 0 0 ps) hgives
    (fun _ _ => Gives.length_eq) hsize (CompFile.leadingEmpty_of_ne fun _ => usize_ne_zero)
    hascending.nodup

/-- The type of a file of parts is accepted, and its blocks are found. -/
theorem built_serialise (mPath indexPath : String) (p : Part) (ps : List Part) :
    ∃ g, (checkFileType lzo mPath).run ⟨mPath, serialise lzo (p :: ps), 0⟩ = .ok (p.flags, g) ∧
      (file lzo mPath indexPath p.flags).buildIndex 0 [] g =
        some (.ok (partsFrom lzo 0 0 (p :: ps))) := by
  let fh : FileHandle := ⟨mPath, serialise lzo (p :: ps), 0⟩
  have hrest : fh.rest = p.header lzo ++ (p.body ++ serialise lzo ps) := by
    show serialise lzo (p :: ps) = _
    simp only [serialise, List.flatMap_cons, Part.serialise, List.append_assoc]
  have hbody : (fh.skip (p.header lzo).length).rest = p.body ++ serialise lzo ps :=
    rest_skip_append hrest rfl
  have hloop := buildIndexLoop_run mPath 0 [] p ps hbody
  refine ⟨_, run_readHeaders fh hrest, ?_⟩
  show some (((buildIndex lzo mPath p.flags []).run _).map Prod.fst) = _
  rw [buildIndex, FileM.run_bind_ok run_size, hloop]
  have hstart : fh.pos = 0 := rfl
  simp only [List.nil_append, skip_pos, hstart, partsFrom, Nat.zero_add, Part.serialise,
    List.length_append]
  rfl

/-- What is built for an lzop file has no empty blocks. -/
theorem built_stored {mPath indexPath : String} {mFlags : UInt32} {fuel : Nat} {g : FileHandle}
    {bs : List Block}
    (h : (file lzo mPath indexPath mFlags).buildIndex fuel [] g = some (.ok bs)) :
    Contiguous 0 (bs.map (file lzo mPath indexPath mFlags).block) ∧
      ∀ b ∈ bs, ((file lzo mPath indexPath mFlags).block b).usize ≠ 0 := by
  obtain ⟨-, hcontiguous, hne, -⟩ := built_filled h
  have hself : bs.map (file lzo mPath indexPath mFlags).block = bs := List.map_id bs
  rw [hself]
  exact ⟨hcontiguous, hne⟩

/-- Where there is no index, opening a file of parts finds their blocks and looks at their sizes. -/
theorem new_serialise {p : Part} {ps : List Part} {plains : List Buffer}
    (hfile : fs.contents (String.ofList path) = some (serialise lzo (p :: ps)))
    (hfresh : fs.contents (params.indexPath path) = none)
    (hwritable : fs.writable (params.indexPath path) = true)
    (hpacks : List.Forall₂ (PartBlock.Packs lib) ((p :: ps).flatMap Part.blocks) plains)
    (hne : plains ≠ []) (hlt : (serialise lzo (p :: ps)).length < 2 ^ 63)
    (hsize : plains.flatten.length < 2 ^ 63) :
    ∃ fs', new lzo params path fs = some (.ok ⟨partsFrom lzo 0 0 (p :: ps),
      ((p :: ps).flatMap Part.blocks).any fun b => b.usize.toUInt64 > params.maxBlock⟩, fs') := by
  have hserves := @serves_partsFrom lib lzo ⟨String.ofList path, serialise lzo (p :: ps), 0⟩ _ _ rfl
    hpacks hlt hsize
  obtain ⟨g, hcheck, hbuild⟩ := @built_serialise lzo (String.ofList path)
    (params.indexPath path) p ps
  have hopen : fs.openRead (String.ofList path) =
      .ok ⟨String.ofList path, serialise lzo (p :: ps), 0⟩ := by
    rw [FileSystem.openRead, hfile]
  have hload := (codec lzo (String.ofList path) (params.indexPath path) p.flags).loadIndex_built
    hfresh hwritable hbuild
  have hnew : new lzo params path fs = _ := initializeFile_eq hopen hcheck hload
  have hblocks : partsFrom lzo 0 0 (p :: ps) ≠ [] := by
    have hlen := congrArg List.length (@usize_partsFrom lzo (p :: ps))
    rw [List.length_map, List.length_map, hpacks.length_eq] at hlen
    intro hnil
    rw [hnil] at hlen
    exact hne (List.length_eq_zero_iff.mp hlen.symm)
  have hwarned : ((partsFrom lzo 0 0 (p :: ps)).map Block.usize).any
      (fun usize => usize.toUInt64 > params.maxBlock) =
        (((p :: ps).flatMap Part.blocks).map PartBlock.usize).any
          fun usize => usize.toUInt64 > params.maxBlock := by
    rw [usize_partsFrom]
  rw [List.any_map, List.any_map] at hwarned
  have hsizes : (CompFile.blockList ((partsFrom lzo 0 0 (p :: ps)).map id)).checkSizes
      params.maxBlock = .ok (((p :: ps).flatMap Part.blocks).any
        fun b => b.usize.toUInt64 > params.maxBlock) := by
    obtain ⟨decompress, -, hholds⟩ := hserves
    rw [List.map_id, hholds.regular.checkSizes]
    apply (if_pos (CompFile.total_pos hblocks fun _ => usize_ne_zero)).trans
    exact congrArg _ hwarned
  rw [hsizes] at hnew
  exact ⟨_, hnew⟩

/-- Opening a file of parts finds their blocks, and saves them in an index. Opening it again
reads them from there. Either way the file is served as what the parts were made of. -/
theorem serves_serialise {p : Part} {ps : List Part} {plains : List Buffer}
    (hfile : fs.contents (String.ofList path) = some (serialise lzo (p :: ps)))
    (hfresh : fs.contents (params.indexPath path) = none)
    (hwritable : fs.writable (params.indexPath path) = true)
    (hpacks : List.Forall₂ (PartBlock.Packs lib) ((p :: ps).flatMap Part.blocks) plains)
    (hne : plains ≠ []) (hlt : (serialise lzo (p :: ps)).length < 2 ^ 63)
    (hsize : plains.flatten.length < 2 ^ 63) :
    ∃ o fs', new lzo params path fs = some (.ok o, fs') ∧
      new lzo params path fs' = some (.ok o, fs') ∧
      (CompFile.blockList o.mBlocks).Serves
        (Gives lib ⟨String.ofList path, serialise lzo (p :: ps), 0⟩) plains.flatten ∧
      o.warned = ((p :: ps).flatMap Part.blocks).any fun b =>
        b.usize.toUInt64 > params.maxBlock := by
  obtain ⟨fs', hnew⟩ := new_serialise hfile hfresh hwritable hpacks hne hlt hsize
  refine ⟨_, fs', hnew, ?_, serves_partsFrom rfl hpacks hlt hsize, rfl⟩
  exact initializeFile_again (fun _ => rfl) (codec lzo (String.ofList path) (params.indexPath path))
    (fun _ _ _ => built_stored) hnew

/-- There is a file of one stored block, and no index yet. -/
def storedFiles : FileSystem where
  contents path := if path = "/d/hi.lzo" then
    some (serialise ⟨fun _ _ => 0, fun _ _ => 0⟩ [storedPart]) else none
  writable _ := true

/-- A library that decompresses nothing. -/
def noLib : LzoLib where
  decompress_safe _ _ := .error (-6)
  length_le h := by cases h

theorem serves_serialise_stored : ∃ o fs',
    new ⟨fun _ _ => 0, fun _ _ => 0⟩ ⟨100, [], 32⟩ "/d/hi.lzo".toList storedFiles =
      some (.ok o, fs') ∧
    new ⟨fun _ _ => 0, fun _ _ => 0⟩ ⟨100, [], 32⟩ "/d/hi.lzo".toList fs' = some (.ok o, fs') ∧
    (CompFile.blockList o.mBlocks).Serves (Gives noLib ⟨String.ofList "/d/hi.lzo".toList,
      serialise ⟨fun _ _ => 0, fun _ _ => 0⟩ [storedPart], 0⟩) [[0x68, 0x69]].flatten ∧
    o.warned = ([storedPart].flatMap Part.blocks).any fun b => b.usize.toUInt64 > 100 := by
  have hfile : storedFiles.contents (String.ofList "/d/hi.lzo".toList) =
      some (serialise ⟨fun _ _ => 0, fun _ _ => 0⟩ [storedPart]) := by decide
  have hfresh : storedFiles.contents (OpenParams.indexPath ⟨100, [], 32⟩ "/d/hi.lzo".toList) =
      none := by decide
  have hpacks : List.Forall₂ (PartBlock.Packs noLib) ([storedPart].flatMap Part.blocks)
      [[0x68, 0x69]] := by
    apply List.Forall₂.cons _ .nil
    rw [PartBlock.Packs, if_pos rfl]
  exact serves_serialise hfile hfresh rfl hpacks (List.cons_ne_nil _ _) (by decide) (by decide)

end LzopFile

end Lzopfs
