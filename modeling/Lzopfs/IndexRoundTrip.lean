import Lzopfs.BlockSizes
import Lzopfs.GzipSpeculation
import Lzopfs.IndexPrefix

/-!
# A built index, written and read back

The records of an index do not hold the uncompressed offsets, and an empty block looks
like the end of the index. What lzop indexing finds has no empty blocks. What gzip and
bzip2 indexing find reads back exactly if no offset is recorded twice with data behind it.
-/

namespace Lzopfs

open Verify FileHandle IndexedCompFile

/-- Recorded offsets do not decrease; only the overflow of an `off_t` could make them. -/
def InOrder (bs : List Block) : Prop := bs.IsChain fun a b => a.uoff ≤ b.uoff

/-- The list starts at the start of the file, each block is recorded less than 4 GiB behind
the one before it, and behind an offset recorded twice there is not a byte more. -/
def Intact (bs : List Block) : Prop := (∀ b ∈ bs.head?, b.uoff = 0) ∧ Apart bs

/-- The size of each block is the difference to the offset of the next one. -/
def Differences (bs : List Block) : Prop :=
  bs.IsChain fun a b => a.usize = (b.uoff - a.uoff).toUInt32

theorem follows_of_difference {a b : Block} (hsize : a.usize = (b.uoff - a.uoff).toUInt32)
    (hle : a.uoff ≤ b.uoff) : Follows a b := by
  refine ⟨UInt64.le_iff_toNat_le.mp hle, ?_⟩
  rw [hsize, ← UInt32.toNat_inj, UInt64.toNat_toUInt32, UInt32.toNat_ofNat',
    UInt64.toNat_sub_of_le _ _ hle]

theorem Differences.follows {bs : List Block} (h : Differences bs) (hord : InOrder bs) :
    bs.IsChain Follows := by
  induction bs with
  | nil => exact .nil
  | cons a bs ih =>
      cases bs with
      | nil => exact .singleton a
      | cons b bs =>
          obtain ⟨hsize, hrest⟩ := List.isChain_cons_cons.mp h
          obtain ⟨hle, hord⟩ := List.isChain_cons_cons.mp hord
          exact List.isChain_cons_cons.mpr ⟨follows_of_difference hsize hle, ih hrest hord⟩

theorem differences_of_contiguous {uoff : UInt64} {bs : List Block}
    (h : BlockListCompFile.Contiguous uoff bs) : Differences bs := by
  induction bs generalizing uoff with
  | nil => exact .nil
  | cons a bs ih =>
      obtain ⟨ha, hrest⟩ := h
      cases bs with
      | nil => exact .singleton a
      | cons b bs =>
          apply List.isChain_cons_cons.mpr
          refine ⟨?_, ih hrest⟩
          rw [hrest.1, ha, UInt64.add_comm, UInt64.add_sub_cancel]
          exact (UInt32.toUInt32_toUInt64 a.usize).symm

theorem IndexedCompFile.Codec.roundTrips_iff_intact {β : Type} {file : IndexedCompFile β}
    (c : file.Codec) {bs : List β} (h : Differences (bs.map file.block))
    (hord : InOrder (bs.map file.block)) : RoundTrips file bs ↔ Intact (bs.map file.block) := by
  rw [c.roundTrips_iff]
  exact readsBack_iff (h.follows hord) fun b _ => Nat.zero_le _

namespace LzopFile

variable {lzo : Lzo} {mPath : String} {flags : UInt32} {fh g : FileHandle}

/-- A list of blocks with data, one behind the other, that ends at that offset. -/
def FilledTo (mBlocks : List Block) (uoff : Nat) : Prop :=
  BlockListCompFile.Contiguous 0 mBlocks ∧ (∀ b ∈ mBlocks, b.usize ≠ 0) ∧
    (mBlocks.map fun b => b.usize.toUInt64).sum = UInt64.ofNat uoff

theorem FilledTo.concat {mBlocks : List Block} {uoff : Nat} {b : Block}
    (h : FilledTo mBlocks uoff) (hb : b.usize ≠ 0) (huoff : b.uoff = UInt64.ofNat uoff) :
    FilledTo (mBlocks ++ [b]) (uoff + b.usize.toNat) := by
  obtain ⟨hcont, hne, hsum⟩ := h
  refine ⟨?_, ?_, ?_⟩
  · rw [BlockListCompFile.contiguous_append]
    refine ⟨hcont, ?_, trivial⟩
    rw [hsum, UInt64.zero_add, huoff]
  · intro b' hb'
    obtain hold | hnew := List.mem_append.mp hb'
    · exact hne b' hold
    · rwa [List.mem_singleton.mp hnew]
  · have hsize : b.usize.toUInt64 = UInt64.ofNat b.usize.toNat := by
      rw [← UInt64.toNat_inj, UInt32.toNat_toUInt64, UInt64.toNat_ofNat']
      have := b.usize.toNat_lt
      omega
    rw [List.map_append, List.sum_append, hsum, UInt64.ofNat_add, List.map_singleton,
      List.sum_singleton, hsize]

/-- The blocks of a part. -/
theorem findBlocks_filled {uoff uoff' : Nat} {mBlocks mBlocks' : List Block}
    (h : (findBlocks flags uoff mBlocks).run fh = .ok ((uoff', mBlocks'), g))
    (hfilled : FilledTo mBlocks uoff) : FilledTo mBlocks' uoff' := by
  rw [findBlocks, FileM.run_bind_ok run_tell] at h
  revert hfilled
  refine FileLoop.of_run_ok (motive := fun s _ r _ =>
    FilledTo s.2.2 s.2.1 → FilledTo r.2 r.1) ?_ ?_ h
  · rintro ⟨coff, uoff, mBlocks⟩ fh ⟨uoff', mBlocks'⟩ g hbody hfilled
    simp only [findBlocksLoop] at hbody
    obtain ⟨usize, m, -, hrest⟩ := FileM.of_run_bind_ok hbody
    split at hrest
    · cases hrest
      exact hfilled
    · obtain ⟨csize, m', -, hseek⟩ := FileM.of_run_bind_ok hrest
      rw [FileM.run_bind_ok (run_seekBy _)] at hseek
      cases hseek
  · rintro ⟨coff, uoff, mBlocks⟩ fh ⟨coff', uoff', mBlocks'⟩ m r g hbody ih hfilled
    simp only [findBlocksLoop] at hbody
    obtain ⟨usize, m, -, hrest⟩ := FileM.of_run_bind_ok hbody
    split at hrest
    · cases hrest
    · rename_i hne
      obtain ⟨csize, m', -, hseek⟩ := FileM.of_run_bind_ok hrest
      rw [FileM.run_bind_ok (run_seekBy _)] at hseek
      cases hseek
      exact ih (hfilled.concat hne rfl)

theorem buildIndexLoop_filled {size uoff : Nat} {mBlocks bs : List Block}
    (h : ((buildIndexLoop lzo mPath size).run (flags, uoff, mBlocks)).run fh = .ok (bs, g))
    (hfilled : FilledTo mBlocks uoff) : ∃ uend, FilledTo bs uend := by
  revert hfilled
  refine FileLoop.of_run_ok (motive := fun s _ r _ =>
    FilledTo s.2.2 s.2.1 → ∃ uend, FilledTo r uend) ?_ ?_ h
  · rintro ⟨flags, uoff, mBlocks⟩ fh bs g hbody hfilled
    simp only [buildIndexLoop] at hbody
    obtain ⟨⟨uoff', mBlocks'⟩, m, hfind, hrest⟩ := FileM.of_run_bind_ok hbody
    rw [FileM.run_bind_ok run_tell] at hrest
    split at hrest
    · cases hrest
      exact ⟨uoff', findBlocks_filled hfind hfilled⟩
    · obtain ⟨flags', m', -, hret⟩ := FileM.of_run_bind_ok hrest
      cases hret
  · rintro ⟨flags, uoff, mBlocks⟩ fh ⟨flags', uoff', mBlocks'⟩ m r g hbody ih hfilled
    simp only [buildIndexLoop] at hbody
    obtain ⟨⟨uoff'', mBlocks''⟩, m, hfind, hrest⟩ := FileM.of_run_bind_ok hbody
    rw [FileM.run_bind_ok run_tell] at hrest
    split at hrest
    · cases hrest
    · obtain ⟨flags', m', -, hret⟩ := FileM.of_run_bind_ok hrest
      cases hret
      exact ih (findBlocks_filled hfind hfilled)

theorem built_filled {indexPath : String} {fuel : Nat} {bs : List Block}
    (h : (file lzo mPath indexPath flags).buildIndex fuel [] fh = some (.ok bs)) :
    ∃ uend, FilledTo bs uend := by
  have hbuild : ((buildIndex lzo mPath flags []).run fh).map Prod.fst = .ok bs := Option.some.inj h
  rw [buildIndex, FileM.run_bind_ok run_size] at hbuild
  cases hloop : ((buildIndexLoop lzo mPath fh.data.length).run (flags, 0, [])).run fh with
  | error e =>
      rw [hloop] at hbuild
      cases hbuild
  | ok r =>
      rw [hloop] at hbuild
      cases hbuild
      have hempty : FilledTo [] 0 := ⟨trivial, fun _ hb => absurd hb List.not_mem_nil, rfl⟩
      exact buildIndexLoop_filled hloop hempty

end LzopFile

namespace GzipFile

variable {z : Zlib} {wild : Reader z → UInt8} {mPath indexPath : String} {mBlockFactor fuel : Nat}
  {fh : FileHandle} {bs : List GzipBlock}

/-- The sizes of what gzip indexing finds are filled in from the offsets. -/
theorem built_differences (h : buildIndex wild mPath mBlockFactor fuel [] fh = some (.ok bs)) :
    Differences (bs.map GzipBlock.block) := by
  exact (List.isChain_map GzipBlock.block).mpr ((buildIndex_sized h).imp fun _ _ hab => hab.1)

end GzipFile

namespace Bzip2File

variable {bz : Bzlib} {before : Nat → UInt8} {indexPath : String} {fuel uoff : Nat}
  {fh : FileHandle} {cands : List BlockBoundary} {bs : List Bzip2Block} {es : List Extent}

theorem Built.differences (h : Built bz fh cands uoff es bs) :
    Differences (bs.map Bzip2Block.block) := by
  rw [h.map_block]
  apply (List.isChain_map Extent.block).mpr
  apply h.adjoining.imp
  intro a b hab
  show a.usize.toUInt32 = (b.uoff - a.uoff).toUInt32
  rw [← hab, UInt64.add_comm, UInt64.add_sub_cancel]

end Bzip2File

namespace IndexedCompFile

variable {β : Type} {file : IndexedCompFile β} {fuel : Nat} {fh : FileHandle} {bs : List β}

theorem IsFormat.differences (hformat : file.IsFormat)
    (hbuild : file.buildIndex fuel [] fh = some (.ok bs)) : Differences (bs.map file.block) := by
  cases hformat with
  | lzop lzo mPath indexPath mFlags =>
      obtain ⟨uend, hcont, -⟩ := LzopFile.built_filled hbuild
      apply differences_of_contiguous
      have hself : bs.map (LzopFile.file lzo mPath indexPath mFlags).block = bs := List.map_id bs
      rwa [hself]
  | gzip wild mPath indexPath mBlockFactor => exact GzipFile.built_differences hbuild
  | bzip2 bz before indexPath =>
      obtain ⟨bl, g, es, -, hbuilt⟩ := @Bzip2File.exists_built bz fh bs before fuel hbuild
      exact hbuilt.differences

/-- The index of a file reads back exactly if the list that was built is intact. -/
theorem roundTrips_built_iff (hformat : file.IsFormat)
    (hbuild : file.buildIndex fuel [] fh = some (.ok bs)) (hord : InOrder (bs.map file.block)) :
    RoundTrips file bs ↔ Intact (bs.map file.block) := by
  obtain ⟨c⟩ := hformat.exists_codec
  exact c.roundTrips_iff_intact (hformat.differences hbuild) hord

end IndexedCompFile

namespace GzipFile

/-- The letter that a block holds. -/
def letter (input : Buffer) : UInt8 := if input[1]? = some 4 then 0x61 else 0x62

/-- What zlib answers on the file below: a member header is no block, and neither is a
trailer behind the last bits of a block. -/
def twoReply (i : Nat) (input : Buffer) : Reply :=
  if i = 110 ∧ input.head? = some 0x1f then ⟨110, 1, [], .error (-3), 0⟩
  else
    let r := letterReply noBlock i input
    { r with out := r.out.map fun _ => letter input }

def twoZlib : Zlib := Zlib.replay 110 200 twoReply

/-- The letters `a` and `b`, each compressed by gzip. -/
def twoFile : FileHandle where
  path := "ab.gz"
  data := [0x1f, 0x8b, 0x08, 0, 0, 0, 0, 0, 0, 3, 0x4b, 0x04, 0,
    0x43, 0xbe, 0xb7, 0xe8, 1, 0, 0, 0,
    0x1f, 0x8b, 0x08, 0, 0, 0, 0, 0, 0, 3, 0x4b, 0x02, 0,
    0xf9, 0xef, 0xbe, 0x71, 1, 0, 0, 0]
  pos := 0

/-- The file with a block factor of zero. -/
def twoMembers : IndexedCompFile GzipBlock :=
  @file twoZlib (fun _ => 0) "ab.gz" "ab.gz.blockIdx" 0

/-- The blocks that are found. -/
def builtBlocks : Option (Except Exn (List GzipBlock)) → Option (List Block)
  | some (.ok bs) => some (bs.map GzipBlock.block)
  | _ => none

/-- The block recorded with its window at the end of the first member is empty. -/
theorem builtBlocks_two : builtBlocks (twoMembers.buildIndex 20 [] twoFile) =
    some [⟨1, 3, 0, 10⟩, ⟨0, 18, 1, 13⟩, ⟨1, 3, 1, 31⟩, ⟨0, 8, 2, 34⟩] := by
  decide +kernel

theorem built_two : ∃ bs, twoMembers.buildIndex 20 [] twoFile = some (.ok bs) ∧
    bs.map GzipBlock.block = [⟨1, 3, 0, 10⟩, ⟨0, 18, 1, 13⟩, ⟨1, 3, 1, 31⟩, ⟨0, 8, 2, 34⟩] := by
  have hblocks := builtBlocks_two
  cases hrun : twoMembers.buildIndex 20 [] twoFile with
  | none =>
      rw [hrun] at hblocks
      cases hblocks
  | some r =>
      rw [hrun] at hblocks
      cases r with
      | error e => cases hblocks
      | ok bs => exact ⟨bs, rfl, Option.some.inj hblocks⟩

end GzipFile

theorem IndexedCompFile.roundTrips_built_iff_two :
    ∃ bs, GzipFile.twoMembers.buildIndex 20 [] GzipFile.twoFile = some (.ok bs) ∧
      (RoundTrips GzipFile.twoMembers bs ↔ Intact (bs.map GzipBlock.block)) := by
  obtain ⟨bs, hrun, hblocks⟩ := GzipFile.built_two
  refine ⟨bs, hrun, roundTrips_built_iff (.gzip _ _ _ _) hrun ?_⟩
  show InOrder (bs.map GzipBlock.block)
  rw [hblocks, InOrder]
  decide

/-- What is behind the empty block is not read back. -/
theorem IndexedCompFile.two_cut_short :
    ¬ ∀ bs, GzipFile.twoMembers.buildIndex 20 [] GzipFile.twoFile = some (.ok bs) →
      RoundTrips GzipFile.twoMembers bs := by
  intro hall
  obtain ⟨bs, hrun, hblocks⟩ := GzipFile.built_two
  let c : GzipFile.twoMembers.Codec := GzipFile.codec _ _ _ _
  have hback := c.roundTrips_iff.mp (hall bs hrun)
  have hmap : bs.map GzipFile.twoMembers.block = bs.map GzipBlock.block := rfl
  rw [hmap, hblocks] at hback
  have hempty := hback.2.1 ⟨1, 3, 1, 31⟩ (by decide)
  exact absurd hempty (by decide)

end Lzopfs
