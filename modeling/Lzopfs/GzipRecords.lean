import Lzopfs.GzipRuns
import Mathlib.Data.List.Chain

/-!
# The blocks gzip indexing records

The sizes of a block are filled in when the next one is recorded, as the differences of the
offsets. This holds of every run, whatever zlib answers.
-/

namespace Lzopfs

open Verify FileHandle IndexedCompFile

namespace GzipFile

section Lists

variable {R : GzipBlock → GzipBlock → Prop} {mBlocks : List GzipBlock} {uoff coff : Nat}

theorem setLastBlockSize_concat (bs : List GzipBlock) (p : GzipBlock) :
    setLastBlockSize (bs ++ [p]) uoff coff = bs ++ [sized p uoff coff] := by
  simp [setLastBlockSize]

/-- Fixing up the last block keeps a chain that does not look at the sizes of the
second block. -/
theorem isChain_setLastBlockSize (hR : ∀ a b, R a b → R a (sized b uoff coff))
    (h : mBlocks.IsChain R) : (setLastBlockSize mBlocks uoff coff).IsChain R := by
  obtain rfl | ⟨bs, p, rfl⟩ := List.eq_nil_or_concat mBlocks
  · exact h
  · rw [List.concat_eq_append] at h ⊢
    rw [setLastBlockSize_concat]
    rw [List.isChain_append] at h ⊢
    refine ⟨h.1, List.isChain_singleton _, fun a ha b hb => ?_⟩
    cases hb
    exact hR a p (h.2.2 a ha p rfl)

theorem isChain_addBlock {b : GzipBlock} (hR : ∀ a b, R a b → R a (sized b uoff coff))
    (h : mBlocks.IsChain R) (hlast : ∀ p ∈ mBlocks.getLast?, R (sized p uoff coff) b) :
    (addBlock mBlocks uoff coff b).IsChain R := by
  rw [addBlock, List.isChain_append]
  refine ⟨isChain_setLastBlockSize hR h, List.isChain_singleton _, fun a ha b' hb => ?_⟩
  cases hb
  obtain rfl | ⟨bs, p, rfl⟩ := List.eq_nil_or_concat mBlocks
  · cases ha
  · rw [List.concat_eq_append] at hlast ha
    rw [setLastBlockSize_concat, List.getLast?_concat] at ha
    cases ha
    exact hlast p (List.getLast?_concat)

theorem getLast?_addBlock (mBlocks : List GzipBlock) (uoff coff : Nat) (b : GzipBlock) :
    (addBlock mBlocks uoff coff b).getLast? = some b := List.getLast?_concat

/-- Filling in the size up to `uoff` makes a block follow on to one at `uoff`. -/
theorem follows_sized (coff : Nat) {p b : GzipBlock} (hle : p.block.uoff.toNat ≤ uoff)
    (hlt : uoff < 2 ^ 64) (hb : b.block.uoff = UInt64.ofNat uoff) :
    Follows (sized p uoff coff).block b.block := by
  have hnat : (UInt64.ofNat uoff).toNat = uoff := by
    rw [UInt64.toNat_ofNat', Nat.mod_eq_of_lt hlt]
  refine ⟨by rwa [hb, hnat], ?_⟩
  have hsub : (UInt64.ofNat uoff - p.block.uoff).toNat = uoff - p.block.uoff.toNat := by
    rw [UInt64.toNat_sub_of_le _ _ (by rw [UInt64.le_iff_toNat_le, hnat]; exact hle), hnat]
  rw [hb, hnat, ← UInt32.toNat_inj]
  simp only [sized]
  rw [UInt64.toNat_toUInt32, hsub, UInt32.toNat_ofNat']

end Lists

section Runs

variable {z : Zlib} {wild : Reader z → UInt8} {mPath : String} {minBlock : Nat}
  {s s' : Indexing z} {fh g g' : FileHandle} {mBlocks : List GzipBlock}

/-- The sizes are the differences to the block behind. -/
def SizedTo (a b : GzipBlock) : Prop :=
  a.block.usize = (b.block.uoff - a.block.uoff).toUInt32 ∧
    a.block.csize = (b.block.coff - a.block.coff).toUInt32

theorem SizedTo.sized {a b : GzipBlock} {uoff coff : Nat} (h : SizedTo a b) :
    SizedTo a (sized b uoff coff) := h

/-- Recording a block fills in the sizes of the one before it. -/
theorem isChain_record {uoff coff : Nat} {b : GzipBlock} (h : mBlocks.IsChain SizedTo)
    (huoff : b.block.uoff = UInt64.ofNat uoff) (hcoff : b.block.coff = UInt64.ofNat coff) :
    (addBlock mBlocks uoff coff b).IsChain SizedTo := by
  apply isChain_addBlock (fun _ _ hab => SizedTo.sized hab) h
  intro p _
  rw [SizedTo, huoff, hcoff]
  exact ⟨rfl, rfl⟩

theorem isChain_settled (h : s.mBlocks.IsChain SizedTo) : s.settled.mBlocks.IsChain SizedTo := by
  rw [Indexing.settled]
  split
  · exact isChain_record h rfl rfl
  · exact h

theorem isChain_goesBack {saved : Reader z} {err : Ret} {ipos : Nat}
    (h : s.mBlocks.IsChain SizedTo) (hback : GoesBack minBlock s err saved ipos s') :
    s'.mBlocks.IsChain SizedTo := by
  cases hback with
  | accepted => exact isChain_record h rfl rfl
  | empty => exact h
  | failed => exact h
  | failedDict => exact isChain_record h rfl rfl

/-- A turn keeps the sizes, and so does filling in those of the last block. -/
theorem isChain_turn (h : s.mBlocks.IsChain SizedTo) (hin : InStep fh s g) {t : Turn z}
    (hrun : (turn mPath minBlock s).run g = .ok (t, g')) :
    (∀ s', t = .again s' → s'.mBlocks.IsChain SizedTo) ∧
      (∀ s', t = .examine s' → s'.mBlocks.IsChain SizedTo) ∧
      ∀ bs, t = .done bs → bs.IsChain SizedTo := by
  obtain ⟨rd, g₁, hfed, hstep, hcomes⟩ := hin.comes hrun
  have hsame : (s.stepped rd.inflate.1).mBlocks.IsChain SizedTo := h
  cases hcomes with
  | goesOn => exact ⟨fun s' hs => by cases hs; exact h, nofun, nofun⟩
  | passed => exact ⟨fun s' hs => by cases hs; exact h, nofun, nofun⟩
  | goesBack hindep hsave hback =>
      refine ⟨fun s' hs => ?_, nofun, nofun⟩
      cases hs
      exact isChain_goesBack hsame hback
  | reached =>
      refine ⟨nofun, fun s' hs => ?_, nofun⟩
      cases hs
      exact isChain_settled hsame
  | ended =>
      refine ⟨nofun, fun s' hs => ?_, nofun⟩
      cases hs
      exact isChain_settled hsame
  | finished =>
      refine ⟨nofun, nofun, fun bs hs => ?_⟩
      cases hs
      exact isChain_setLastBlockSize (fun _ _ hab => SizedTo.sized hab) (isChain_settled hsame)

theorem indexes_sized (h : Indexes wild mPath minBlock fh s g) : s.mBlocks.IsChain SizedTo := by
  have hstart : Indexes wild mPath minBlock fh (start z [] fh).1 (start z [] fh).2 :=
    Relation.ReflTransGen.refl
  refine (Reaches.invariant (P := fun p => Indexes wild mPath minBlock fh p.1 p.2 ∧
    p.1.mBlocks.IsChain SizedTo) h ⟨hstart, .nil⟩ ?_).2
  rintro ⟨s, g⟩ ⟨s', g'⟩ ⟨hs, hchain⟩ hpass
  refine ⟨hs.tail hpass, ?_⟩
  have hin := indexes_inStep hs
  obtain hrun | ⟨s₀, hrun, rfl⟩ := (pass_again wild).mp (onFile_again.mp hpass)
  · exact (isChain_turn hchain hin hrun).1 _ rfl
  · exact (isChain_turn hchain hin hrun).2.1 s₀ rfl

/-- In what `buildIndex` returns the sizes are differences. -/
theorem buildIndex_sized {mBlockFactor fuel : Nat} {bs : List GzipBlock}
    (h : buildIndex wild mPath mBlockFactor fuel [] fh = some (.ok bs)) : bs.IsChain SizedTo := by
  obtain ⟨s, g, g', hs, hrun⟩ := buildIndex_ok wild h
  exact (isChain_turn (indexes_sized hs) (indexes_inStep hs) hrun).2.2 _ rfl

end Runs

end GzipFile

end Lzopfs
