import Lzopfs.Bzip2Loop
import Lzopfs.OpenCompressedFile
import Mathlib.Data.List.Chain

/-!
# The sizes of blocks

A block keeps its two sizes in 32 bits, but three formats compute them in 64 bits: as
differences of offsets, or from what a library reports. For bzip2 they are those of the first pair
of boundaries that decompresses.
-/

namespace Lzopfs

open Verify FileHandle

/-- The 64-bit numbers that a block is made of. -/
structure Extent where
  uoff : UInt64
  usize : UInt64
  coff : UInt64
  csize : UInt64
  deriving DecidableEq, Repr

namespace Extent

def block (e : Extent) : Block := ⟨e.usize.toUInt32, e.csize.toUInt32, e.uoff, e.coff⟩

def Fits (e : Extent) : Prop := e.usize.toNat < 2 ^ 32 ∧ e.csize.toNat < 2 ^ 32

/-- The block keeps the sizes. -/
def Kept (e : Extent) (b : Block) : Prop :=
  b.usize.toUInt64 = e.usize ∧ b.csize.toUInt64 = e.csize

end Extent

/-- In 64 bits each block ends where the next one starts. -/
def Adjoining (es : List Extent) : Prop := es.IsChain fun a b => a.uoff + a.usize = b.uoff

namespace Bzip2File

/-- The numbers of the block between two boundaries. -/
def extent (i j : BlockBoundary) (uoff usize : Nat) : Extent :=
  ⟨UInt64.ofNat uoff, UInt64.ofNat usize, UInt64.ofNat i.coff, UInt64.ofNat (j.coff - i.coff)⟩

/-- A pair of places that is not decompressed. -/
def Rejected (bz : Bzlib) (fh : FileHandle) (i j : Place) (level : UInt8) : Prop :=
  ∃ b aligned, Aligned fh b level i j aligned ∧ ¬ ∃ out, bz.decompress aligned = .ok out

/-- A candidate decompresses to `out` together with one behind it, and with none in between. -/
structure FirstPair (bz : Bzlib) (fh : FileHandle) (cands : List BlockBoundary)
    (i j : BlockBoundary) (level : UInt8) (out : Buffer) : Prop where
  listed : ∃ front between back, cands = front ++ i :: (between ++ j :: back) ∧
    ∀ k ∈ between, Rejected bz fh (triple i) (triple k) level
  out : Decompressed bz fh (triple i) (triple j) level out

/-- Records of pairs that were decompressed, with the numbers they are made of. -/
inductive Built (bz : Bzlib) (fh : FileHandle) (cands : List BlockBoundary) :
    Nat → List Extent → List Bzip2Block → Prop where
  | nil (uoff : Nat) : Built bz fh cands uoff [] []
  | cons {uoff : Nat} {i j : BlockBoundary} {level : UInt8} {out : Buffer} {es : List Extent}
      {mBlocks : List Bzip2Block} (hpair : FirstPair bz fh cands i j level out)
      (htl : Built bz fh cands (uoff + out.length) es mBlocks) :
      Built bz fh cands uoff (extent i j uoff out.length :: es)
        (newBlock i j uoff out.length level :: mBlocks)

variable {bz : Bzlib} {fh : FileHandle} {cands : List BlockBoundary} {uoff : Nat}
  {es : List Extent} {mBlocks : List Bzip2Block}

theorem extent_block (i j : BlockBoundary) (uoff usize : Nat) (level : UInt8) :
    (extent i j uoff usize).block = (newBlock i j uoff usize level).block := by
  have hnarrow : ∀ n, (UInt64.ofNat n).toUInt32 = UInt32.ofNat n := by
    intro n
    rw [← UInt32.toNat_inj, UInt64.toNat_toUInt32, UInt64.toNat_ofNat', UInt32.toNat_ofNat']
    exact Nat.mod_mod_of_dvd n (Nat.pow_dvd_pow 2 (by decide))
  rw [extent, Extent.block, newBlock, hnarrow, hnarrow]

theorem Built.map_block (h : Built bz fh cands uoff es mBlocks) :
    mBlocks.map Bzip2Block.block = es.map Extent.block := by
  induction h with
  | nil => rfl
  | cons hpair htl ih => rw [List.map_cons, List.map_cons, ih, extent_block]

theorem Built.adjoining (h : Built bz fh cands uoff es mBlocks) : Adjoining es := by
  induction h with
  | nil => exact .nil
  | cons hpair htl ih =>
      apply List.isChain_cons.mpr
      refine ⟨?_, ih⟩
      intro e he
      cases htl with
      | nil => cases he
      | cons =>
          cases he
          exact (UInt64.ofNat_add _ _).symm

/-- What the loop adds to the list are first pairs. `between` has been tried with `i` in vain. -/
theorem buildIndexLoop_built {bl front between : List BlockBoundary} {i : BlockBoundary}
    {level : UInt8} {b : Buffer} {acc : List Bzip2Block}
    (hcands : cands = front ++ i :: (between ++ bl))
    (hrejected : ∀ k ∈ between, Rejected bz fh (triple i) (triple k) (levelFor level i))
    (h : buildIndexLoop bz fh bl i level uoff b acc = .ok (some mBlocks)) :
    ∃ es found, mBlocks = acc ++ found ∧ Built bz fh cands uoff es found := by
  induction bl generalizing front between i level uoff b acc with
  | nil =>
      cases h
      exact ⟨[], [], (List.append_nil _).symm, .nil uoff⟩
  | cons j bl ih =>
      have hnext : cands = (front ++ i :: between) ++ j :: ([] ++ bl) := by
        rw [hcands, List.append_assoc]
        rfl
      by_cases hi : i.magic = EOSMagic
      · rw [loop_eos hi] at h
        exact ih hnext (by simp) h
      · rw [buildIndexLoop, if_neg hi] at h
        dsimp only at h
        split at h
        · cases h
        · cases h
        · rename_i aligned hcreate
          have haligned : Aligned fh b (levelFor level i) (triple i) (triple j) aligned := hcreate
          split at h
          · rename_i e hout
            have hmore : cands = front ++ i :: ((between ++ [j]) ++ bl) := by
              rw [hcands, List.append_assoc]
              rfl
            refine ih hmore ?_ h
            intro k hk
            show Rejected bz fh _ _ (levelFor (levelFor level i) i)
            rw [levelFor_levelFor]
            obtain hk | hk := List.mem_append.mp hk
            · exact hrejected k hk
            · rw [List.mem_singleton.mp hk]
              refine ⟨b, aligned, haligned, ?_⟩
              rintro ⟨out, hok⟩
              rw [hout] at hok
              cases hok
          · rename_i out hout
            obtain ⟨es, found, rfl, hbuilt⟩ := ih hnext (by simp) h
            refine ⟨_, newBlock i j uoff out.length (levelFor level i) :: found, ?_,
              .cons ⟨⟨front, between, bl, hcands, hrejected⟩, b, aligned, haligned, hout⟩ hbuilt⟩
            rw [List.append_assoc]
            rfl

/-- What `buildIndex` finds are first pairs of the candidates. -/
theorem exists_built {before : Nat → UInt8} {fuel : Nat}
    (h : buildIndex bz before fuel [] fh = some (.ok mBlocks)) :
    ∃ bl g es, (findBlockBoundaryCandidates before).run fh = .ok (bl, g) ∧
      Built bz fh bl 0 es mBlocks := by
  rw [buildIndex] at h
  cases hcands : (findBlockBoundaryCandidates before).run fh with
  | error e =>
      rw [hcands] at h
      cases h
  | ok p =>
      obtain ⟨bl, g⟩ := p
      rw [hcands] at h
      cases bl with
      | nil => cases h
      | cons i bl =>
          dsimp only at h
          split at h
          · cases h
          · cases h
          · rename_i hloop
            cases h
            have hfirst : i :: bl = [] ++ i :: ([] ++ bl) := rfl
            obtain ⟨es, found, rfl, hbuilt⟩ := buildIndexLoop_built hfirst (by simp) hloop
            exact ⟨i :: bl, g, es, rfl, hbuilt⟩

/-- The numbers of first pairs that are not too large fit. -/
theorem Built.fits (h : Built bz fh cands uoff es mBlocks)
    (hbounded : ∀ i j level out, FirstPair bz fh cands i j level out →
      out.length < 2 ^ 32 ∧ j.coff - i.coff < 2 ^ 32) : ∀ e ∈ es, e.Fits := by
  have hfits : ∀ n : Nat, n < 2 ^ 32 → (UInt64.ofNat n).toNat < 2 ^ 32 := by
    intro n hn
    rw [UInt64.toNat_ofNat_of_lt' (Nat.lt_trans hn (by decide))]
    exact hn
  induction h with
  | nil => exact fun _ he => absurd he List.not_mem_nil
  | cons hpair htl ih =>
      obtain ⟨husize, hcsize⟩ := hbounded _ _ _ _ hpair
      exact List.forall_mem_cons.mpr ⟨⟨hfits _ husize, hfits _ hcsize⟩, ih⟩

end Bzip2File

end Lzopfs
