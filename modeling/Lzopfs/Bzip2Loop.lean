import Lzopfs.Bzip2Align
import Lzopfs.Bzip2Scan

/-!
# The loop over the boundaries

The loop of `buildIndex` keeps a boundary and tries what is behind it until a pair decompresses.
The search may list a place twice. What is between a block's boundary and itself may then be
taken for a block, or the end of the file.
-/

namespace Lzopfs

open Verify FileHandle

namespace Bzip2File

/-- A magic number and where it starts: so many bits in front of a byte. -/
abbrev Place := UInt64 × Nat × Fin 8

/-- The bit at which a magic number starts. -/
def bitPos (t : Place) : Nat := 8 * t.2.1 - t.2.2.val

def BlockBoundary.pos (c : BlockBoundary) : Nat := bitPos (triple c)

/-- The boundaries of a stream: one for each block, and the end of the stream. -/
structure StreamBounds where
  level : UInt8
  blocks : List Place
  eos : Place
  digit : 0x31 ≤ level ∧ level ≤ 0x39
  blocks_magic : ∀ t ∈ blocks, t.1 = BlockMagic
  eos_magic : eos.1 = EOSMagic

def StreamBounds.bounds (s : StreamBounds) : List Place := s.blocks ++ [s.eos]

def trueBounds (streams : List StreamBounds) : List Place := streams.flatMap StreamBounds.bounds

/-- Candidates for a file of these streams, in the order of the file. The same place may be
listed more than once, but not behind the last stream. -/
structure Sighted (fh : FileHandle) (streams : List StreamBounds) (cands : List BlockBoundary) :
    Prop where
  inFile : ∀ c ∈ cands, c.bits.val ≤ 8 * c.coff ∧ c.coff < fh.data.length
  ordered : cands.Pairwise fun c d => c.pos ≤ d.pos
  same : ∀ c ∈ cands, ∀ d ∈ cands, c.pos = d.pos → triple c = triple d
  inOrder : (trueBounds streams).Pairwise fun a b => bitPos a < bitPos b
  contains : ∀ t ∈ trueBounds streams, ∃ c ∈ cands, triple c = t
  noneBetween : ∀ front s s' back, streams = front ++ s :: s' :: back →
    ∀ c ∈ cands, bitPos s.eos < c.pos → ∀ d, s'.bounds.head? = some d → bitPos d ≤ c.pos
  firstLevel : ∀ s ∈ streams, ∀ c ∈ cands, s.bounds.head? = some (triple c) → c.level = s.level
  onceBehind : ∀ i j, List.Sublist [i, j] cands → (∀ t ∈ trueBounds streams, bitPos t < i.pos) →
    triple i ≠ triple j

/-- Neighbouring boundaries of a stream of that level. -/
def Consecutive (streams : List StreamBounds) (i j : Place) (level : UInt8) : Prop :=
  ∃ s ∈ streams, s.level = level ∧ ∃ front back, s.bounds = front ++ i :: j :: back

/-- The buffer made of a pair of places. -/
def Aligned (fh : FileHandle) (b : Buffer) (level : UInt8) (i j : Place) (aligned : Buffer) :
    Prop :=
  createAlignedBlock fh b level i.2.1 i.2.2 j.2.1 j.2.2 = .ok (some aligned)

/-- A block decompresses under the level of its stream; what starts with a boundary and ends in
front of the next one does not, whatever the level. Nothing is assumed of other levels for a
block, of what goes on behind a boundary, and of one place taken for both ends. -/
structure Separates (bz : Bzlib) (fh : FileHandle) (streams : List StreamBounds)
    (cands : List BlockBoundary) : Prop where
  own : ∀ i j level b aligned, List.Sublist [i, j] cands →
    Consecutive streams (triple i) (triple j) level →
      Aligned fh b level (triple i) (triple j) aligned → ∃ out, bz.decompress aligned = .ok out
  other : ∀ i j level b aligned out, List.Sublist [i, j] cands →
    (∀ t ∈ trueBounds streams, i.pos < bitPos t → j.pos ≤ bitPos t) →
      Aligned fh b level (triple i) (triple j) aligned → bz.decompress aligned = .ok out →
        (∃ level, Consecutive streams (triple i) (triple j) level) ∨ triple i = triple j

/-- `out` is what a buffer made of the pair decompresses to. -/
def Decompressed (bz : Bzlib) (fh : FileHandle) (i j : Place) (level : UInt8)
    (out : Buffer) : Prop :=
  ∃ b aligned, Aligned fh b level i j aligned ∧ bz.decompress aligned = .ok out

/-- A boundary at a place. What a record takes from it is where it is. -/
def boundaryAt (t : Place) : BlockBoundary := ⟨t.1, 0, t.2.1, t.2.2⟩

/-- Neighbours in a list of boundaries, with the level of their stream. -/
def pairs (level : UInt8) : List Place → List (Place × Place × UInt8)
  | i :: j :: l => (i, j, level) :: pairs level (j :: l)
  | _ => []

def truePairs (streams : List StreamBounds) : List (Place × Place × UInt8) :=
  streams.flatMap fun s => pairs s.level s.bounds

/-- One record for each pair. Where a block's boundary is listed twice, there may be a record of
what is between, with the level of the stream. -/
inductive Recorded (bz : Bzlib) (fh : FileHandle) (streams : List StreamBounds)
    (cands : List BlockBoundary) : Nat → List (Place × Place × UInt8) → List Bzip2Block → Prop
  | nil {uoff : Nat} : Recorded bz fh streams cands uoff [] []
  | pair {uoff : Nat} {i j : Place} {level : UInt8} {ps : List (Place × Place × UInt8)}
      {out : Buffer} {tl : List Bzip2Block} (hout : Decompressed bz fh i j level out)
      (htl : Recorded bz fh streams cands (uoff + out.length) ps tl) :
      Recorded bz fh streams cands uoff ((i, j, level) :: ps)
        (newBlock (boundaryAt i) (boundaryAt j) uoff out.length level :: tl)
  | twice {uoff : Nat} {s : StreamBounds} {i j : BlockBoundary} {ps : List (Place × Place × UInt8)}
      {out : Buffer} {tl : List Bzip2Block} (hs : s ∈ streams) (hblock : triple i ∈ s.blocks)
      (hlisted : List.Sublist [i, j] cands) (hsame : triple i = triple j)
      (hout : Decompressed bz fh (triple i) (triple j) s.level out)
      (htl : Recorded bz fh streams cands (uoff + out.length) ps tl) :
      Recorded bz fh streams cands uoff ps
        (newBlock (boundaryAt (triple i)) (boundaryAt (triple j)) uoff out.length s.level :: tl)

/-- A block's boundary at a byte border is listed twice. Nothing is between the two, and reading
nothing is taken for the end of the file. -/
def TwiceAligned (streams : List StreamBounds) (cands : List BlockBoundary) : Prop :=
  ∃ i j, List.Sublist [i, j] cands ∧ triple i = triple j ∧ i.bits = 0 ∧
    ∃ s ∈ streams, triple i ∈ s.blocks

/-- The level can be taken for the first stream that has a block. -/
def LevelFits (level : UInt8) : List StreamBounds → Prop
  | [] => True
  | s :: later => if s.blocks = [] then LevelFits level later else level = 0 ∨ level = s.level

section Steps

variable {bz : Bzlib} {fh : FileHandle} {i j : BlockBoundary} {bl : List BlockBoundary}
  {level : UInt8} {uoff : Nat} {b aligned out : Buffer} {mBlocks : List Bzip2Block} {e : Exn}

/-- The level a block is decompressed with. -/
def levelFor (level : UInt8) (i : BlockBoundary) : UInt8 := if level = 0 then i.level else level

theorem levelFor_levelFor (level : UInt8) (i : BlockBoundary) :
    levelFor (levelFor level i) i = levelFor level i := by
  by_cases hzero : level = 0
  · rw [levelFor, levelFor, if_pos hzero]
    split <;> rfl
  · rw [levelFor, levelFor, if_neg hzero, if_neg hzero]

theorem loop_eos (hi : i.magic = EOSMagic) :
    buildIndexLoop bz fh (j :: bl) i level uoff b mBlocks =
      buildIndexLoop bz fh bl j level uoff b mBlocks := by
  rw [buildIndexLoop, if_pos hi]

theorem loop_accept (hi : i.magic ≠ EOSMagic)
    (hcreate : Aligned fh b (levelFor level i) (triple i) (triple j) aligned)
    (hok : bz.decompress aligned = .ok out) :
    buildIndexLoop bz fh (j :: bl) i level uoff b mBlocks =
      buildIndexLoop bz fh bl j (if j.magic = EOSMagic then 0 else levelFor level i)
        (uoff + out.length) aligned
        (mBlocks ++ [newBlock (boundaryAt (triple i)) (boundaryAt (triple j)) uoff out.length
          (levelFor level i)]) := by
  rw [Aligned, levelFor, triple, triple] at hcreate
  rw [buildIndexLoop, if_neg hi]
  simp only [hcreate, hok]
  rfl

theorem loop_reject (hi : i.magic ≠ EOSMagic)
    (hcreate : Aligned fh b (levelFor level i) (triple i) (triple j) aligned)
    (herror : ¬ ∃ out, bz.decompress aligned = .ok out) :
    buildIndexLoop bz fh (j :: bl) i level uoff b mBlocks =
      buildIndexLoop bz fh bl i (levelFor level i) uoff aligned mBlocks := by
  rw [Aligned, levelFor, triple, triple] at hcreate
  rw [buildIndexLoop, if_neg hi]
  simp only [hcreate]
  cases hrun : bz.decompress aligned with
  | ok out => exact absurd ⟨out, hrun⟩ herror
  | error e => rfl

theorem loop_throw (hi : i.magic ≠ EOSMagic)
    (hcreate : createAlignedBlock fh b (levelFor level i) i.coff i.bits j.coff j.bits = .error e) :
    buildIndexLoop bz fh (j :: bl) i level uoff b mBlocks = .error e := by
  rw [levelFor] at hcreate
  rw [buildIndexLoop, if_neg hi]
  simp only [hcreate]

/-- A place at a byte border, taken for both ends of a block. -/
theorem createAlignedBlock_eof (fh : FileHandle) (b : Buffer) (level : UInt8) (coff : Nat) :
    createAlignedBlock fh b level coff 0 coff 0 = .error (.eof fh.path) := by
  have hread : fh.tryPReadAt ((coff : Int) - (0 : Nat)) (coff - coff + 0) =
      .error (.eof fh.path) := by
    rw [tryPReadAt_sub fh (Nat.zero_le _), Nat.sub_self, tryPRead, List.take_zero]
    rfl
  rw [createAlignedBlock, if_neg (by decide), hread]
  rfl

end Steps

section Streams

variable {streams : List StreamBounds} {s : StreamBounds} {i j t x : Place}
  {front back X Y : List Place}

theorem StreamBounds.level_ne_zero (s : StreamBounds) : s.level ≠ 0 := by
  intro hzero
  have hdigit := s.digit.1
  rw [hzero] at hdigit
  exact absurd hdigit (by decide)

theorem StreamBounds.bounds_ne_nil (s : StreamBounds) : s.bounds ≠ [] :=
  List.concat_ne_nil _ _

/-- What is in front of the last boundary of a stream is a block. -/
theorem StreamBounds.mem_blocks (h : s.bounds = front ++ i :: j :: back) : i ∈ s.blocks := by
  have hinit := congrArg List.dropLast h
  rw [StreamBounds.bounds, List.dropLast_concat, List.dropLast_append_of_ne_nil (by simp),
    List.dropLast_cons_of_ne_nil (by simp)] at hinit
  rw [hinit]
  simp

theorem StreamBounds.eq_eos (h : s.bounds = front ++ [i]) : i = s.eos := by
  have hlast := congrArg List.getLast? h
  rw [StreamBounds.bounds, List.getLast?_concat, List.getLast?_concat] at hlast
  exact (Option.some.inj hlast).symm

theorem StreamBounds.magic_ne (h : i ∈ s.blocks) : i.1 ≠ EOSMagic := by
  rw [s.blocks_magic i h]
  decide

theorem mem_trueBounds (hs : s ∈ streams) (h : i ∈ s.bounds) : i ∈ trueBounds streams :=
  List.mem_flatMap.mpr ⟨s, hs, h⟩

theorem StreamBounds.block_mem (h : i ∈ s.blocks) : i ∈ s.bounds :=
  List.mem_append_left _ h

/-- The boundaries of a stream are neighbours among all. -/
theorem trueBounds_split {F B : List StreamBounds} (h : s.bounds = front ++ back) :
    trueBounds (F ++ s :: B) = (trueBounds F ++ front) ++ (back ++ trueBounds B) := by
  rw [trueBounds, List.flatMap_append, List.flatMap_cons, h, List.append_assoc, List.append_assoc]
  rfl

/-- Between two neighbours of a list in order there is nothing. -/
theorem le_of_adjacent {l : List Place} (horder : l.Pairwise fun a b => bitPos a < bitPos b)
    (hl : l = X ++ i :: t :: Y) (hx : x ∈ l) (hlt : bitPos i < bitPos x) :
    bitPos t ≤ bitPos x := by
  rw [hl] at horder hx
  obtain ⟨-, htail, hcross⟩ := List.pairwise_append.mp horder
  obtain ⟨-, htail⟩ := List.pairwise_cons.mp htail
  obtain hX | hrest := List.mem_append.mp hx
  · have hback := hcross x hX i List.mem_cons_self
    exact absurd hlt (Nat.lt_asymm hback)
  · obtain rfl | hrest := List.mem_cons.mp hrest
    · exact absurd hlt (Nat.lt_irrefl _)
    · obtain rfl | hrest := List.mem_cons.mp hrest
      · exact Nat.le_refl _
      · exact Nat.le_of_lt ((List.pairwise_cons.mp htail).1 x hrest)

/-- Places in order are told apart by their bits. -/
theorem eq_of_bitPos {l : List Place} (horder : l.Pairwise fun a b => bitPos a < bitPos b)
    (hi : i ∈ l) (hj : j ∈ l) (h : bitPos i = bitPos j) : i = j := by
  apply List.inj_on_of_nodup_map (f := bitPos) _ hi hj h
  exact List.pairwise_map.mpr (horder.imp fun hlt => Nat.ne_of_lt hlt)

theorem Consecutive.mem {level : UInt8} (h : Consecutive streams i j level) :
    i ∈ trueBounds streams ∧ j ∈ trueBounds streams := by
  obtain ⟨s, hs, -, front, back, hbounds⟩ := h
  constructor <;> apply mem_trueBounds hs <;> rw [hbounds] <;> simp

/-- A boundary that has a next one in its stream has no other. -/
theorem Consecutive.next (horder : (trueBounds streams).Pairwise fun a b => bitPos a < bitPos b)
    {level level' : UInt8} (h : Consecutive streams i j level)
    (h' : Consecutive streams i t level') : j = t := by
  obtain ⟨hi, hj⟩ := h.mem
  obtain ⟨-, ht⟩ := h'.mem
  have hle : ∀ {j t : Place} {level : UInt8}, Consecutive streams i j level →
      t ∈ trueBounds streams → bitPos i < bitPos t → bitPos j ≤ bitPos t := by
    rintro j t level ⟨s, hs, -, front, back, hbounds⟩ ht hlt
    obtain ⟨F, B, rfl⟩ := List.append_of_mem hs
    exact le_of_adjacent horder (trueBounds_split hbounds) ht hlt
  have hlt : ∀ {j : Place} {level : UInt8}, Consecutive streams i j level →
      bitPos i < bitPos j := by
    rintro j level ⟨s, hs, -, front, back, hbounds⟩
    obtain ⟨F, B, rfl⟩ := List.append_of_mem hs
    rw [trueBounds_split hbounds] at horder
    obtain ⟨-, htail, -⟩ := List.pairwise_append.mp horder
    exact (List.pairwise_cons.mp htail).1 j List.mem_cons_self
  exact eq_of_bitPos horder hj ht (Nat.le_antisymm (hle h ht (hlt h')) (hle h' hj (hlt h)))

theorem mem_pairs (i j : Place) (level : UInt8) (front back : List Place) :
    (i, j, level) ∈ pairs level (front ++ i :: j :: back) := by
  induction front with
  | nil => exact List.mem_cons_self
  | cons a front ih =>
      obtain ⟨c, tl, htl⟩ : ∃ c tl, front ++ i :: j :: back = c :: tl :=
        List.exists_cons_of_ne_nil (by simp)
      rw [htl] at ih
      rw [List.cons_append, htl]
      exact List.mem_cons_of_mem _ ih

theorem mem_truePairs {level : UInt8} (h : Consecutive streams i j level) :
    (i, j, level) ∈ truePairs streams := by
  obtain ⟨s, hs, rfl, front, back, hbounds⟩ := h
  apply List.mem_flatMap.mpr
  refine ⟨s, hs, ?_⟩
  rw [hbounds]
  exact mem_pairs i j s.level front back

theorem consecutive_of_mem_pairs {l : List Place} {level : UInt8} {p : Place × Place × UInt8}
    (h : p ∈ pairs level l) (hs : s ∈ streams) (hlevel : s.level = level)
    (hbounds : s.bounds = front ++ l) : Consecutive streams p.1 p.2.1 p.2.2 := by
  induction l generalizing front with
  | nil => cases h
  | cons i l ih =>
      cases l with
      | nil => cases h
      | cons j l =>
          obtain rfl | h := List.mem_cons.mp h
          · exact ⟨s, hs, hlevel, front, l, hbounds⟩
          · refine @ih (front ++ [i]) h ?_
            rw [hbounds, List.append_assoc]
            rfl

theorem consecutive_of_mem {p : Place × Place × UInt8} (h : p ∈ truePairs streams) :
    Consecutive streams p.1 p.2.1 p.2.2 := by
  obtain ⟨s, hs, hp⟩ := List.mem_flatMap.mp h
  exact @consecutive_of_mem_pairs streams s [] _ s.level p hp hs rfl rfl

theorem levelFits_zero (later : List StreamBounds) : LevelFits 0 later := by
  induction later with
  | nil => trivial
  | cons s later ih =>
      rw [LevelFits]
      split
      · exact ih
      · exact Or.inl rfl

end Streams

section Runs

variable {bz : Bzlib} {fh : FileHandle} {streams : List StreamBounds} {cands : List BlockBoundary}
  {i j : BlockBoundary} {bl : List BlockBoundary} {level : UInt8}
  {ps : List (Place × Place × UInt8)} {s : StreamBounds}

/-- What the loop comes to from a boundary on: the records of these pairs, or an exception. -/
def Finds (bz : Bzlib) (fh : FileHandle) (streams : List StreamBounds)
    (cands bl : List BlockBoundary) (i : BlockBoundary) (level : UInt8)
    (ps : List (Place × Place × UInt8)) : Prop :=
  ∀ uoff b mBlocks,
    (∃ found, Recorded bz fh streams cands uoff ps found ∧
      buildIndexLoop bz fh bl i level uoff b mBlocks = .ok (some (mBlocks ++ found))) ∨
    (TwiceAligned streams cands ∧
      buildIndexLoop bz fh bl i level uoff b mBlocks = .error (.eof fh.path))

theorem Finds.eos (hi : i.magic = EOSMagic) (h : Finds bz fh streams cands bl j level ps) :
    Finds bz fh streams cands (j :: bl) i level ps := by
  intro uoff b mBlocks
  rw [loop_eos hi]
  exact h uoff b mBlocks

theorem Finds.reject (hi : i.magic ≠ EOSMagic)
    (hcreate : ∀ b, ∃ aligned, Aligned fh b (levelFor level i) (triple i) (triple j) aligned)
    (hnone : ∀ b aligned, Aligned fh b (levelFor level i) (triple i) (triple j) aligned →
      ¬ ∃ out, bz.decompress aligned = .ok out)
    (h : Finds bz fh streams cands bl i (levelFor level i) ps) :
    Finds bz fh streams cands (j :: bl) i level ps := by
  intro uoff b mBlocks
  obtain ⟨aligned, haligned⟩ := hcreate b
  rw [loop_reject hi haligned (hnone b aligned haligned)]
  exact h uoff aligned mBlocks

theorem Finds.accept (hi : i.magic ≠ EOSMagic)
    (hcreate : ∀ b, ∃ aligned, Aligned fh b (levelFor level i) (triple i) (triple j) aligned)
    (hok : ∀ b aligned, Aligned fh b (levelFor level i) (triple i) (triple j) aligned →
      ∃ out, bz.decompress aligned = .ok out)
    (h : Finds bz fh streams cands bl j (if j.magic = EOSMagic then 0 else levelFor level i) ps) :
    Finds bz fh streams cands (j :: bl) i level
      ((triple i, triple j, levelFor level i) :: ps) := by
  intro uoff b mBlocks
  obtain ⟨aligned, haligned⟩ := hcreate b
  obtain ⟨out, hout⟩ := hok b aligned haligned
  rw [loop_accept hi haligned hout]
  rcases h (uoff + out.length) aligned (mBlocks ++ [newBlock (boundaryAt (triple i))
    (boundaryAt (triple j)) uoff out.length (levelFor level i)]) with
    ⟨found, hfound, hloop⟩ | herror
  · refine .inl ⟨_ :: found, .pair ⟨b, aligned, haligned, hout⟩ hfound, ?_⟩
    rw [hloop, List.append_assoc]
    rfl
  · exact .inr herror

theorem Sighted.exists_aligned (h : Sighted fh streams cands) (hi : i ∈ cands)
    (hread : i.bits ≠ 0 ∨ i.pos < j.pos) (b : Buffer) (level : UInt8) :
    ∃ aligned, Aligned fh b level (triple i) (triple j) aligned := by
  obtain ⟨hstart, hin⟩ := h.inFile i hi
  apply exists_createAlignedBlock fh b level hstart hin
  cases hread with
  | inl hbits => exact .inl fun hzero => hbits (Fin.ext hzero)
  | inr hlt =>
      have hlt' : 8 * i.coff - i.bits.val < 8 * j.coff - j.bits.val := hlt
      show i.bits.val ≠ 0 ∨ i.coff < j.coff
      omega

/-- A block's boundary is listed twice: from both of them on, the same is found. -/
theorem Finds.twice (h : Sighted fh streams cands) (hs : s ∈ streams)
    (hblock : triple i ∈ s.blocks) (hlisted : List.Sublist [i, j] cands)
    (hsame : triple i = triple j) (hlevel : levelFor level i = s.level)
    (hkept : Finds bz fh streams cands bl i s.level ps)
    (hnext : Finds bz fh streams cands bl j s.level ps) :
    Finds bz fh streams cands (j :: bl) i level ps := by
  have hi : i.magic ≠ EOSMagic := StreamBounds.magic_ne hblock
  have hj : j.magic ≠ EOSMagic := by
    rw [hsame] at hblock
    exact StreamBounds.magic_ne hblock
  intro uoff b mBlocks
  by_cases hbits : i.bits = 0
  · refine .inr ⟨⟨i, j, hlisted, hsame, hbits, s, hs, hblock⟩, loop_throw hi ?_⟩
    have hplace : (j.coff, j.bits) = (i.coff, i.bits) := (congrArg Prod.snd hsame).symm
    obtain ⟨hcoff, hjbits⟩ := Prod.mk.inj hplace
    rw [hcoff, hjbits, hbits]
    exact createAlignedBlock_eof fh b _ _
  · obtain ⟨aligned, haligned⟩ :=
      h.exists_aligned (j := j) (hlisted.subset List.mem_cons_self) (.inl hbits) b
        (levelFor level i)
    by_cases hout : ∃ out, bz.decompress aligned = .ok out
    · obtain ⟨out, hout⟩ := hout
      rw [loop_accept hi haligned hout, if_neg hj]
      rw [hlevel] at haligned ⊢
      rcases hnext (uoff + out.length) aligned (mBlocks ++ [newBlock (boundaryAt (triple i))
        (boundaryAt (triple j)) uoff out.length s.level]) with ⟨found, hfound, hloop⟩ | herror
      · refine .inl ⟨_ :: found,
          .twice hs hblock hlisted hsame ⟨b, aligned, haligned, hout⟩ hfound, ?_⟩
        rw [hloop, List.append_assoc]
        rfl
      · exact .inr herror
    · rw [loop_reject hi haligned hout, hlevel]
      exact hkept uoff aligned mBlocks

theorem sublist_pair (hsub : (i :: j :: bl).Sublist cands) : List.Sublist [i, j] cands :=
  List.Sublist.trans (((List.nil_sublist bl).cons_cons j).cons_cons i) hsub

theorem sublist_skip (hsub : (i :: j :: bl).Sublist cands) : (i :: bl).Sublist cands :=
  List.Sublist.trans ((List.sublist_cons_self j bl).cons_cons i) hsub

theorem sublist_next (hsub : (i :: bl).Sublist cands) : bl.Sublist cands :=
  List.Sublist.trans (List.sublist_cons_self i bl) hsub

theorem Sighted.le (h : Sighted fh streams cands) (hsub : (i :: j :: bl).Sublist cands) :
    i.pos ≤ j.pos :=
  (List.pairwise_cons.mp (h.ordered.sublist hsub)).1 j List.mem_cons_self

/-- Behind the last stream nothing is found. -/
theorem finds_tail (h : Sighted fh streams cands) (hsep : Separates bz fh streams cands)
    (hbehind : ∀ t ∈ trueBounds streams, bitPos t < i.pos) (hsub : (i :: bl).Sublist cands) :
    Finds bz fh streams cands bl i level [] := by
  induction bl generalizing i level with
  | nil =>
      intro uoff b mBlocks
      refine .inl ⟨[], .nil, ?_⟩
      rw [List.append_nil]
      rfl
  | cons j bl ih =>
      have hle := h.le hsub
      by_cases hi : i.magic = EOSMagic
      · apply Finds.eos hi
        apply ih _ (sublist_next hsub)
        intro t ht
        exact Nat.lt_of_lt_of_le (hbehind t ht) hle
      · have honce := h.onceBehind i j (sublist_pair hsub) hbehind
        have hlt : i.pos < j.pos := by
          apply Nat.lt_of_le_of_ne hle
          intro heq
          have hj : j ∈ cands := hsub.subset (List.mem_cons_of_mem _ List.mem_cons_self)
          exact honce (h.same i (hsub.subset List.mem_cons_self) j hj heq)
        apply Finds.reject hi
        · exact fun b => h.exists_aligned (hsub.subset List.mem_cons_self) (.inr hlt) b _
        · rintro b aligned haligned ⟨out, hout⟩
          have hnone : ∀ t ∈ trueBounds streams, i.pos < bitPos t → j.pos ≤ bitPos t := by
            intro t ht hgt
            exact absurd (hbehind t ht) (Nat.lt_asymm hgt)
          rcases hsep.other i j _ b aligned out (sublist_pair hsub) hnone haligned hout with
            ⟨level', hcons⟩ | hsame
          · exact absurd (hbehind _ hcons.mem.2) (Nat.not_lt.mpr hle)
          · exact honce hsame
        · exact ih hbehind (sublist_skip hsub)

/-- Where the loop stands, and what is left to find. At a block, the level it is decompressed with
is that of its stream; at the end of a stream, the level can be taken for the next block. -/
inductive Stands (streams : List StreamBounds) :
    BlockBoundary → UInt8 → List (Place × Place × UInt8) → Prop
  | block {F later : List StreamBounds} {s : StreamBounds} {front ts : List Place} {t : Place}
      {i : BlockBoundary} {level : UInt8} (hstreams : streams = F ++ s :: later)
      (hbounds : s.bounds = front ++ triple i :: t :: ts) (hlevel : levelFor level i = s.level) :
      Stands streams i level (pairs s.level (triple i :: t :: ts) ++ truePairs later)
  | eos {F later : List StreamBounds} {s : StreamBounds} {i : BlockBoundary} {level : UInt8}
      (hstreams : streams = F ++ s :: later) (heos : triple i = s.eos)
      (hlevel : LevelFits level later) : Stands streams i level (truePairs later)

/-- At the first boundary of a stream. -/
theorem stands_first {F later : List StreamBounds} (hstreams : streams = F ++ s :: later)
    (hhead : s.bounds.head? = some (triple i)) (hfirst : i.level = s.level)
    (hlevel : LevelFits level (s :: later)) : Stands streams i level (truePairs (s :: later)) := by
  have hpairs : truePairs (s :: later) = pairs s.level s.bounds ++ truePairs later :=
    List.flatMap_cons
  obtain ⟨ts, hbounds⟩ := List.head?_eq_some_iff.mp hhead
  cases ts with
  | nil =>
      have heos : triple i = s.eos := @StreamBounds.eq_eos s (triple i) [] hbounds
      have hempty : s.blocks = [] := by
        have hlen := congrArg List.length hbounds
        rw [StreamBounds.bounds, List.length_append, List.length_singleton,
          List.length_singleton] at hlen
        exact List.eq_nil_of_length_eq_zero (by omega)
      rw [LevelFits, if_pos hempty] at hlevel
      rw [hpairs, hbounds]
      exact .eos hstreams heos hlevel
  | cons t ts =>
      have hblock := @StreamBounds.mem_blocks s (triple i) t [] ts hbounds
      rw [LevelFits, if_neg (List.ne_nil_of_mem hblock)] at hlevel
      rw [hpairs, hbounds]
      refine @Stands.block streams F later s [] ts t i level hstreams hbounds ?_
      rw [levelFor]
      obtain rfl | rfl := hlevel
      · rw [if_pos rfl, hfirst]
      · rw [if_neg s.level_ne_zero]

section Ahead

/-- Every true boundary that is still to come is listed. -/
def Ahead (streams : List StreamBounds) (bl : List BlockBoundary) (i : BlockBoundary) : Prop :=
  ∀ t ∈ trueBounds streams, i.pos < bitPos t → ∃ c ∈ bl, triple c = t

theorem Ahead.next (h : Ahead streams (j :: bl) i) (hle : i.pos ≤ j.pos) :
    Ahead streams bl j := by
  intro t ht hlt
  obtain ⟨c, hc, rfl⟩ := h t ht (Nat.lt_of_le_of_lt hle hlt)
  obtain rfl | hc := List.mem_cons.mp hc
  · exact absurd hlt (Nat.lt_irrefl _)
  · exact ⟨c, hc, rfl⟩

theorem Ahead.skip (h : Ahead streams (j :: bl) i)
    (hspurious : i.pos < j.pos → triple j ∉ trueBounds streams) : Ahead streams bl i := by
  intro t ht hlt
  obtain ⟨c, hc, rfl⟩ := h t ht hlt
  obtain rfl | hc := List.mem_cons.mp hc
  · exact absurd ht (hspurious hlt)
  · exact ⟨c, hc, rfl⟩

end Ahead

/-- What is found at the place of a true boundary is that boundary. -/
theorem Sighted.eq_of_pos (h : Sighted fh streams cands) (hj : j ∈ cands) {t : Place}
    (ht : t ∈ trueBounds streams) (hpos : j.pos = bitPos t) : triple j = t := by
  obtain ⟨c, hc, rfl⟩ := h.contains t ht
  exact h.same j hj c hc hpos

/-- The next true boundary in the list is not in front of the first candidate in it. -/
theorem Ahead.le (h : Sighted fh streams cands) (hahead : Ahead streams (j :: bl) i)
    (hsub : (i :: j :: bl).Sublist cands) {t : Place} (ht : t ∈ trueBounds streams)
    (hlt : i.pos < bitPos t) : j.pos ≤ bitPos t := by
  obtain ⟨c, hc, rfl⟩ := hahead t ht hlt
  obtain rfl | hc := List.mem_cons.mp hc
  · exact Nat.le_refl _
  · exact (List.pairwise_cons.mp (h.ordered.sublist (sublist_next hsub))).1 c hc

section Boundary

variable {F later : List StreamBounds} {front ts : List Place} {t : Place}

/-- The step from a block on: its boundary once more, the next boundary, or a place between. -/
theorem finds_block (h : Sighted fh streams cands) (hsep : Separates bz fh streams cands)
    (hstreams : streams = F ++ s :: later) (hbounds : s.bounds = front ++ triple i :: t :: ts)
    (hlevel : levelFor level i = s.level) (hsub : (i :: j :: bl).Sublist cands)
    (hahead : Ahead streams (j :: bl) i)
    (ih : ∀ {i level ps}, Stands streams i level ps → (i :: bl).Sublist cands →
      Ahead streams bl i → Finds bz fh streams cands bl i level ps) :
    Finds bz fh streams cands (j :: bl) i level
      (pairs s.level (triple i :: t :: ts) ++ truePairs later) := by
  have hs : s ∈ streams := by
    rw [hstreams]
    exact List.mem_append_right _ List.mem_cons_self
  have hj : j ∈ cands := hsub.subset (List.mem_cons_of_mem _ List.mem_cons_self)
  have hblock := StreamBounds.mem_blocks hbounds
  have hi : i.magic ≠ EOSMagic := StreamBounds.magic_ne hblock
  have hkeeps : ∀ {j}, triple i = triple j → Stands streams j s.level
      (pairs s.level (triple i :: t :: ts) ++ truePairs later) := by
    rintro j hsame
    rw [hsame] at hbounds ⊢
    refine .block hstreams hbounds ?_
    rw [levelFor, if_neg s.level_ne_zero]
  have hcons : Consecutive streams (triple i) t s.level := ⟨s, hs, rfl, front, ts, hbounds⟩
  have htrue := trueBounds_split (F := F) (B := later) hbounds
  rw [← hstreams] at htrue
  have horder := h.inOrder
  obtain heq | hlt := Nat.eq_or_lt_of_le (h.le hsub)
  · have hsame := h.same i (hsub.subset List.mem_cons_self) j hj heq
    apply Finds.twice h hs hblock (sublist_pair hsub) hsame hlevel
    · exact ih (hkeeps rfl) (sublist_skip hsub)
        (hahead.skip fun hlt => absurd heq (Nat.ne_of_lt hlt))
    · exact ih (hkeeps hsame) (sublist_next hsub) (hahead.next (Nat.le_of_eq heq))
  · have hcreate := fun b => h.exists_aligned (hsub.subset List.mem_cons_self) (.inr hlt) b
      (levelFor level i)
    by_cases hnext : triple j = t
    · rw [pairs, List.cons_append, ← hlevel, ← hnext]
      apply Finds.accept hi hcreate
      · intro b aligned haligned
        rw [hlevel] at haligned
        rw [← hnext] at hcons
        exact hsep.own i j s.level b aligned (sublist_pair hsub) hcons haligned
      · apply ih _ (sublist_next hsub) (hahead.next (Nat.le_of_lt hlt))
        have hbounds' : s.bounds = (front ++ [triple i]) ++ triple j :: ts := by
          rw [hbounds, hnext, List.append_assoc]
          rfl
        cases ts with
        | nil =>
            have heos := StreamBounds.eq_eos hbounds'
            have hmagic : j.magic = EOSMagic := (congrArg Prod.fst heos).trans s.eos_magic
            rw [if_pos hmagic]
            exact .eos hstreams heos (levelFits_zero later)
        | cons t' ts =>
            have hmagic : j.magic ≠ EOSMagic :=
              StreamBounds.magic_ne (StreamBounds.mem_blocks hbounds')
            rw [if_neg hmagic, hlevel]
            refine .block hstreams hbounds' ?_
            rw [levelFor, if_neg s.level_ne_zero]
    · have ht := hcons.mem.2
      have hit : i.pos < bitPos t := by
        rw [htrue] at horder
        obtain ⟨-, htail, -⟩ := List.pairwise_append.mp horder
        exact (List.pairwise_cons.mp htail).1 t List.mem_cons_self
      have hjt : j.pos < bitPos t := by
        apply Nat.lt_of_le_of_ne (hahead.le h hsub ht hit)
        intro hpos
        exact hnext (h.eq_of_pos hj ht hpos)
      have hle : ∀ x ∈ trueBounds streams, i.pos < bitPos x → bitPos t ≤ bitPos x := by
        intro x hx hix
        exact le_of_adjacent horder htrue hx hix
      apply Finds.reject hi hcreate
      · rintro b aligned haligned ⟨out, hout⟩
        rcases hsep.other i j _ b aligned out (sublist_pair hsub)
          (fun x hx hix => Nat.le_trans (Nat.le_of_lt hjt) (hle x hx hix)) haligned hout with
          ⟨level', hother⟩ | hsame
        · exact hnext (hother.next horder hcons)
        · exact absurd (congrArg bitPos hsame) (Nat.ne_of_lt hlt)
      · rw [hlevel]
        refine ih (hkeeps rfl) (sublist_skip hsub) (hahead.skip fun _ hmem => ?_)
        exact Nat.not_le.mpr hjt (hle (triple j) hmem hlt)

/-- The step from the end of a stream on: the end once more, the first boundary of the next
stream, or a place behind the last one. -/
theorem finds_eos (h : Sighted fh streams cands) (hsep : Separates bz fh streams cands)
    (hstreams : streams = F ++ s :: later) (heos : triple i = s.eos)
    (hlevel : LevelFits level later) (hsub : (i :: j :: bl).Sublist cands)
    (hahead : Ahead streams (j :: bl) i)
    (ih : ∀ {i level ps}, Stands streams i level ps → (i :: bl).Sublist cands →
      Ahead streams bl i → Finds bz fh streams cands bl i level ps) :
    Finds bz fh streams cands (j :: bl) i level (truePairs later) := by
  have hj : j ∈ cands := hsub.subset (List.mem_cons_of_mem _ List.mem_cons_self)
  have hle := h.le hsub
  have hmagic : i.magic = EOSMagic := (congrArg Prod.fst heos).trans s.eos_magic
  apply Finds.eos hmagic
  have hnext := hahead.next hle
  obtain heq | hlt := Nat.eq_or_lt_of_le hle
  · have hsame := h.same i (hsub.subset List.mem_cons_self) j hj heq
    rw [hsame] at heos
    exact ih (.eos hstreams heos hlevel) (sublist_next hsub) hnext
  · have hpos : i.pos = bitPos s.eos := congrArg bitPos heos
    cases later with
    | nil =>
        apply finds_tail h hsep _ (sublist_next hsub)
        intro t ht
        have htrue := trueBounds_split (F := F) (B := []) (rfl : s.bounds = s.blocks ++ [s.eos])
        rw [← hstreams] at htrue
        have horder := h.inOrder
        rw [htrue] at horder ht
        obtain ⟨-, -, hcross⟩ := List.pairwise_append.mp horder
        obtain hfront | hlast := List.mem_append.mp ht
        · have hbefore := hcross t hfront s.eos List.mem_cons_self
          omega
        · rw [List.mem_singleton.mp hlast, ← hpos]
          exact hlt
    | cons s' later =>
        obtain ⟨d, hhead⟩ : ∃ d, s'.bounds.head? = some d :=
          ⟨_, List.head?_eq_some_head s'.bounds_ne_nil⟩
        have hdj := h.noneBetween F s s' later hstreams j hj (hpos ▸ hlt) d hhead
        have hs' : s' ∈ streams := by
          rw [hstreams]
          simp
        have hd : d ∈ trueBounds streams := mem_trueBounds hs' (List.mem_of_head? hhead)
        have hid : i.pos < bitPos d := by
          have htrue := trueBounds_split (F := F) (B := s' :: later)
            (rfl : s.bounds = s.blocks ++ [s.eos])
          rw [← hstreams] at htrue
          have horder := h.inOrder
          rw [htrue] at horder
          obtain ⟨-, htail, -⟩ := List.pairwise_append.mp horder
          rw [hpos]
          apply (List.pairwise_cons.mp htail).1 d
          exact mem_trueBounds List.mem_cons_self (List.mem_of_head? hhead)
        have hjd := h.eq_of_pos hj hd (Nat.le_antisymm (hahead.le h hsub hd hid) hdj)
        rw [← hjd] at hhead
        have hstreams' : streams = (F ++ [s]) ++ s' :: later := by
          rw [hstreams, List.append_assoc]
          rfl
        exact ih (stands_first hstreams' hhead (h.firstLevel s' hs' j hj hhead) hlevel)
          (sublist_next hsub) hnext

end Boundary

/-- From a true boundary on, the loop finds what is left. -/
theorem finds_of_stands (h : Sighted fh streams cands) (hsep : Separates bz fh streams cands)
    (hstands : Stands streams i level ps) (hsub : (i :: bl).Sublist cands)
    (hahead : Ahead streams bl i) : Finds bz fh streams cands bl i level ps := by
  induction bl generalizing i level ps with
  | nil =>
      have hnone : ∀ t ∈ trueBounds streams, ¬ i.pos < bitPos t := by
        intro t ht hlt
        obtain ⟨c, hc, -⟩ := hahead t ht hlt
        cases hc
      have horder := h.inOrder
      cases hstands with
      | @block F later s front ts t i level hstreams hbounds hlevel =>
          have htrue := trueBounds_split (F := F) (B := later) hbounds
          rw [← hstreams] at htrue
          rw [htrue] at horder hnone
          obtain ⟨-, htail, -⟩ := List.pairwise_append.mp horder
          exact absurd ((List.pairwise_cons.mp htail).1 t List.mem_cons_self)
            (hnone t (by simp))
      | @eos F later s i level hstreams heos hlevel =>
          have htrue := trueBounds_split (F := F) (B := later)
            (rfl : s.bounds = s.blocks ++ [s.eos])
          rw [← hstreams, ← heos] at htrue
          cases later with
          | nil =>
              intro uoff b mBlocks
              refine .inl ⟨[], .nil, ?_⟩
              rw [List.append_nil]
              rfl
          | cons s' later =>
              obtain ⟨d, hhead⟩ : ∃ d, s'.bounds.head? = some d :=
                ⟨_, List.head?_eq_some_head s'.bounds_ne_nil⟩
              have hd : d ∈ trueBounds (s' :: later) :=
                mem_trueBounds List.mem_cons_self (List.mem_of_head? hhead)
              rw [htrue] at horder hnone
              obtain ⟨-, htail, -⟩ := List.pairwise_append.mp horder
              exact absurd ((List.pairwise_cons.mp htail).1 d hd)
                (hnone d (List.mem_append_right _ (List.mem_cons_of_mem _ hd)))
  | cons j bl ih =>
      cases hstands with
      | block hstreams hbounds hlevel =>
          exact finds_block h hsep hstreams hbounds hlevel hsub hahead ih
      | eos hstreams heos hlevel =>
          exact finds_eos h hsep hstreams heos hlevel hsub hahead ih

end Runs

end Bzip2File

end Lzopfs
