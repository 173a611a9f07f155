import Lzopfs.Bzip2Loop

/-!
# Pairing the boundaries of blocks

The candidates that a search finds are the boundaries of the blocks of a file and some
places that only look like one. If a block decompresses exactly between two neighbouring
boundaries of one stream, then the index has one record for every block, however many
other candidates there are, as long as the loop starts at a block and with its level.
-/

namespace Lzopfs

open Verify FileHandle BlockListCompFile

namespace Bzip2File

/-- A list of candidates for a file of these streams: all true boundaries and other places. -/
structure Candidates (fh : FileHandle) (streams : List StreamBounds) (cands : List BlockBoundary) :
    Prop where
  inFile : ∀ c ∈ cands, c.bits.val ≤ 8 * c.coff ∧ c.coff < fh.data.length
  increasing : cands.Pairwise fun c d => c.pos < d.pos
  inOrder : (trueBounds streams).Pairwise fun a b => bitPos a < bitPos b
  contains : ∀ t ∈ trueBounds streams, ∃ c ∈ cands, triple c = t
  noneBetween : ∀ front s s' back, streams = front ++ s :: s' :: back →
    ∀ c ∈ cands, bitPos s.eos < c.pos → ∀ d, s'.bounds.head? = some d → bitPos d ≤ c.pos
  firstLevel : ∀ s ∈ streams, ∀ c ∈ cands, s.bounds.head? = some (triple c) → c.level = s.level

/-- Decompressing the buffer made of a pair of candidates succeeds exactly for a block. -/
def Decides (bz : Bzlib) (fh : FileHandle) (streams : List StreamBounds)
    (cands : List BlockBoundary) : Prop :=
  ∀ i j level b aligned, List.Sublist [i, j] cands →
    Aligned fh b level (triple i) (triple j) aligned →
      ((∃ out, bz.decompress aligned = .ok out) ↔ Consecutive streams (triple i) (triple j) level)

/-- One record for each pair, each starting where the ones before it end. -/
def Indexed (bz : Bzlib) (fh : FileHandle) :
    Nat → List (Place × Place × UInt8) → List Bzip2Block → Prop
  | _, [], mBlocks => mBlocks = []
  | uoff, (i, j, level) :: ps, mBlocks =>
      ∃ out tl, Decompressed bz fh i j level out ∧
        mBlocks = newBlock (boundaryAt i) (boundaryAt j) uoff out.length level :: tl ∧
          Indexed bz fh (uoff + out.length) ps tl

section Runs

variable {bz : Bzlib} {fh : FileHandle} {streams : List StreamBounds} {cands : List BlockBoundary}
  {i : BlockBoundary} {bl : List BlockBoundary} {level : UInt8}
  {ps : List (Place × Place × UInt8)} {s : StreamBounds}

/-- Without repetitions there is nothing but the pairs. -/
theorem Recorded.indexed {uoff : Nat} {found : List Bzip2Block}
    (hincreasing : cands.Pairwise fun c d => c.pos < d.pos)
    (h : Recorded bz fh streams cands uoff ps found) : Indexed bz fh uoff ps found := by
  induction h with
  | nil => rfl
  | pair hout htl ih => exact ⟨_, _, hout, rfl, ih⟩
  | @twice uoff s i j ps out tl hs hblock hlisted hsame hout htl ih =>
      have hlt := (List.pairwise_cons.mp (hincreasing.sublist hlisted)).1 j List.mem_cons_self
      exact absurd (congrArg bitPos hsame) (Nat.ne_of_lt hlt)

theorem Candidates.sighted (h : Candidates fh streams cands) : Sighted fh streams cands where
  inFile := h.inFile
  ordered := h.increasing.imp Nat.le_of_lt
  same c hc d hd hpos := by
    have hnodup : (cands.map BlockBoundary.pos).Nodup :=
      List.pairwise_map.mpr (h.increasing.imp Nat.ne_of_lt)
    rw [List.inj_on_of_nodup_map hnodup hc hd hpos]
  inOrder := h.inOrder
  contains := h.contains
  noneBetween := h.noneBetween
  firstLevel := h.firstLevel
  onceBehind i j hlisted _ hsame := by
    have hlt := (List.pairwise_cons.mp (h.increasing.sublist hlisted)).1 j List.mem_cons_self
    exact Nat.ne_of_lt hlt (congrArg bitPos hsame)

theorem Decides.separates (hd : Decides bz fh streams cands) : Separates bz fh streams cands where
  own i j level b aligned hlisted hcons haligned :=
    (hd i j level b aligned hlisted haligned).mpr hcons
  other i j level b aligned out hlisted _ haligned hout :=
    .inl ⟨level, (hd i j level b aligned hlisted haligned).mp ⟨out, hout⟩⟩

/-- No block decompresses to 4 GiB. In fact it holds at most 900000 bytes, of which each run of
five is one of at most 259. -/
def Limited (bz : Bzlib) (fh : FileHandle) (streams : List StreamBounds) : Prop :=
  ∀ i j level out, Consecutive streams i j level → Decompressed bz fh i j level out →
    out.length < 2 ^ 32

/-- Each record starts where the sizes of those before it add up to. -/
theorem Indexed.contiguous {uoff : Nat} {found : List Bzip2Block}
    (hlimit : Limited bz fh streams) (hps : ∀ p ∈ ps, Consecutive streams p.1 p.2.1 p.2.2)
    (h : Indexed bz fh uoff ps found) :
    Contiguous (UInt64.ofNat uoff) (found.map Bzip2Block.block) := by
  induction ps generalizing uoff found with
  | nil =>
      rw [show found = [] from h]
      trivial
  | cons p ps ih =>
      obtain ⟨i, j, level⟩ := p
      obtain ⟨out, tl, hout, rfl, htl⟩ := h
      obtain ⟨hcons, hps⟩ := List.forall_mem_cons.mp hps
      have hlt := hlimit i j level out hcons hout
      have hsize : (UInt32.ofNat out.length).toUInt64 = UInt64.ofNat out.length := by
        rw [← UInt64.toNat_inj, UInt32.toNat_toUInt64, UInt32.toNat_ofNat', UInt64.toNat_ofNat',
          Nat.mod_eq_of_lt hlt, Nat.mod_eq_of_lt (by omega)]
      refine ⟨rfl, ?_⟩
      show Contiguous (UInt64.ofNat uoff + (UInt32.ofNat out.length).toUInt64) _
      rw [hsize, ← UInt64.ofNat_add]
      exact ih hps htl

/-- Where the loop of `buildIndex` has to start: unless no stream has a block, the first candidate
that is not the end of a stream is a block, and the first one of all has no level or that of
this block's stream. -/
def StartsRight (streams : List StreamBounds) (cands : List BlockBoundary) : Prop :=
  truePairs streams = [] ∨
    ∃ i s, cands.find? (fun c => c.magic ≠ EOSMagic) = some i ∧ s ∈ streams ∧
      triple i ∈ s.blocks ∧ ∀ c ∈ cands.head?, c.level = 0 ∨ c.level = s.level

section Start

variable {front : List BlockBoundary} {k : BlockBoundary} {uoff : Nat} {b : Buffer}
  {mBlocks : List Bzip2Block}

/-- Ends of streams in front are passed by. -/
theorem loop_front (hfront : ∀ c ∈ front, c.magic = EOSMagic)
    (hcands : k :: bl = front ++ i :: cands) :
    buildIndexLoop bz fh bl k level uoff b mBlocks =
      buildIndexLoop bz fh cands i level uoff b mBlocks := by
  induction front generalizing k bl with
  | nil =>
      obtain ⟨rfl, rfl⟩ := List.cons.inj hcands
      rfl
  | cons c front ih =>
      obtain ⟨hc, hends⟩ := List.forall_mem_cons.mp hfront
      obtain ⟨rfl, rfl⟩ := List.cons.inj hcands
      obtain ⟨j, bl, hbl⟩ : ∃ j bl, front ++ i :: cands = j :: bl :=
        List.exists_cons_of_ne_nil (by simp)
      show buildIndexLoop bz fh (front ++ i :: cands) k level uoff b mBlocks = _
      rw [hbl, loop_eos hc]
      exact ih hends hbl.symm

/-- Ends of streams only. -/
theorem loop_ends (hall : ∀ c ∈ i :: bl, c.magic = EOSMagic) :
    buildIndexLoop bz fh bl i level uoff b mBlocks = .ok (some mBlocks) := by
  induction bl generalizing i with
  | nil => rfl
  | cons j bl ih =>
      obtain ⟨hi, hall⟩ := List.forall_mem_cons.mp hall
      rw [loop_eos hi]
      exact ih hall

/-- A candidate that pairs with nothing is kept to the end. -/
theorem loop_none (h : Candidates fh streams cands) (hd : Decides bz fh streams cands)
    (hi : i.magic ≠ EOSMagic) (hsub : (i :: bl).Sublist cands)
    (hnone : ∀ j, ¬ Consecutive streams (triple i) j (levelFor level i)) :
    buildIndexLoop bz fh bl i level uoff b mBlocks = .ok (some mBlocks) := by
  induction bl generalizing level b with
  | nil => rfl
  | cons j bl ih =>
      have hlt : i.pos < j.pos :=
        (List.pairwise_cons.mp (h.increasing.sublist hsub)).1 j List.mem_cons_self
      obtain ⟨aligned, haligned⟩ :=
        h.sighted.exists_aligned (hsub.subset List.mem_cons_self) (.inr hlt) b (levelFor level i)
      have herror : ¬ ∃ out, bz.decompress aligned = .ok out := by
        rw [hd i j _ b aligned (sublist_pair hsub) haligned]
        exact hnone _
      rw [loop_reject hi haligned herror]
      apply ih (sublist_skip hsub)
      rw [levelFor_levelFor]
      exact hnone

/-- The first candidate that is not the end of a stream is in front of all blocks. -/
theorem Sighted.le_blocks (h : Sighted fh streams cands) (hcands : cands = front ++ i :: bl)
    (hfront : ∀ c ∈ front, c.magic = EOSMagic) {t : Place} (ht : t ∈ trueBounds streams)
    (hmagic : t.1 ≠ EOSMagic) : i.pos ≤ bitPos t := by
  obtain ⟨c, hc, rfl⟩ := h.contains t ht
  rw [hcands] at hc
  obtain hc | hc := List.mem_append.mp hc
  · exact absurd (hfront c hc) hmagic
  · obtain rfl | hc := List.mem_cons.mp hc
    · exact Nat.le_refl _
    · have hordered := h.ordered
      rw [hcands] at hordered
      exact (List.pairwise_cons.mp (List.pairwise_append.mp hordered).2.1).1 c hc

/-- A block that is first is the first boundary of its stream. -/
theorem Sighted.head_start (h : Sighted fh streams cands) (hcands : cands = front ++ i :: bl)
    (hfront : ∀ c ∈ front, c.magic = EOSMagic) (hs : s ∈ streams) (hblock : triple i ∈ s.blocks) :
    s.bounds.head? = some (triple i) := by
  obtain ⟨F, later, hstreams⟩ := List.append_of_mem hs
  obtain ⟨d, ds, hds⟩ := List.exists_cons_of_ne_nil (List.ne_nil_of_mem hblock)
  have hd : d ∈ s.blocks := by
    rw [hds]
    exact List.mem_cons_self
  have hd' := mem_trueBounds hs (StreamBounds.block_mem hd)
  have hle := h.le_blocks hcands hfront hd' (StreamBounds.magic_ne hd)
  have hge : bitPos d ≤ bitPos (triple i) := by
    rw [hds] at hblock
    obtain heq | htail := List.mem_cons.mp hblock
    · exact Nat.le_of_eq (congrArg bitPos heq.symm)
    · have horder := h.inOrder
      rw [hstreams, trueBounds, List.flatMap_append, List.flatMap_cons, StreamBounds.bounds,
        hds] at horder
      have hin := (List.pairwise_append.mp horder).2.1
      rw [List.cons_append, List.cons_append] at hin
      apply Nat.le_of_lt
      apply (List.pairwise_cons.mp hin).1
      exact List.mem_append_left _ (List.mem_append_left _ htail)
  have heq := eq_of_bitPos h.inOrder hd' (mem_trueBounds hs (StreamBounds.block_mem hblock))
    (Nat.le_antisymm hge hle)
  rw [← heq, StreamBounds.bounds, hds]
  rfl

/-- From a first block on, with a level that can be taken for it, everything is found. -/
theorem stands_start (h : Sighted fh streams cands) (hcands : cands = front ++ i :: bl)
    (hfront : ∀ c ∈ front, c.magic = EOSMagic) (hs : s ∈ streams) (hblock : triple i ∈ s.blocks)
    (hlevel : level = 0 ∨ level = s.level) :
    Stands streams i level (truePairs streams) ∧ Ahead streams bl i := by
  obtain ⟨F, later, hstreams⟩ := List.append_of_mem hs
  have hi : i ∈ cands := by
    rw [hcands]
    exact List.mem_append_right _ List.mem_cons_self
  constructor
  · have hempty : ∀ s' ∈ F, s'.blocks = [] := by
      intro s' hs'
      apply List.eq_nil_iff_forall_not_mem.mpr
      intro t ht
      have hs'' : s' ∈ streams := by
        rw [hstreams]
        exact List.mem_append_left _ hs'
      have hle := h.le_blocks hcands hfront (mem_trueBounds hs'' (StreamBounds.block_mem ht))
        (StreamBounds.magic_ne ht)
      have horder := h.inOrder
      rw [hstreams, trueBounds, List.flatMap_append] at horder
      have hlt := (List.pairwise_append.mp horder).2.2 t
        (mem_trueBounds hs' (StreamBounds.block_mem ht)) (triple i)
        (mem_trueBounds List.mem_cons_self (StreamBounds.block_mem hblock))
      exact Nat.not_lt.mpr hle hlt
    have hpairs : truePairs streams = truePairs (s :: later) := by
      rw [hstreams, truePairs, List.flatMap_append]
      have hnone : F.flatMap (fun s => pairs s.level s.bounds) = [] := by
        apply List.flatMap_eq_nil_iff.mpr
        intro s' hs'
        rw [StreamBounds.bounds, hempty s' hs']
        rfl
      rw [hnone]
      rfl
    have hhead := h.head_start hcands hfront hs hblock
    rw [hpairs]
    apply stands_first hstreams hhead (h.firstLevel s hs i hi hhead)
    rw [LevelFits, if_neg (List.ne_nil_of_mem hblock)]
    exact hlevel
  · intro t ht hlt
    obtain ⟨c, hc, rfl⟩ := h.contains t ht
    have hordered := h.ordered
    rw [hcands] at hc hordered
    obtain hc | hc := List.mem_append.mp hc
    · have hle := (List.pairwise_append.mp hordered).2.2 c hc i List.mem_cons_self
      exact absurd hlt (Nat.not_lt.mpr hle)
    · obtain rfl | hc := List.mem_cons.mp hc
      · exact absurd hlt (Nat.lt_irrefl _)
      · exact ⟨c, hc, rfl⟩

end Start

end Runs

/-- The loop of `buildIndex` adds one record for every block, in order and one behind the other,
exactly if it starts right. -/
theorem buildIndexLoop_pairs (bz : Bzlib) (fh : FileHandle) (streams : List StreamBounds)
    (i : BlockBoundary) (bl : List BlockBoundary) (h : Candidates fh streams (i :: bl))
    (hd : Decides bz fh streams (i :: bl)) (hlimit : Limited bz fh streams) (b : Buffer)
    (mBlocks : List Bzip2Block) :
    (∃ found, Indexed bz fh 0 (truePairs streams) found ∧
        Contiguous 0 (found.map Bzip2Block.block) ∧
        buildIndexLoop bz fh bl i i.level 0 b mBlocks = .ok (some (mBlocks ++ found))) ↔
      StartsRight streams (i :: bl) := by
  have hnil : ∀ {found : List Bzip2Block}, Indexed bz fh 0 (truePairs streams) found →
      (Except.ok (some mBlocks) : Except Exn _) = .ok (some (mBlocks ++ found)) →
        truePairs streams = [] := by
    intro found hindexed hloop
    have hfound : found = [] := by
      have happ := Option.some.inj (Except.ok.inj hloop)
      exact List.append_right_eq_self.mp happ.symm
    cases hps : truePairs streams with
    | nil => rfl
    | cons p ps =>
        obtain ⟨i, j, level⟩ := p
        rw [hps, hfound] at hindexed
        obtain ⟨_, _, -, hcons, -⟩ := hindexed
        cases hcons
  cases hfind : (i :: bl).find? fun c => c.magic ≠ EOSMagic with
  | none =>
      have hall : ∀ c ∈ i :: bl, c.magic = EOSMagic := by
        intro c hc
        simpa using List.find?_eq_none.mp hfind c hc
      rw [loop_ends hall]
      constructor
      · rintro ⟨found, hindexed, -, hloop⟩
        exact .inl (hnil hindexed hloop)
      · rintro (hps | ⟨k, s, hk, -⟩)
        · rw [hps]
          exact ⟨[], rfl, trivial, by rw [List.append_nil]⟩
        · rw [hfind] at hk
          cases hk
  | some k =>
      obtain ⟨hk, front, rest, hcands, hfront⟩ := List.find?_eq_some_iff_append.mp hfind
      have hmagic : k.magic ≠ EOSMagic := by simpa using hk
      have hends : ∀ c ∈ front, c.magic = EOSMagic := by
        intro c hc
        simpa using hfront c hc
      have hsub : (k :: rest).Sublist (i :: bl) := by
        rw [hcands]
        exact List.sublist_append_right _ _
      rw [loop_front hends hcands]
      by_cases hgood : ∃ s ∈ streams, triple k ∈ s.blocks ∧ levelFor i.level k = s.level
      · obtain ⟨s, hs, hblock, hfor⟩ := hgood
        have hlevel : i.level = 0 ∨ i.level = s.level := by
          by_cases hzero : i.level = 0
          · exact .inl hzero
          · rw [levelFor, if_neg hzero] at hfor
            exact .inr hfor
        obtain ⟨hstands, hahead⟩ := stands_start h.sighted hcands hends hs hblock hlevel
        have hright : StartsRight streams (i :: bl) := by
          refine .inr ⟨k, s, hfind, hs, hblock, ?_⟩
          rintro c ⟨rfl⟩
          exact hlevel
        apply iff_of_true _ hright
        rcases finds_of_stands h.sighted hd.separates hstands hsub hahead 0 b mBlocks with
          ⟨found, hrecorded, hloop⟩ | ⟨⟨c, d, hlisted, hsame, -⟩, -⟩
        · have hindexed := hrecorded.indexed h.increasing
          exact ⟨found, hindexed,
            hindexed.contiguous hlimit fun p hp => consecutive_of_mem hp, hloop⟩
        · have hlt := (List.pairwise_cons.mp (h.increasing.sublist hlisted)).1 d
            List.mem_cons_self
          exact absurd (congrArg bitPos hsame) (Nat.ne_of_lt hlt)
      · have hnone : ∀ j, ¬ Consecutive streams (triple k) j (levelFor i.level k) := by
          rintro j ⟨s, hs, hlevel, front, back, hbounds⟩
          exact hgood ⟨s, hs, StreamBounds.mem_blocks hbounds, hlevel.symm⟩
        rw [loop_none h hd hmagic hsub hnone]
        constructor
        · rintro ⟨found, hindexed, -, hloop⟩
          exact .inl (hnil hindexed hloop)
        · rintro (hps | ⟨k', s, hk', hs, hblock, hlevel⟩)
          · rw [hps]
            exact ⟨[], rfl, trivial, by rw [List.append_nil]⟩
          · rw [hfind] at hk'
            cases hk'
            have hhead := h.sighted.head_start hcands hends hs hblock
            have hk := h.firstLevel s hs k (hsub.subset List.mem_cons_self) hhead
            exfalso
            apply hgood
            refine ⟨s, hs, hblock, ?_⟩
            rw [levelFor]
            obtain hzero | hsame := hlevel i rfl
            · rw [if_pos hzero, hk]
            · rw [hsame, if_neg s.level_ne_zero]

section Instance

/-- The bits between two places. -/
def rangeOf (fh : FileHandle) (i j : Place) : List Bool := rangeBits fh i.2.1 i.2.2 j.2.1 j.2.2

/-- The second place is behind the first one, and neither is at the border of the file. -/
def Inside (fh : FileHandle) (i j : Place) : Prop :=
  1 ≤ i.2.1 ∧ 8 * i.2.1 + j.2.2 < 8 * j.2.1 + i.2.2 ∧ 8 * j.2.1 ≤ 8 * fh.data.length + j.2.2

instance (fh : FileHandle) (i j : Place) : Decidable (Inside fh i j) :=
  inferInstanceAs (Decidable (_ ∧ _ ∧ _))

def eosBits : List Bool := toBits (beBytes BlockMagicBytes EOSMagic.toNat)

/-- Two ranges with the magic number of the end behind them, as far as both of them say. -/
def Differ (r r' : List Bool) : Prop :=
  (r ++ eosBits).take (min r.length r'.length + 48) ≠
    (r' ++ eosBits).take (min r.length r'.length + 48)

instance (r r' : List Bool) : Decidable (Differ r r') :=
  inferInstanceAs (Decidable (_ ≠ _))

/-- A decompressor that knows some blocks of a file, with what they decompress to under which
levels. -/
def knowing (fh : FileHandle) (known : List (List UInt8 × Place × Place × Buffer)) : Bzlib where
  decompress b :=
    match known.find? fun k => k.1.any fun level =>
      (oneBlockFile level (rangeOf fh k.2.1 k.2.2.1)).isPrefixOf (toBits b) with
    | some k => .ok k.2.2.2
    | none => .error (.runtime "bzip2 decompress")

variable {fh : FileHandle} {known : List (List UInt8 × Place × Place × Buffer)} {i j : Place}
  {level : UInt8} {b aligned out : Buffer}

/-- What a buffer starts with. -/
theorem Aligned.bits (hin : Inside fh i j) (h : Aligned fh b level i j aligned) :
    ∃ crc tl, toBits aligned = toBits (Magic ++ [level]) ++
        (rangeOf fh i j ++ (eosBits ++ (crc ++ tl))) ∧
      (80 ≤ (rangeOf fh i j).length → crc = ((rangeOf fh i j).drop 48).take 32) := by
  obtain ⟨hcoff, hrange, hend⟩ := hin
  obtain ⟨aligned', crc, pad, junk, hcreate, -, -, hbits, hcrc⟩ :=
    createAlignedBlock_run fh b level hcoff i.2.2.isLt j.2.2.isLt hrange hend
  obtain rfl := Option.some.inj (Except.ok.inj (h.symm.trans hcreate))
  exact ⟨crc, _, hbits, hcrc⟩

theorem knowing_ok {k : List UInt8 × Place × Place × Buffer} (hk : k ∈ known)
    (hlevel : level ∈ k.1) (hin : Inside fh k.2.1 k.2.2.1)
    (hlong : 80 ≤ (rangeOf fh k.2.1 k.2.2.1).length)
    (h : Aligned fh b level k.2.1 k.2.2.1 aligned) :
    ∃ out, (knowing fh known).decompress aligned = .ok out := by
  obtain ⟨crc, tl, hbits, hcrc⟩ := h.bits hin
  have hprefix : oneBlockFile level (rangeOf fh k.2.1 k.2.2.1) <+: toBits aligned := by
    refine ⟨tl, ?_⟩
    rw [hbits, hcrc hlong, oneBlockFile]
    simp only [List.append_assoc]
    rfl
  cases hfind : known.find? fun k => k.1.any fun level =>
      (oneBlockFile level (rangeOf fh k.2.1 k.2.2.1)).isPrefixOf (toBits aligned) with
  | none =>
      have hnot := List.find?_eq_none.mp hfind k hk
      exact absurd
        (List.any_eq_true.mpr ⟨level, hlevel, List.isPrefixOf_iff_prefix.mpr hprefix⟩) hnot
  | some k' =>
      refine ⟨k'.2.2.2, ?_⟩
      simp only [knowing, hfind]

/-- Only a known block decompresses, if no other range looks like one. -/
theorem knowing_of_ok (hin : Inside fh i j)
    (hdiff : ∀ k ∈ known, (i = k.2.1 ∧ j = k.2.2.1) ∨
      Differ (rangeOf fh i j) (rangeOf fh k.2.1 k.2.2.1))
    (h : Aligned fh b level i j aligned) (hout : (knowing fh known).decompress aligned = .ok out) :
    ∃ k ∈ known, i = k.2.1 ∧ j = k.2.2.1 ∧ level ∈ k.1 ∧ out = k.2.2.2 := by
  obtain ⟨crc, tl, hbits, -⟩ := h.bits hin
  cases hfind : known.find? fun k => k.1.any fun level =>
      (oneBlockFile level (rangeOf fh k.2.1 k.2.2.1)).isPrefixOf (toBits aligned) with
  | none =>
      simp only [knowing, hfind] at hout
      cases hout
  | some k =>
      simp only [knowing, hfind, Except.ok.injEq] at hout
      obtain ⟨hk, -⟩ := List.find?_eq_some_iff_append.mp hfind
      obtain ⟨level', hlevel', hpre⟩ := List.any_eq_true.mp hk
      have hmem := List.mem_of_find?_eq_some hfind
      obtain ⟨tl', htl'⟩ := List.isPrefixOf_iff_prefix.mp hpre
      rw [hbits, oneBlockFile, List.append_assoc] at htl'
      obtain ⟨hhead, htail⟩ := List.append_inj htl' rfl
      have hlevel : level' = level := by
        have hbyte := congrArg (List.drop 24) hhead
        exact byteBits_inj ((List.append_nil _).symm.trans (hbyte.trans (List.append_nil _)))
      refine ⟨k, hmem, ?_⟩
      obtain ⟨hi, hj⟩ | hdiff := hdiff k hmem
      · exact ⟨hi, hj, hlevel ▸ hlevel', hout.symm⟩
      · exfalso
        apply hdiff
        have hcut : ∀ r r' rest : List Bool,
            (r ++ (eosBits ++ rest)).take (min r.length r'.length + 48) =
              (r ++ eosBits).take (min r.length r'.length + 48) := by
          intro r r' rest
          have hlen : eosBits.length = 48 := by
            rw [eosBits, length_toBits, length_beBytes]
            rfl
          rw [← List.append_assoc, List.take_append_of_le_length]
          rw [List.length_append, hlen]
          omega
        have hcut' := hcut (rangeOf fh k.2.1 k.2.2.1) (rangeOf fh i j)
        rw [Nat.min_comm] at hcut'
        rw [← hcut (rangeOf fh i j) _ (crc ++ tl), ← htail, List.append_assoc, List.append_assoc,
          ← hcut' (((rangeOf fh k.2.1 k.2.2.1).drop 48).take 32 ++ tl')]
        rfl

/-- What is in front of what in a list. -/
def pairsOf {α : Type} : List α → List (α × α)
  | [] => []
  | a :: l => l.map (a, ·) ++ pairsOf l

theorem mem_pairsOf {α : Type} {a b : α} {l : List α} (h : List.Sublist [a, b] l) :
    (a, b) ∈ pairsOf l := by
  induction l with
  | nil => cases h
  | cons c l ih =>
      obtain h | ⟨r, hr, h⟩ := List.sublist_cons_iff.mp h
      · exact List.mem_append_right _ (ih h)
      · obtain ⟨rfl, rfl⟩ := List.cons.inj hr
        exact List.mem_append_left _ (List.mem_map_of_mem (h.subset List.mem_cons_self))

section Known

variable {streams : List StreamBounds} {cands : List BlockBoundary}
  (htrue : ∀ p ∈ truePairs streams, Inside fh p.1 p.2.1 ∧ 80 ≤ (rangeOf fh p.1 p.2.1).length ∧
    ∃ k ∈ known, p.2.2 ∈ k.1 ∧ p.1 = k.2.1 ∧ p.2.1 = k.2.2.1)
include htrue

theorem knowing_own (hcons : Consecutive streams i j level)
    (h : Aligned fh b level i j aligned) :
    ∃ out, (knowing fh known).decompress aligned = .ok out := by
  obtain ⟨hin, hlong, k, hk, hlevel, hi, hj⟩ := htrue _ (mem_truePairs hcons)
  dsimp only at hin hlong hlevel hi hj
  subst hi hj
  exact knowing_ok hk hlevel hin hlong h

/-- What is known are just the blocks, and no other pair looks like one. -/
theorem knowing_decides
    (hknown : ∀ k ∈ known, ∀ level ∈ k.1, (k.2.1, k.2.2.1, level) ∈ truePairs streams)
    (hpairs : ∀ p ∈ pairsOf (cands.map triple), Inside fh p.1 p.2 ∧
      ∀ k ∈ known, (p.1 = k.2.1 ∧ p.2 = k.2.2.1) ∨
        Differ (rangeOf fh p.1 p.2) (rangeOf fh k.2.1 k.2.2.1)) :
    Decides (knowing fh known) fh streams cands := by
  intro i j level b aligned hlisted haligned
  obtain ⟨hin, hdiff⟩ := hpairs _ (mem_pairsOf (hlisted.map triple))
  constructor
  · rintro ⟨out, hout⟩
    obtain ⟨k, hk, hi, hj, hlevel, -⟩ := knowing_of_ok hin hdiff haligned hout
    have hmem := hknown k hk level hlevel
    rw [← hi, ← hj] at hmem
    exact consecutive_of_mem hmem
  · exact fun hcons => knowing_own htrue hcons haligned

theorem knowing_limited
    (hsize : ∀ k ∈ known, k.2.2.2.length < 2 ^ 32)
    (hpairs : ∀ p ∈ truePairs streams, ∀ k ∈ known, (p.1 = k.2.1 ∧ p.2.1 = k.2.2.1) ∨
      Differ (rangeOf fh p.1 p.2.1) (rangeOf fh k.2.1 k.2.2.1)) :
    Limited (knowing fh known) fh streams := by
  rintro i j level out hcons ⟨b, aligned, haligned, hout⟩
  have hmem := mem_truePairs hcons
  obtain ⟨k, hk, -, -, -, rfl⟩ :=
    knowing_of_ok (htrue _ hmem).1 (hpairs _ hmem) haligned hout
  exact hsize k hk

end Known

/-- A file of one stream, of which each of two blocks takes the level 9. -/
def lettersFile : FileHandle where
  path := "a.bz2"
  data := [0x42, 0x5a, 0x68, 0x39, 0x31, 0x41, 0x59, 0x26, 0x53, 0x59, 0x11, 0x1f, 0x2a, 0x98,
    0x03, 0x6e, 0xe3, 0x01, 0x00, 0x30, 0x00, 0x20, 0x00, 0x30, 0x80, 0x4d, 0x46, 0x8a,
    0x84, 0x22, 0x61, 0x50, 0x84, 0x4e, 0x62, 0x82, 0xb2, 0x4c, 0xa6, 0xb2, 0xef, 0xb5,
    0x93, 0x66, 0x06, 0x8f, 0xb9, 0x02, 0x00, 0x60, 0x00, 0x40, 0x00, 0x61, 0x00, 0x9a,
    0x8d, 0x21, 0x02, 0xa4, 0xca, 0x10, 0x2a, 0x4e, 0x2e, 0xe4, 0x8a, 0x70, 0xa1, 0x20,
    0xab, 0xc9, 0x39, 0x06]
  pos := 0

/-- The letters a and b in turn, from one of them on. -/
def letters (first n : Nat) : Buffer :=
  (List.range' first n).map fun i => if i % 2 = 0 then 0x61 else 0x62

@[simp] theorem length_letters (first n : Nat) : (letters first n).length = n := by
  rw [letters, List.length_map, List.length_range']

def lettersStream : StreamBounds where
  level := 0x39
  blocks := [(BlockMagic, 4, 0), (BlockMagic, 34, 1)]
  eos := (EOSMagic, 64, 1)
  digit := by decide
  blocks_magic := by simp
  eos_magic := rfl

/-- What the blocks decompress to. -/
def lettersBz : Bzlib := knowing lettersFile
  [([0x39], (BlockMagic, 4, 0), (BlockMagic, 34, 1), letters 0 899981),
    ([0x39], (BlockMagic, 34, 1), (EOSMagic, 64, 1), letters 1 860019)]

theorem singleton_ne_append {α : Type} {a s s' : α} {front back : List α} :
    [a] ≠ front ++ s :: s' :: back := by
  intro heq
  have hlen := congrArg List.length heq
  rw [List.length_append, List.length_cons, List.length_cons, List.length_cons,
    List.length_nil] at hlen
  omega

section Letters

variable {cands : List BlockBoundary}

/-- Candidates for this file. -/
theorem lettersCandidates
    (hinFile : ∀ c ∈ cands, c.bits.val ≤ 8 * c.coff ∧ c.coff < lettersFile.data.length)
    (hincreasing : cands.Pairwise fun c d => c.pos < d.pos)
    (hcontains : ∀ t ∈ trueBounds [lettersStream], ∃ c ∈ cands, triple c = t)
    (hlevel : ∀ c ∈ cands, triple c = (BlockMagic, 4, 0) → c.level = 0x39) :
    Candidates lettersFile [lettersStream] cands where
  inFile := hinFile
  increasing := hincreasing
  inOrder := by decide
  contains := hcontains
  noneBetween _ _ _ _ hstreams := absurd hstreams singleton_ne_append
  firstLevel s hs c hc hhead := by
    obtain rfl := List.mem_singleton.mp hs
    exact hlevel c hc (Option.some.inj hhead).symm

theorem letters_true : ∀ p ∈ truePairs [lettersStream], Inside lettersFile p.1 p.2.1 ∧
    80 ≤ (rangeOf lettersFile p.1 p.2.1).length ∧
      (p.2.2 = 0x39 ∧ p.1 = (BlockMagic, 4, 0) ∧ p.2.1 = (BlockMagic, 34, 1) ∨
        p.2.2 = 0x39 ∧ p.1 = (BlockMagic, 34, 1) ∧ p.2.1 = (EOSMagic, 64, 1)) := by
  decide +kernel

theorem lettersBz_decides
    (hpairs : ∀ p ∈ pairsOf (cands.map triple), Inside lettersFile p.1 p.2 ∧
      ∀ k ∈ truePairs [lettersStream], (p.1 = k.1 ∧ p.2 = k.2.1) ∨
        Differ (rangeOf lettersFile p.1 p.2) (rangeOf lettersFile k.1 k.2.1)) :
    Decides lettersBz lettersFile [lettersStream] cands := by
  apply knowing_decides
  · intro p hp
    obtain ⟨hin, hlong, hcase⟩ := letters_true p hp
    refine ⟨hin, hlong, ?_⟩
    simpa using hcase
  · intro k hk level hlevel
    have hcase := List.mem_pair.mp hk
    rcases hcase with rfl | rfl <;> rw [List.mem_singleton.mp hlevel] <;> decide
  · intro p hp
    obtain ⟨hin, hdiff⟩ := hpairs p hp
    refine ⟨hin, ?_⟩
    simp only [List.forall_mem_cons]
    exact ⟨hdiff _ List.mem_cons_self, hdiff _ (List.mem_cons_of_mem _ List.mem_cons_self),
      fun _ h => (by cases h)⟩

end Letters

theorem lettersBz_limited : Limited lettersBz lettersFile [lettersStream] := by
  apply knowing_limited
  · intro p hp
    obtain ⟨hin, hlong, hcase⟩ := letters_true p hp
    refine ⟨hin, hlong, ?_⟩
    simpa using hcase
  · intro k hk
    rcases List.mem_pair.mp hk with rfl | rfl <;> rw [length_letters] <;> decide
  · have hdiff : ∀ p ∈ truePairs [lettersStream], ∀ k ∈ truePairs [lettersStream],
        (p.1 = k.1 ∧ p.2.1 = k.2.1) ∨
          Differ (rangeOf lettersFile p.1 p.2.1) (rangeOf lettersFile k.1 k.2.1) := by
      decide +kernel
    intro p hp
    simp only [List.forall_mem_cons]
    exact ⟨hdiff p hp _ List.mem_cons_self,
      hdiff p hp _ (List.mem_cons_of_mem _ List.mem_cons_self), fun _ h => (by cases h)⟩

/-- A spurious candidate in the first block. -/
theorem buildIndexLoop_pairs_letters :
    ∃ found, Indexed lettersBz lettersFile 0 (truePairs [lettersStream]) found ∧
      Contiguous 0 (found.map Bzip2Block.block) ∧
      buildIndexLoop lettersBz lettersFile
          [⟨BlockMagic, 0, 20, 3⟩, ⟨BlockMagic, 0, 34, 1⟩, ⟨EOSMagic, 0, 64, 1⟩]
          ⟨BlockMagic, 0x39, 4, 0⟩ 0x39 0 [] [] = .ok (some ([] ++ found)) := by
  apply (buildIndexLoop_pairs lettersBz lettersFile [lettersStream] ⟨BlockMagic, 0x39, 4, 0⟩
    [⟨BlockMagic, 0, 20, 3⟩, ⟨BlockMagic, 0, 34, 1⟩, ⟨EOSMagic, 0, 64, 1⟩]
    (lettersCandidates (by decide) (by decide) (by decide) (by decide))
    (lettersBz_decides (by decide +kernel)) lettersBz_limited [] []).mpr
  exact .inr ⟨⟨BlockMagic, 0x39, 4, 0⟩, lettersStream, rfl, List.mem_singleton.mpr rfl,
    List.mem_cons_self, fun c hc => .inr (by cases hc; rfl)⟩

theorem letters_lost {found : List Bzip2Block}
    (hindexed : Indexed lettersBz lettersFile 0 (truePairs [lettersStream]) found)
    (hloop : (Except.ok (some []) : Except Exn (Option (List Bzip2Block))) = .ok (some found)) :
    False := by
  obtain rfl := Option.some.inj (Except.ok.inj hloop)
  obtain ⟨_, _, -, hcons, -⟩ := hindexed
  cases hcons

/-- The blocks of an accepted file are lost behind a block's magic number in front of the first
boundary, and behind the end of a stream there that has another level. -/
theorem first_candidate_matters :
    (checkFileType "a.bz2").run lettersFile = .ok ((), { lettersFile with pos := 10 }) ∧
      ∀ i ∈ ([⟨BlockMagic, 0, 2, 0⟩, ⟨EOSMagic, 0x31, 2, 0⟩] : List BlockBoundary),
        Candidates lettersFile [lettersStream] (i :: [⟨BlockMagic, 0x39, 4, 0⟩,
            ⟨BlockMagic, 0, 34, 1⟩, ⟨EOSMagic, 0, 64, 1⟩]) ∧
          Decides lettersBz lettersFile [lettersStream] (i :: [⟨BlockMagic, 0x39, 4, 0⟩,
            ⟨BlockMagic, 0, 34, 1⟩, ⟨EOSMagic, 0, 64, 1⟩]) ∧
          ¬ ∃ found, Indexed lettersBz lettersFile 0 (truePairs [lettersStream]) found ∧
            buildIndexLoop lettersBz lettersFile [⟨BlockMagic, 0x39, 4, 0⟩,
              ⟨BlockMagic, 0, 34, 1⟩, ⟨EOSMagic, 0, 64, 1⟩] i i.level 0 [] [] =
                .ok (some found) := by
  have hstarts : ∀ {i j : Place} {level : UInt8}, Consecutive [lettersStream] i j level →
      (i = (BlockMagic, 4, 0) ∨ i = (BlockMagic, 34, 1)) ∧ level = 0x39 := by
    intro i j level hcons
    obtain ⟨-, -, hcase⟩ := letters_true _ (mem_truePairs hcons)
    obtain ⟨hlevel, hi, -⟩ | ⟨hlevel, hi, -⟩ := hcase
    · exact ⟨.inl hi, hlevel⟩
    · exact ⟨.inr hi, hlevel⟩
  refine ⟨rfl, List.forall_mem_cons.mpr ⟨?_, List.forall_mem_singleton.mpr ?_⟩⟩
  · have hcands := @lettersCandidates (⟨BlockMagic, 0, 2, 0⟩ :: [⟨BlockMagic, 0x39, 4, 0⟩,
      ⟨BlockMagic, 0, 34, 1⟩, ⟨EOSMagic, 0, 64, 1⟩]) (by decide) (by decide) (by decide) (by decide)
    have hdecides := @lettersBz_decides (⟨BlockMagic, 0, 2, 0⟩ :: [⟨BlockMagic, 0x39, 4, 0⟩,
      ⟨BlockMagic, 0, 34, 1⟩, ⟨EOSMagic, 0, 64, 1⟩]) (by decide +kernel)
    refine ⟨hcands, hdecides, ?_⟩
    rintro ⟨found, hindexed, hloop⟩
    have hnone : ∀ j, ¬ Consecutive [lettersStream] (triple ⟨BlockMagic, 0, 2, 0⟩) j
        (levelFor 0 ⟨BlockMagic, 0, 2, 0⟩) := by
      intro j hcons
      exact absurd (hstarts hcons).1 (by decide)
    rw [loop_none hcands hdecides (by decide) (List.Sublist.refl _) hnone] at hloop
    exact letters_lost hindexed hloop
  · have hcands := @lettersCandidates (⟨EOSMagic, 0x31, 2, 0⟩ :: [⟨BlockMagic, 0x39, 4, 0⟩,
      ⟨BlockMagic, 0, 34, 1⟩, ⟨EOSMagic, 0, 64, 1⟩]) (by decide) (by decide) (by decide) (by decide)
    have hdecides := @lettersBz_decides (⟨EOSMagic, 0x31, 2, 0⟩ :: [⟨BlockMagic, 0x39, 4, 0⟩,
      ⟨BlockMagic, 0, 34, 1⟩, ⟨EOSMagic, 0, 64, 1⟩]) (by decide +kernel)
    refine ⟨hcands, hdecides, ?_⟩
    rintro ⟨found, hindexed, hloop⟩
    have hnone : ∀ j, ¬ Consecutive [lettersStream] (triple ⟨BlockMagic, 0x39, 4, 0⟩) j
        (levelFor 0x31 ⟨BlockMagic, 0x39, 4, 0⟩) := by
      intro j hcons
      exact absurd (hstarts hcons).2 (by decide)
    rw [loop_eos rfl, loop_none hcands hdecides (by decide) (List.sublist_cons_self _ _) hnone]
      at hloop
    exact letters_lost hindexed hloop

end Instance

end Bzip2File

end Lzopfs
