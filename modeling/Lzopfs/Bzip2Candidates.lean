import Lzopfs.Bzip2FirstBoundary

/-!
# The candidates of the search

A search bit by bit finds every magic number of a file once, in the order of the file. The
search by chunks finds the same, if what it looks at a second time, at the start of a chunk,
can only be the first byte of a magic number when there is none.
-/

namespace Lzopfs

open Verify FileHandle

namespace Bzip2File

/-- A magic number starts so many bits before a byte. -/
def MagicAt (data : Buffer) (t : UInt64 × Nat × Fin 8) : Prop :=
  (t.1 = BlockMagic ∨ t.1 = EOSMagic) ∧ t.2.2.val ≤ 8 * t.2.1 ∧
    bitsAt data (8 * t.2.1 - t.2.2) = magicBits t.1

/-- What a search bit by bit comes to: all magic numbers with eight bytes behind their first
full one, in increasing order. -/
structure NaiveScan (data : Buffer) (ts : List (UInt64 × Nat × Fin 8)) : Prop where
  mem : ∀ t, t ∈ ts ↔ t.2.1 + 9 ≤ data.length ∧ MagicAt data t
  increasing : ts.Pairwise fun s t =>
    8 * s.2.1 - s.2.2.val < 8 * t.2.1 - t.2.2.val

/-- The word that a look compares with the magic numbers, and where. -/
def compared (data : Buffer) (l : Look) : Option (Nat × UInt64) :=
  (backBits[(data.getD l.pos 0).toNat]?).join.map fun b =>
    (l.pos, wordAt l.prev (data.getD l.pos 0 :: data.drop (l.pos + 1)) b)

/-- All comparisons of a search. -/
def comparisons (before : Nat → UInt8) (data : Buffer) : List (Nat × UInt64) :=
  (looks before data).filterMap (compared data)

/-- At the start of every chunk but the first is a byte that no magic number has as its first
full one, or one that only starts a magic number, and does not. -/
def Quiet (data : Buffer) : Prop :=
  ∀ m, 0 < m → fresh * m + 10 ≤ data.length →
    (backBits[(data.getD (fresh * m) 0).toNat]?).join = none ∨
      (backBits[(data.getD (fresh * m) 0).toNat]?).join = some 0 ∧
        ∀ magic, magic = BlockMagic ∨ magic = EOSMagic →
          bitsAt data (8 * (fresh * m)) ≠ magicBits magic

variable {before : Nat → UInt8} {data : Buffer} {l : Look} {v : UInt64} {b : Fin 8}

/-- A look with the byte of the file in front finds the magic numbers that are there. -/
theorem hit_inFile (hpos : 0 < l.pos) (hlen : l.pos + 8 ≤ data.length)
    (hprev : l.prev = data.getD (l.pos - 1) 0) :
    hit data l = some (v, b) ↔ MagicAt data (v, l.pos, b) := by
  have hb := b.isLt
  have hbits := bits_inFile hpos (show l.pos ≤ data.length by omega) b
  rw [hit_iff hlen, MagicAt, hprev, hbits]
  constructor
  · exact fun ⟨hmagic, heq⟩ => ⟨hmagic, by dsimp only; omega, heq⟩
  · exact fun ⟨hmagic, _, heq⟩ => ⟨hmagic, heq⟩

/-- No magic number is at the start of an accepted file. -/
theorem not_magicAt_zero (h : Accepted data) : ¬ MagicAt data (v, 0, b) := by
  rintro ⟨hmagic, hle, hbits⟩
  have hten := length_of_accepted h
  obtain rfl : b = 0 := Fin.ext (Nat.le_zero.mp hle)
  have hhit : hit data ⟨0, 0⟩ = some (v, 0) := by
    refine (hit_iff (by dsimp only; omega)).mpr ⟨hmagic, ?_⟩
    rw [bits_aligned]
    exact hbits
  rw [hit_header h (by omega) (by omega)] at hhit
  cases hhit

theorem found_eq_some {t : UInt64 × Nat × Fin 8} :
    found data l = some t ↔ hit data l = some (t.1, t.2.2) ∧ t.2.1 = l.pos := by
  obtain ⟨v, pos, b⟩ := t
  rw [found]
  cases hhit : hit data l with
  | none => simp
  | some p =>
      obtain ⟨v', b'⟩ := p
      simp only [Option.map_some, Option.some.injEq, Prod.mk.injEq]
      constructor
      · rintro ⟨rfl, rfl, rfl⟩
        exact ⟨⟨rfl, rfl⟩, rfl⟩
      · rintro ⟨⟨rfl, rfl⟩, rfl⟩
        exact ⟨rfl, rfl, rfl⟩

theorem pairwise_looksFrom (prev : UInt8) (pos n : Nat) :
    (looksFrom data prev pos n).Pairwise fun k l => k.pos < l.pos := by
  induction n generalizing prev pos with
  | zero => exact .nil
  | succ n ih =>
      refine List.pairwise_cons.mpr ⟨?_, ih _ _⟩
      intro l hl
      exact (mem_looksFrom.mp hl).1

/-- Looks at all bytes of an accepted file in a row are a search bit by bit. -/
theorem naiveScan_looksFrom (h : Accepted data) (prev : UInt8) :
    NaiveScan data ((looksFrom data prev 0 (data.length - 8)).filterMap (found data)) where
  mem t := by
    obtain ⟨v, pos, b⟩ := t
    have hten := length_of_accepted h
    rw [List.mem_filterMap]
    constructor
    · rintro ⟨l, hl, hfound⟩
      obtain ⟨-, hlt, hprev⟩ := mem_looksFrom.mp hl
      obtain ⟨hhit, rfl⟩ := found_eq_some.mp hfound
      obtain ⟨prev', pos⟩ := l
      dsimp only at hhit hlt hprev ⊢
      have hpos : pos ≠ 0 := by
        rintro rfl
        rw [hit_header h (Nat.zero_le 3) (by omega)] at hhit
        cases hhit
      rw [if_neg hpos] at hprev
      exact ⟨by omega, (hit_inFile (Nat.pos_of_ne_zero hpos) (by dsimp only; omega) hprev).mp hhit⟩
    · rintro ⟨hlen, hmagic⟩
      dsimp only at hlen
      have hpos : pos ≠ 0 := by
        rintro rfl
        exact not_magicAt_zero h hmagic
      refine ⟨⟨data.getD (pos - 1) 0, pos⟩, mem_looksFrom.mpr ⟨Nat.zero_le _, ?_, ?_⟩,
        found_eq_some.mpr ⟨?_, rfl⟩⟩
      · dsimp only
        omega
      · exact (if_neg hpos).symm
      · exact (hit_inFile (Nat.pos_of_ne_zero hpos) (by dsimp only; omega) rfl).mpr hmagic
  increasing := by
    rw [List.pairwise_filterMap]
    apply (pairwise_looksFrom prev 0 _).imp
    intro k l hlt s hs t ht
    obtain ⟨-, hs⟩ := found_eq_some.mp hs
    obtain ⟨-, ht⟩ := found_eq_some.mp ht
    have hb := t.2.2.isLt
    omega

theorem looksFrom_append (prev : UInt8) (pos a b : Nat) :
    looksFrom data prev pos (a + 1 + b) =
      looksFrom data prev pos (a + 1) ++
        looksFrom data (data.getD (pos + a) 0) (pos + a + 1) b := by
  induction a generalizing prev pos with
  | zero =>
      rw [Nat.zero_add, Nat.add_comm 1 b]
      rfl
  | succ a ih =>
      have hcount : a + 1 + 1 + b = (a + 1 + b) + 1 := by omega
      have hpos : pos + 1 + a = pos + (a + 1) := by omega
      rw [hcount, looksFrom, ih, hpos, looksFrom.eq_2 data prev pos (a + 1), List.cons_append]

theorem le_refills_iff (h : 10 ≤ data.length) {m : Nat} :
    m ≤ refills data.length ↔ fresh * m + 10 ≤ data.length := by
  rw [refills, Nat.le_div_iff_mul_le (by decide), Nat.mul_comm]
  omega

/-- The looks at a chunk are the one at its first byte, and looks at bytes that follow. -/
theorem chunkLooks_cons {m : Nat} (h : m ≤ refills data.length) (hten : 10 ≤ data.length) :
    chunkLooks before data m = ⟨before (chunkStop data.length m), fresh * m⟩ ::
      looksFrom data (data.getD (fresh * m) 0) (fresh * m + 1)
        (chunkStop data.length m - 9 - fresh * m) := by
  have hle := (le_refills_iff hten).mp h
  have hsize : ChunkSize = 4096 := rfl
  have hcount : chunkStop data.length m - 8 - fresh * m =
      (chunkStop data.length m - 9 - fresh * m) + 1 := by
    rw [chunkStop]
    omega
  rw [chunkLooks, hcount]
  rfl

/-- If the looks at the first bytes of the chunks give nothing, but for the very first one,
then there is no difference to looks at all bytes in a row. -/
theorem filterMap_looks {β : Type} {f : Look → Option β} (hten : 10 ≤ data.length)
    (hnone : ∀ m, 0 < m → m ≤ refills data.length →
      f ⟨before (chunkStop data.length m), fresh * m⟩ = none) :
    (looks before data).filterMap f =
      (looksFrom data (before (chunkStop data.length 0)) 0 (data.length - 8)).filterMap f := by
  have hfront : ∀ m, m ≤ refills data.length →
      ((List.range' 0 (m + 1)).flatMap (chunkLooks before data)).filterMap f =
        (looksFrom data (before (chunkStop data.length 0)) 0
          (chunkStop data.length m - 8)).filterMap f := by
    intro m hm
    induction m with
    | zero =>
        rw [List.range'_one, List.flatMap_cons, List.flatMap_nil, List.append_nil, chunkLooks,
          Nat.mul_zero, Nat.sub_zero]
    | succ m ih =>
        have hfresh : fresh = 4087 := rfl
        have hsize : ChunkSize = 4096 := rfl
        have hsucc := fresh_succ m
        have hlt := refill_lt (Nat.lt_of_succ_le hm)
        have hle := (le_refills_iff hten).mp hm
        have hstop := chunkStop_of_lt hlt
        have hcount : chunkStop data.length (m + 1) - 8 =
            fresh * (m + 1) + 1 + (chunkStop data.length (m + 1) - 9 - fresh * (m + 1)) := by
          rw [chunkStop]
          omega
        have hcount' : chunkStop data.length m - 8 = fresh * (m + 1) + 1 := by omega
        have hpos : 0 + fresh * (m + 1) = fresh * (m + 1) := Nat.zero_add _
        rw [List.range'_concat, List.flatMap_append, List.filterMap_append,
          ih (Nat.le_of_succ_le hm), hcount, hcount', looksFrom_append, List.filterMap_append, hpos,
          Nat.one_mul, Nat.zero_add, List.flatMap_cons, List.flatMap_nil, List.append_nil,
          chunkLooks_cons hm hten, List.filterMap_cons_none (hnone (m + 1) (Nat.succ_pos m) hm)]
  have hlast := hfront _ (Nat.le_refl _)
  rw [chunkStop_last] at hlast
  exact hlast

theorem wordAt_zero (prev prev' : UInt8) {window : Buffer} (h : 8 ≤ window.length) :
    wordAt prev window 0 = wordAt prev' window 0 := by
  have hnil : ∀ x : UInt8, (byteBits x).drop (8 - (0 : Fin 8).val) = [] :=
    fun x => List.drop_eq_nil_of_le (Nat.le_of_eq (length_byteBits x))
  rw [← UInt64.toNat_inj, toNat_wordAt prev 0 h, toNat_wordAt prev' 0 h, hnil, hnil]

/-- A bit in front of a window that is looked at changes the word. -/
theorem wordAt_flip (prev : UInt8) {window : Buffer} (h : 8 ≤ window.length) (hb : b ≠ 0) :
    wordAt (prev ^^^ 1) window b ≠ wordAt prev window b := by
  have hflip : ∀ n : Fin 256, (byteBits (UInt8.ofNat n ^^^ 1)).drop 7 ≠
      (byteBits (UInt8.ofNat n)).drop 7 := by
    decide +kernel
  have hprev := hflip ⟨prev.toNat, prev.toNat_lt⟩
  have hpos : 0 < b.val := Nat.pos_of_ne_zero fun h0 => hb (Fin.ext h0)
  have hlt := b.isLt
  have hseven : 7 = 8 - b.val + (b.val - 1) := by omega
  rw [UInt8.ofNat_toNat] at hprev
  intro heq
  have hnum := congrArg UInt64.toNat heq
  rw [toNat_wordAt _ b h, toNat_wordAt _ b h] at hnum
  have hbits :=
    ofBits_inj (by simp only [List.length_append, List.length_drop, length_byteBits]) hnum
  apply hprev
  rw [hseven, ← List.drop_drop, ← List.drop_drop, List.append_cancel_right hbits]

/-- At the start of a chunk, no byte is taken from in front of the buffer. -/
def NoneInFront (data : Buffer) (m : Nat) : Prop :=
  (backBits[(data.getD (fresh * m) 0).toNat]?).join = none ∨
    (backBits[(data.getD (fresh * m) 0).toNat]?).join = some 0

theorem compared_first {m : Nat} (h : NoneInFront data m) (hlen : fresh * m + 8 ≤ data.length)
    (prev prev' : UInt8) : compared data ⟨prev, fresh * m⟩ = compared data ⟨prev', fresh * m⟩ := by
  obtain h | h := h
  · rw [compared, compared]
    dsimp only
    rw [h]
    rfl
  · have hwindow : 8 ≤ (data.drop (fresh * m)).length := by
      rw [List.length_drop]
      omega
    rw [compared, compared]
    dsimp only
    rw [h, drop_cons (by omega), Option.map_some, Option.map_some, wordAt_zero prev prev' hwindow]

theorem comparisons_eq (hten : 10 ≤ data.length)
    (h : ∀ m, m ≤ refills data.length → NoneInFront data m) (before' : Nat → UInt8) :
    comparisons before' data = comparisons before data := by
  rw [comparisons, comparisons, looks, looks, List.filterMap_flatMap, List.filterMap_flatMap]
  apply List.flatMap_congr
  intro m hm
  have hle : m ≤ refills data.length := by
    have hlt := (List.mem_range'_1.mp hm).2
    omega
  have hin := (le_refills_iff hten).mp hle
  have hfirst := compared_first (h m hle) (by omega) (before' (chunkStop data.length m))
    (before (chunkStop data.length m))
  rw [chunkLooks_cons hle hten, chunkLooks_cons hle hten, List.filterMap_cons, List.filterMap_cons,
    hfirst]

/-- If the byte in front of the buffer does not matter, none is taken from there. -/
theorem noneInFront_of_comparisons (hten : 10 ≤ data.length) {m : Nat}
    (hm : m ≤ refills data.length)
    (h : ∀ before' before'', comparisons before' data = comparisons before'' data) :
    NoneInFront data m := by
  have hin := (le_refills_iff hten).mp hm
  cases hback : (backBits[(data.getD (fresh * m) 0).toNat]?).join with
  | none => exact .inl hback
  | some b =>
      by_cases hb : b = 0
      · rw [hb] at hback
        exact .inr hback
      · have hwindow : 8 ≤ (data.drop (fresh * m)).length := by
          rw [List.length_drop]
          omega
        have hcompared : ∀ prev, compared data ⟨prev, fresh * m⟩ =
            some (fresh * m, wordAt prev (data.drop (fresh * m)) b) := by
          intro prev
          rw [compared]
          dsimp only
          rw [hback, drop_cons (by omega)]
          rfl
        -- the byte that the file has there, and one with another last bit
        let r := data.getD (fresh * m - 1) 0
        have hflip : (fresh * m, wordAt (r ^^^ 1) (data.drop (fresh * m)) b) ∈
            comparisons (fun _ => r ^^^ 1) data := by
          refine List.mem_filterMap.mpr ⟨_, mem_looks.mpr ⟨m, hm, ?_⟩, hcompared _⟩
          rw [chunkLooks_cons hm hten]
          exact List.mem_cons_self
        rw [h _ fun _ => r] at hflip
        obtain ⟨⟨prev, pos⟩, hl, hsame⟩ := List.mem_filterMap.mp hflip
        obtain ⟨_, _, hpair⟩ := Option.map_eq_some_iff.mp hsame
        obtain rfl : pos = fresh * m := congrArg Prod.fst hpair
        obtain rfl : prev = r := by
          obtain ⟨i, -, hi⟩ := mem_looks.mp hl
          obtain ⟨-, -, hprev⟩ := mem_chunkLooks.mp hi
          dsimp only at hprev
          rwa [ite_self] at hprev
        rw [hcompared] at hsame
        exact absurd (congrArg Prod.snd (Option.some.inj hsame)).symm (wordAt_flip r hwindow hb)

theorem chunk_lt_chunk {ts : UInt64 × Nat × Fin 8 → UInt64 × Nat × Fin 8 → Prop}
    (h : ((looks before data).filterMap (found data)).Pairwise ts) {m : Nat}
    (hm : m + 1 ≤ refills data.length) {k : Look} {s t : UInt64 × Nat × Fin 8}
    (hk : k ∈ chunkLooks before data m) (hl : l ∈ chunkLooks before data (m + 1))
    (hs : found data k = some s) (ht : found data l = some t) : ts s t := by
  rw [List.pairwise_filterMap, looks, List.pairwise_flatMap] at h
  have hchunks := List.pairwise_iff_getElem.mp h.2 m (m + 1)
    (by rw [List.length_range']; omega) (by rw [List.length_range']; omega) (Nat.lt_succ_self m)
  rw [List.getElem_range', List.getElem_range'] at hchunks
  simp only [Nat.zero_add, Nat.one_mul] at hchunks
  exact hchunks k hk l hl s hs t ht

/-- A magic number at the start of a chunk is found twice. -/
theorem not_increasing (hten : 10 ≤ data.length) {m : Nat} (hm : m + 1 ≤ refills data.length)
    (hmagic : v = BlockMagic ∨ v = EOSMagic)
    (hbits : bitsAt data (8 * (fresh * (m + 1))) = magicBits v) :
    ¬ NaiveScan data ((looks before data).filterMap (found data)) := by
  intro hnaive
  have hsize : ChunkSize = 4096 := rfl
  have hfresh : fresh = 4087 := rfl
  have hsucc := fresh_succ m
  have hin := (le_refills_iff hten).mp hm
  have hlt := refill_lt (Nat.lt_of_succ_le hm)
  have hstop := chunkStop_of_lt hlt
  have hfound : ∀ prev, found data ⟨prev, fresh * (m + 1)⟩ = some (v, fresh * (m + 1), 0) := by
    intro prev
    refine found_eq_some.mpr ⟨(hit_iff (by dsimp only; omega)).mpr ⟨hmagic, ?_⟩, rfl⟩
    rw [bits_aligned]
    exact hbits
  have hlast : ⟨data.getD (fresh * (m + 1) - 1) 0, fresh * (m + 1)⟩ ∈ chunkLooks before data m := by
    refine mem_chunkLooks.mpr ⟨by dsimp only; omega, by dsimp only; omega, ?_⟩
    have hne : fresh * (m + 1) ≠ fresh * m := by omega
    exact (if_neg hne).symm
  have hfirst : ⟨before (chunkStop data.length (m + 1)), fresh * (m + 1)⟩ ∈
      chunkLooks before data (m + 1) := by
    rw [chunkLooks_cons hm hten]
    exact List.mem_cons_self
  have hself := chunk_lt_chunk hnaive.increasing hm hlast hfirst (hfound _) (hfound _)
  exact absurd hself (Nat.lt_irrefl _)

theorem quiet_of_naive (h : Accepted data)
    (hnaive : NaiveScan data ((looks before data).filterMap (found data)))
    (hind : ∀ before' before'', comparisons before' data = comparisons before'' data) :
    Quiet data := by
  intro m hpos hlen
  have hten := length_of_accepted h
  have hm := (le_refills_iff hten).mpr hlen
  obtain hnone | hzero := noneInFront_of_comparisons hten hm hind
  · exact .inl hnone
  · refine .inr ⟨hzero, fun magic hmagic hbits => ?_⟩
    obtain ⟨m, rfl⟩ := Nat.exists_eq_succ_of_ne_zero (Nat.ne_of_gt hpos)
    exact not_increasing hten hm hmagic hbits hnaive

theorem naive_of_quiet (h : Accepted data) (hquiet : Quiet data) :
    NaiveScan data ((looks before data).filterMap (found data)) := by
  have hten := length_of_accepted h
  rw [filterMap_looks hten]
  · exact naiveScan_looksFrom h _
  · intro m hpos hm
    have hlen := (le_refills_iff hten).mp hm
    apply Option.eq_none_iff_forall_ne_some.mpr
    rintro ⟨v, pos, b⟩ hfound
    obtain ⟨hhit, -⟩ := found_eq_some.mp hfound
    obtain ⟨hmagic, hbits⟩ := (hit_iff (by dsimp only; omega)).mp hhit
    have hfront : ((byteBits (before (chunkStop data.length m))).drop (8 - b)).length = b.val := by
      rw [List.length_drop, length_byteBits]
      omega
    have hcons := hbits
    rw [toBits_drop_cons (show fresh * m < data.length by omega)] at hcons
    have hback := backBits_of_bits hfront hmagic hcons
    obtain hnone | ⟨hzero, hno⟩ := hquiet m hpos hlen
    · rw [hnone] at hback
      cases hback
    · rw [hzero] at hback
      obtain rfl := Option.some.inj hback
      rw [bits_aligned] at hbits
      exact hno _ hmagic hbits

theorem comparisons_of_quiet (h : Accepted data) (hquiet : Quiet data) (before' : Nat → UInt8) :
    comparisons before' data = comparisons before data := by
  have hten := length_of_accepted h
  apply comparisons_eq hten
  intro m hm
  cases m with
  | zero =>
      obtain ⟨level, tl, -, -, rfl⟩ := h
      exact .inl rfl
  | succ m =>
      obtain hnone | ⟨hzero, -⟩ := hquiet (m + 1) (Nat.succ_pos m) ((le_refills_iff hten).mp hm)
      · exact .inl hnone
      · exact .inr hzero

theorem triples_of_run {fh g : FileHandle} {bl : List BlockBoundary} (hne : fh.data ≠ [])
    (h : (findBlockBoundaryCandidates before).run fh = .ok (bl, g)) :
    bl.map triple = (looks before fh.data).filterMap (found fh.data) := by
  rw [run_findBlockBoundaryCandidates before hne] at h
  cases h
  exact foldl_look_bl _ _

/-- The search by chunks finds what a search bit by bit finds, without a byte that is not in
the file, exactly if the bytes that are looked at twice are quiet. -/
theorem findBlockBoundaryCandidates_naive (before : Nat → UInt8) (mPath : String)
    (fh g : FileHandle) (hpos : fh.pos = 0)
    (hok : (checkFileType mPath).run fh = .ok ((), g)) :
    ((∃ bl g', (findBlockBoundaryCandidates before).run g = .ok (bl, g') ∧
        NaiveScan fh.data (bl.map triple)) ∧
      ∀ before' before'', comparisons before' fh.data = comparisons before'' fh.data) ↔
      Quiet fh.data := by
  obtain ⟨hdata, haccepted⟩ := accepted_of_checkFileType hpos hok
  have hten := length_of_accepted haccepted
  have hne : g.data ≠ [] := by
    apply List.ne_nil_of_length_pos
    rw [hdata]
    omega
  have hrun := run_findBlockBoundaryCandidates before hne
  constructor
  · rintro ⟨⟨bl, g', hbl, hnaive⟩, hind⟩
    rw [triples_of_run hne hbl, hdata] at hnaive
    exact quiet_of_naive haccepted hnaive hind
  · intro hquiet
    refine ⟨⟨_, _, hrun, ?_⟩, ?_⟩
    · rw [triples_of_run hne hrun, hdata]
      exact naive_of_quiet haccepted hquiet
    · exact fun before' before'' => comparisons_of_quiet haccepted hquiet before'

/-- The first chunk of a file, up to where the second one starts. -/
def firstChunk (tl : Buffer) : Buffer :=
  Magic ++ (0x39 :: (beBytes BlockMagicBytes BlockMagic.toNat ++ (List.replicate 4077 0 ++ tl)))

theorem length_firstChunk (tl : Buffer) : (firstChunk tl).length = 4087 + tl.length := by
  have hmagic : Magic.length = 3 := rfl
  have hwidth : BlockMagicBytes = 6 := rfl
  simp only [firstChunk, List.length_append, List.length_cons, List.length_replicate,
    length_beBytes, hmagic, hwidth]
  omega

theorem drop_firstChunk (tl : Buffer) : (firstChunk tl).drop 4087 = tl := by
  have hten : (Magic ++ (0x39 :: beBytes BlockMagicBytes BlockMagic.toNat)).length = 10 := rfl
  have hsplit : firstChunk tl = (Magic ++ (0x39 :: beBytes BlockMagicBytes BlockMagic.toNat) ++
      List.replicate 4077 0) ++ tl := by
    simp only [firstChunk, List.append_assoc, List.cons_append]
  rw [hsplit]
  apply List.drop_left'
  rw [List.length_append, hten, List.length_replicate]

/-- A file with a second magic number in its second chunk, which starts with a byte that could
start one, and a file with one where the second chunk starts. -/
def refillFile : FileHandle where
  path := "a.bz2"
  data := firstChunk (List.replicate 13 0x31 ++
    (beBytes BlockMagicBytes BlockMagic.toNat ++ List.replicate 10 0))
  pos := 0

def chunkFile : FileHandle where
  path := "a.bz2"
  data := Magic ++ (0x39 :: (beBytes BlockMagicBytes BlockMagic.toNat ++ (List.replicate 4077 0 ++
    (beBytes BlockMagicBytes BlockMagic.toNat ++ List.replicate 10 0))))
  pos := 0

theorem refillFile_quiet : Quiet refillFile.data := by
  intro m hpos hlen
  have hlength : refillFile.data.length = 4116 := length_firstChunk _
  have hfresh : fresh = 4087 := rfl
  rw [hlength, hfresh] at hlen
  obtain rfl : m = 1 := by omega
  have hdrop : refillFile.data.drop 4087 = _ := drop_firstChunk _
  have hbyte : refillFile.data.getD 4087 0 = 0x31 := by
    have hget := @List.getElem?_drop _ refillFile.data 4087 0
    rw [hdrop] at hget
    rw [List.getD_eq_getElem?_getD, ← hget]
    rfl
  have hstart : fresh * 1 = 4087 := rfl
  rw [hstart, hbyte, bitsAt_aligned, hdrop]
  refine .inr ⟨by decide, ?_⟩
  rintro magic (rfl | rfl) <;> decide

theorem findBlockBoundaryCandidates_naive_refill : 0 < refills refillFile.data.length ∧
    (∃ bl g', (findBlockBoundaryCandidates fun _ => 0).run { refillFile with pos := 10 } =
        .ok (bl, g') ∧ NaiveScan refillFile.data (bl.map triple)) ∧
      ∀ before' before'', comparisons before' refillFile.data =
        comparisons before'' refillFile.data := by
  have hlength : refillFile.data.length = 4116 := length_firstChunk _
  constructor
  · rw [hlength]
    decide
  · exact (findBlockBoundaryCandidates_naive (fun _ => 0) "a.bz2" refillFile
      { refillFile with pos := 10 } rfl rfl).mpr refillFile_quiet

/-- What is found twice is not what a search bit by bit finds. -/
theorem chunkFile_twice :
    (checkFileType "a.bz2").run chunkFile = .ok ((), { chunkFile with pos := 10 }) ∧
      ∀ before, ¬ ∃ bl g', (findBlockBoundaryCandidates before).run { chunkFile with pos := 10 } =
        .ok (bl, g') ∧ NaiveScan chunkFile.data (bl.map triple) := by
  refine ⟨rfl, ?_⟩
  rintro before ⟨bl, g', hbl, hnaive⟩
  have hlen : chunkFile.data.length = 4103 := length_firstChunk _
  have htriples := triples_of_run (List.cons_ne_nil _ _) hbl
  have hbits : bitsAt chunkFile.data (8 * 4087) = magicBits BlockMagic := by
    have hdrop : chunkFile.data.drop 4087 = _ := drop_firstChunk _
    rw [bitsAt_aligned, hdrop]
    rfl
  have hone : 0 + 1 ≤ refills chunkFile.data.length := by
    rw [hlen]
    decide
  rw [htriples] at hnaive
  exact not_increasing (m := 0) (by omega) hone (.inl rfl) hbits hnaive

end Bzip2File

end Lzopfs
