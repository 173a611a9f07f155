import Lzopfs.Bzip2File

/-!
# The search for the boundaries of blocks

The search goes through a file chunk by chunk. All that it does is to look at one byte after
the other, each together with the byte in front of it. But the last byte that it looks at in
a chunk is the first byte of the next chunk, and is looked at again there; then the byte in
front of it is not one of the file.
-/

namespace Lzopfs

open Verify FileHandle

namespace Bzip2File

/-- A word is made of the last `b` bits of the byte in front of the window and the first
bits of the window. -/
theorem toNat_wordAt (prev : UInt8) {window : Buffer} (b : Fin 8) (h : 8 ≤ window.length) :
    (wordAt prev window b).toNat =
      ofBits ((byteBits prev).drop (8 - b) ++ (toBits window).take (48 - b)) := by
  have hb := b.isLt
  have hlen : (window.take 8).length = 8 := by
    rw [List.length_take]
    omega
  have hlow : (UInt64.ofNat (ofBE (window.take 8)) >>>
      UInt64.ofNat (8 * (8 - BlockMagicBytes) + b)).toNat =
        ofBits ((toBits window).take (48 - b)) := by
    have hlt : ofBE (window.take 8) < 2 ^ 64 := by
      have hlt := ofBE_lt (window.take 8)
      rwa [hlen] at hlt
    have hbits := ofBits_take (toBits (window.take 8)) (48 - b)
    have hsub : 64 - (48 - b.val) = 16 + b.val := by omega
    rw [length_toBits, hlen, ofBits_toBits, toBits_take, List.take_take,
      Nat.min_eq_left (by omega), hsub] at hbits
    rw [UInt64.toNat_shiftRight, UInt64.toNat_ofNat', UInt64.toNat_ofNat', Nat.mod_eq_of_lt hlt,
      hbits, Nat.shiftRight_eq_div_pow]
    congr 2
    show (16 + b.val) % 2 ^ 64 % 64 = 16 + b.val
    omega
  have hhigh : ((prev.toUInt64 <<< UInt64.ofNat (8 * BlockMagicBytes - b)) &&&
      BlockMagicMask).toNat = 2 ^ (48 - b.val) * ofBits ((byteBits prev).drop (8 - b)) := by
    have hmask : BlockMagicMask.toNat = 2 ^ 48 - 1 := by decide
    have hshift : (UInt64.ofNat (8 * BlockMagicBytes - b.val)).toNat % 64 = 48 - b.val := by
      show (48 - b.val) % 2 ^ 64 % 64 = 48 - b.val
      omega
    have hprev := prev.toNat_lt
    have hpow : 2 ^ (48 - b.val) ≤ 2 ^ 48 := Nat.pow_le_pow_right Nat.two_pos (by omega)
    have hfit : prev.toNat * 2 ^ (48 - b.val) < 2 ^ 64 :=
      Nat.lt_of_le_of_lt (Nat.mul_le_mul_left _ hpow) (by omega)
    have hdrop := ofBits_drop (byteBits prev) (8 - b)
    have hsub : 8 - (8 - b.val) = b.val := by omega
    have hsplit : (2 : Nat) ^ 48 = 2 ^ b.val * 2 ^ (48 - b.val) := by
      rw [← Nat.pow_add]
      congr 1
      omega
    rw [length_byteBits, ofBits_byteBits, hsub] at hdrop
    rw [UInt64.toNat_and, UInt64.toNat_shiftLeft, hshift, hmask, Nat.and_two_pow_sub_one_eq_mod,
      UInt8.toNat_toUInt64, Nat.shiftLeft_eq, Nat.mod_eq_of_lt hfit, hdrop, hsplit,
      Nat.mul_mod_mul_right, Nat.mul_comm]
  have hlt : ofBits ((toBits window).take (48 - b)) < 2 ^ (48 - b.val) :=
    Nat.lt_of_lt_of_le (ofBits_lt _) (Nat.pow_le_pow_right Nat.two_pos (List.length_take_le _ _))
  have hlen : ((toBits window).take (48 - b)).length = 48 - b.val := by
    rw [List.length_take, length_toBits]
    omega
  rw [wordAt, UInt64.toNat_or, hlow, hhigh, Nat.or_comm, ← Nat.two_pow_add_eq_or_of_lt hlt,
    ofBits_append, hlen, Nat.mul_comm]

/-- The bits of a magic number. -/
def magicBits (magic : UInt64) : List Bool := toBits (beBytes BlockMagicBytes magic.toNat)

theorem ofBits_magicBits {magic : UInt64} (h : magic = BlockMagic ∨ magic = EOSMagic) :
    ofBits (magicBits magic) = magic.toNat := by
  rw [magicBits, ofBits_toBits]
  obtain rfl | rfl := h
  · exact ofBE_beBytes (by decide)
  · exact ofBE_beBytes (by decide)

theorem length_magicBits (magic : UInt64) : (magicBits magic).length = 48 := by
  rw [magicBits, length_toBits, length_beBytes]
  rfl

/-- A word is a magic number if its bits are. -/
theorem wordAt_eq_iff {prev : UInt8} {window : Buffer} {b : Fin 8} {magic : UInt64}
    (h : 8 ≤ window.length) (hmagic : magic = BlockMagic ∨ magic = EOSMagic) :
    wordAt prev window b = magic ↔
      (byteBits prev).drop (8 - b) ++ (toBits window).take (48 - b) = magicBits magic := by
  have hb := b.isLt
  rw [← UInt64.toNat_inj, toNat_wordAt prev b h, ← ofBits_magicBits hmagic]
  constructor
  · apply ofBits_inj
    rw [List.length_append, List.length_drop, List.length_take, length_byteBits, length_toBits,
      length_magicBits]
    omega
  · exact congrArg ofBits

/-- A look at a byte of the file: where it is, and the byte in front of it. -/
structure Look where
  prev : UInt8
  pos : Nat

/-- The looks at so many bytes in a row. -/
def looksFrom (data : Buffer) : UInt8 → Nat → Nat → List Look
  | _, _, 0 => []
  | prev, pos, n + 1 => ⟨prev, pos⟩ :: looksFrom data (data.getD pos 0) (pos + 1) n

def look (data : Buffer) (s : Scan) (l : Look) : Scan :=
  scanByte l.prev (data.getD l.pos 0) (data.drop (l.pos + 1)) l.pos s

/-- The magic number that a look finds. -/
def hit (data : Buffer) (l : Look) : Option (UInt64 × Fin 8) :=
  (backBits[(data.getD l.pos 0).toNat]?).join.bind fun b =>
    let v := wordAt l.prev (data.getD l.pos 0 :: data.drop (l.pos + 1)) b
    if v = BlockMagic ∨ v = EOSMagic then some (v, b) else none

/-- The level after a look. -/
def levelAt (data : Buffer) (s : Scan) (l : Look) : UInt8 :=
  if s.lcount = 1 then data.getD l.pos 0 else s.level

variable {data : Buffer} {s : Scan} {l : Look} {v : UInt64} {b : Fin 8}

theorem look_none (h : hit data l = none) :
    look data s l = ⟨s.lcount - 1, levelAt data s l, s.bl⟩ := by
  rw [hit] at h
  rw [look, scanByte]
  cases hb : (backBits[(data.getD l.pos 0).toNat]?).join with
  | none => rfl
  | some b =>
      rw [hb, Option.bind_some] at h
      dsimp only at h ⊢
      split at h
      · cases h
      · rw [if_neg ‹_›]
        rfl

theorem look_some (h : hit data l = some (v, b)) :
    look data s l = ⟨if v = EOSMagic then ftsz + lcreset else s.lcount - 1, levelAt data s l,
      s.bl ++ [⟨v, levelAt data s l, l.pos, b⟩]⟩ := by
  rw [hit] at h
  rw [look, scanByte]
  cases hb : (backBits[(data.getD l.pos 0).toNat]?).join with
  | none =>
      rw [hb] at h
      cases h
  | some b =>
      rw [hb, Option.bind_some] at h
      dsimp only at h ⊢
      split at h
      · cases h
        rw [if_pos ‹_›]
        rfl
      · cases h

/-- Where candidates are, and for what; the levels apart. -/
def triple (c : BlockBoundary) : UInt64 × Nat × Fin 8 := (c.magic, c.coff, c.bits)

/-- What a look finds, as a candidate. -/
def found (data : Buffer) (l : Look) : Option (UInt64 × Nat × Fin 8) :=
  (hit data l).map fun p => (p.1, l.pos, p.2)

/-- Every look adds what it finds. -/
theorem foldl_look_bl (looks : List Look) (s : Scan) :
    (looks.foldl (look data) s).bl.map triple =
      s.bl.map triple ++ looks.filterMap (found data) := by
  induction looks generalizing s with
  | nil => simp
  | cons l looks ih =>
      rw [List.foldl_cons, ih]
      cases hhit : hit data l with
      | none =>
          have hfound : found data l = none := by rw [found, hhit]; rfl
          rw [look_none hhit, List.filterMap_cons_none hfound]
      | some p =>
          obtain ⟨v, b⟩ := p
          have hfound : found data l = some (v, l.pos, b) := by rw [found, hhit]; rfl
          rw [look_some hhit, List.filterMap_cons_some hfound, List.map_append, List.append_assoc]
          rfl

theorem getD_of_prefix {x : UInt8} {tl : Buffer} {pos : Nat} (h : x :: tl <+: data.drop pos) :
    data.getD pos 0 = x ∧ tl <+: data.drop (pos + 1) := by
  obtain ⟨back, hback⟩ := h
  have hget : (data.drop pos)[0]? = some x := by rw [← hback]; rfl
  have htl : (data.drop pos).drop 1 = tl ++ back := by rw [← hback]; rfl
  rw [List.getElem?_drop, Nat.add_zero] at hget
  rw [List.drop_drop] at htl
  exact ⟨by rw [List.getD_eq_getElem?_getD, hget]; rfl, back, htl.symm⟩

/-- A look at a byte takes no more than the seven bytes behind it into account. -/
theorem scanByte_prefix {prev x : UInt8} {tl tl' : Buffer} {pos : Nat} (h : tl <+: tl')
    (hlen : 8 ≤ tl.length) (s : Scan) :
    scanByte prev x tl pos s = scanByte prev x tl' pos s := by
  have hword : ∀ b, wordAt prev (x :: tl) b = wordAt prev (x :: tl') b := by
    intro b
    obtain ⟨back, rfl⟩ := h
    rw [wordAt, wordAt, List.take_succ_cons, List.take_succ_cons,
      List.take_append_of_le_length (by omega)]
  simp only [scanByte, hword]

/-- A scan of a chunk looks at all its bytes but the last eight. -/
theorem scanChunk_eq (prev : UInt8) {buf : Buffer} {pos : Nat} (h : buf <+: data.drop pos)
    (s : Scan) :
    scanChunk prev buf pos s = (looksFrom data prev pos (buf.length - 8)).foldl (look data) s := by
  induction buf generalizing prev pos s with
  | nil => rfl
  | cons x tl ih =>
      obtain ⟨hx, htl⟩ := getD_of_prefix h
      rw [scanChunk]
      by_cases hlen : 8 ≤ tl.length
      · have hsub : (x :: tl).length - 8 = (tl.length - 8) + 1 := by
          rw [List.length_cons]
          omega
        rw [if_pos hlen, hsub, looksFrom, List.foldl_cons, ih x htl, hx, look, hx,
          scanByte_prefix htl hlen]
      · have hsub : (x :: tl).length - 8 = 0 := by
          rw [List.length_cons]
          omega
        rw [if_neg hlen, hsub]
        rfl

/-- How many bytes a refill asks for. -/
def fresh : Nat := ChunkSize - 8 - 1

/-- Where the chunk after `m` refills ends. -/
def chunkStop (n m : Nat) : Nat := min n (ChunkSize + fresh * m)

def chunk (data : Buffer) (m : Nat) : Buffer :=
  (data.drop (fresh * m)).take (chunkStop data.length m - fresh * m)

/-- How many refills a file of so many bytes takes. -/
def refills (n : Nat) : Nat := (n - 10) / fresh

/-- The looks at a chunk; in front of it lies the byte `before` tells. -/
def chunkLooks (before : Nat → UInt8) (data : Buffer) (m : Nat) : List Look :=
  looksFrom data (before (chunkStop data.length m)) (fresh * m)
    (chunkStop data.length m - 8 - fresh * m)

/-- All looks at a file. -/
def looks (before : Nat → UInt8) (data : Buffer) : List Look :=
  (List.range' 0 (refills data.length + 1)).flatMap (chunkLooks before data)

theorem length_chunk {m : Nat} (h : fresh * m ≤ data.length) :
    (chunk data m).length = chunkStop data.length m - fresh * m := by
  rw [chunk, List.length_take, List.length_drop, chunkStop]
  omega

theorem refill_lt {n m : Nat} (h : m < refills n) : ChunkSize + fresh * m < n := by
  have hle : (m + 1) * fresh ≤ n - 10 := (Nat.le_div_iff_mul_le (by decide)).mp h
  have hfresh : fresh = 4087 := rfl
  have hsize : ChunkSize = 4096 := rfl
  rw [hfresh] at hle ⊢
  omega

theorem chunkStop_last (n : Nat) : chunkStop n (refills n) = n := by
  have hlt := Nat.lt_div_mul_add (a := n - 10) (show 0 < fresh by decide)
  have hfresh : fresh = 4087 := rfl
  have hsize : ChunkSize = 4096 := rfl
  rw [chunkStop, refills]
  rw [hfresh] at hlt ⊢
  omega

theorem fresh_succ (m : Nat) : fresh * (m + 1) = fresh * m + fresh := Nat.mul_succ _ _

/-- What a refill leaves in the buffer. -/
theorem chunk_succ {m : Nat} (h : ChunkSize + fresh * m < data.length) :
    (chunk data m).drop ((chunk data m).length - 8 - 1) ++
        (data.drop (ChunkSize + fresh * m)).take fresh = chunk data (m + 1) := by
  have hfresh : fresh = 4087 := rfl
  have hsize : ChunkSize = 4096 := rfl
  have hsucc := fresh_succ m
  have hlen : (chunk data m).length = 4096 := by
    rw [length_chunk (by omega), chunkStop]
    omega
  have hkept : (chunk data m).drop ((chunk data m).length - 8 - 1) =
      (data.drop (fresh * (m + 1))).take 9 := by
    have hstop : chunkStop data.length m - fresh * m - (4096 - 8 - 1) = 9 := by
      rw [chunkStop]
      omega
    have hstart : fresh * m + (4096 - 8 - 1) = fresh * (m + 1) := by omega
    rw [hlen, chunk, List.drop_take, List.drop_drop, hstop, hstart]
  have hread : (data.drop (ChunkSize + fresh * m)).take fresh =
      ((data.drop (fresh * (m + 1))).drop 9).take fresh := by
    have hstart : fresh * (m + 1) + 9 = ChunkSize + fresh * m := by omega
    rw [List.drop_drop, hstart]
  have hall : (data.drop (fresh * (m + 1))).take (9 + fresh) = chunk data (m + 1) := by
    have hstop : chunkStop data.length (m + 1) - fresh * (m + 1) =
        min (data.length - fresh * (m + 1)) (9 + fresh) := by
      rw [chunkStop]
      omega
    have hdrop : (data.drop (fresh * (m + 1))).length = data.length - fresh * (m + 1) :=
      List.length_drop
    rw [chunk, hstop, ← hdrop, Nat.min_comm, ← List.take_take, List.take_length]
  rw [hkept, hread, ← List.take_add, hall]

variable {before : Nat → UInt8} {fh : FileHandle}

theorem chunkStop_of_lt {n m : Nat} (h : ChunkSize + fresh * m < n) :
    chunkStop n m = ChunkSize + fresh * m := Nat.min_eq_right (Nat.le_of_lt h)

/-- The scan of the chunk that is in the buffer. -/
theorem scanChunk_chunk {m : Nat} (h : fresh * m ≤ data.length) (prev : UInt8) (s : Scan) :
    scanChunk prev (chunk data m) (chunkStop data.length m - (chunk data m).length) s =
      (looksFrom data prev (fresh * m) (chunkStop data.length m - 8 - fresh * m)).foldl
        (look data) s := by
  have hlen := length_chunk h
  have hstart : chunkStop data.length m - (chunk data m).length = fresh * m := by
    rw [hlen, chunkStop]
    omega
  have hfront : chunk data m <+: data.drop (fresh * m) := List.take_prefix _ _
  rw [hstart, scanChunk_eq prev hfront, hlen, Nat.sub_right_comm]

theorem fresh_le {n m : Nat} (h : m ≤ refills n) : fresh * m ≤ n := by
  cases m with
  | zero => exact Nat.zero_le n
  | succ m =>
      have hlt := refill_lt (Nat.lt_of_succ_le h)
      have hsucc := fresh_succ m
      have hfresh : fresh = 4087 := rfl
      have hsize : ChunkSize = 4096 := rfl
      omega

/-- A pass with more of the file behind the chunk. -/
theorem scanLoop_again (before : Nat → UInt8) {m : Nat} (hm : m < refills fh.data.length)
    (hpos : fh.pos = chunkStop fh.data.length m) (s : Scan) :
    ((scanLoop before fh.data.length).body
        (chunk fh.data m, chunkStop fh.data.length m, s)).run fh =
      .ok (.again (chunk fh.data (m + 1), chunkStop fh.data.length (m + 1),
          (chunkLooks before fh.data m).foldl (look fh.data) s),
        { fh with pos := chunkStop fh.data.length (m + 1) }) := by
  have hfresh : fresh = 4087 := rfl
  have hsize : ChunkSize = 4096 := rfl
  have hsucc := fresh_succ m
  have hlt := refill_lt hm
  have hstop := chunkStop_of_lt hlt
  have hrest : fh.rest.take fresh = (fh.data.drop (ChunkSize + fresh * m)).take fresh := by
    rw [rest, hpos, hstop]
  have hne : fh.rest.take fresh ≠ [] := by
    apply List.ne_nil_of_length_pos
    rw [hrest, List.length_take, List.length_drop]
    omega
  have hnext : chunkStop fh.data.length m + (fh.rest.take fresh).length =
      chunkStop fh.data.length (m + 1) := by
    rw [hrest, List.length_take, List.length_drop, hstop, chunkStop]
    omega
  have hread := run_tryRead hne
  have hbuf := chunk_succ hlt
  rw [← hrest] at hbuf
  rw [scanLoop]
  dsimp only
  rw [scanChunk_chunk (fresh_le (Nat.le_of_lt hm)), if_neg (by omega)]
  refine (FileM.run_bind_ok hread).trans ?_
  show Except.ok (Pass.again (_, _, _), _) = _
  rw [hbuf, hnext, skip, hpos, hnext]
  rfl

/-- A pass at the end of the file. -/
theorem scanLoop_done (hpos : fh.pos = chunkStop fh.data.length (refills fh.data.length))
    (s : Scan) :
    ((scanLoop before fh.data.length).body (chunk fh.data (refills fh.data.length),
        chunkStop fh.data.length (refills fh.data.length), s)).run fh =
      .ok (.done ((chunkLooks before fh.data (refills fh.data.length)).foldl (look fh.data) s).bl,
        { fh with pos := fh.data.length }) := by
  have hlast := chunkStop_last fh.data.length
  rw [scanLoop]
  dsimp only
  have hend : ({ fh with pos := fh.data.length } : FileHandle) = fh := by
    rw [← hlast, ← hpos]
  rw [scanChunk_chunk (fresh_le (Nat.le_refl _)), if_pos hlast.symm, hend]
  rfl

/-- A run from a chunk on makes the looks at it and at those behind it. -/
theorem run_scanLoop {k m : Nat} (hk : m + k = refills fh.data.length)
    (hpos : fh.pos = chunkStop fh.data.length m) (s : Scan) :
    ((scanLoop before fh.data.length).run (chunk fh.data m, chunkStop fh.data.length m, s)).run fh =
      .ok ((((List.range' m (k + 1)).flatMap (chunkLooks before fh.data)).foldl
        (look fh.data) s).bl,
        { fh with pos := fh.data.length }) := by
  induction k generalizing m s fh with
  | zero =>
      obtain rfl : m = refills fh.data.length := hk
      rw [FileLoop.run_done (scanLoop_done hpos s)]
      simp
  | succ k ih =>
      have hagain := scanLoop_again before (show m < refills fh.data.length by omega)
        hpos s
      have hrest := @ih { fh with pos := chunkStop fh.data.length (m + 1) } (m + 1) (by
        rw [← hk]
        omega) rfl ((chunkLooks before fh.data m).foldl (look fh.data) s)
      have hlooks : (List.range' m (k + 1 + 1)).flatMap (chunkLooks before fh.data) =
          chunkLooks before fh.data m ++
            (List.range' (m + 1) (k + 1)).flatMap (chunkLooks before fh.data) := by
        rw [List.range'_succ, List.flatMap_cons]
      rw [FileLoop.run_again hagain, hlooks, List.foldl_append]
      exact hrest

/-- The state in which the search starts. -/
def scanStart : Scan := ⟨lcreset + 1, 0, []⟩

/-- The search makes all looks at the file. -/
theorem run_findBlockBoundaryCandidates (before : Nat → UInt8) (hne : fh.data ≠ []) :
    (findBlockBoundaryCandidates before).run fh =
      .ok (((looks before fh.data).foldl (look fh.data) scanStart).bl,
        { fh with pos := fh.data.length }) := by
  have hlen := List.length_pos_iff.mpr hne
  have hsize : ChunkSize = 4096 := rfl
  have hread : (tryRead ChunkSize).run { fh with pos := 0 } =
      .ok (chunk fh.data 0, { fh with pos := chunkStop fh.data.length 0 }) := by
    have htake : fh.data.take ChunkSize ≠ [] := by
      apply List.ne_nil_of_length_pos
      rw [List.length_take]
      omega
    have hchunk : chunk fh.data 0 = fh.data.take ChunkSize := by
      rw [chunk, chunkStop, Nat.mul_zero, Nat.add_zero, List.drop_zero, Nat.sub_zero, Nat.min_comm,
        ← List.take_take, List.take_length]
    have hstop : (fh.data.take ChunkSize).length = chunkStop fh.data.length 0 := by
      rw [List.length_take, chunkStop, Nat.mul_zero, Nat.add_zero, Nat.min_comm]
    have hrun := @run_tryRead { fh with pos := 0 } ChunkSize htake
    rw [hrun, hchunk]
    show Except.ok (_, _) = _
    rw [rest, skip, List.drop_zero, hstop, Nat.zero_add]
  have hstop : (chunk fh.data 0).length = chunkStop fh.data.length 0 := by
    rw [length_chunk (Nat.zero_le _), Nat.mul_zero, Nat.sub_zero]
  have hseek : (seek 0 .set).run fh = .ok (0, { fh with pos := 0 }) := run_seek_set 0
  rw [findBlockBoundaryCandidates, FileM.run_bind_ok run_size, FileM.run_bind_ok hseek,
    FileM.run_bind_ok hread, hstop]
  exact @run_scanLoop before { fh with pos := chunkStop fh.data.length 0 }
    (refills fh.data.length) 0 (Nat.zero_add _) rfl scanStart

/-- The looks at bytes in a row; only in front of the first one is not what the file has
there. -/
theorem mem_looksFrom {prev : UInt8} {pos n : Nat} : l ∈ looksFrom data prev pos n ↔
    pos ≤ l.pos ∧ l.pos < pos + n ∧
      l.prev = if l.pos = pos then prev else data.getD (l.pos - 1) 0 := by
  induction n generalizing prev pos with
  | zero =>
      simp only [looksFrom, List.not_mem_nil, false_iff]
      omega
  | succ n ih =>
      have hl : l = ⟨prev, pos⟩ ↔ l.pos = pos ∧ l.prev = prev := by
        obtain ⟨p, q⟩ := l
        simp only [Look.mk.injEq]
        exact and_comm
      rw [looksFrom, List.mem_cons, ih, hl]
      by_cases hfirst : l.pos = pos
      · rw [if_pos hfirst]
        constructor
        · rintro (⟨-, hprev⟩ | ⟨hle, -⟩)
          · exact ⟨Nat.le_of_eq hfirst.symm, by omega, hprev⟩
          · omega
        · exact fun ⟨_, _, hprev⟩ => .inl ⟨hfirst, hprev⟩
      · have hprev : (if l.pos = pos + 1 then data.getD pos 0 else data.getD (l.pos - 1) 0) =
            data.getD (l.pos - 1) 0 := by
          split
          · rename_i hnext
            rw [hnext, Nat.add_sub_cancel]
          · rfl
        rw [if_neg hfirst, hprev]
        constructor
        · rintro (⟨hpos, -⟩ | ⟨hle, hlt, hl⟩)
          · exact absurd hpos hfirst
          · exact ⟨by omega, by omega, hl⟩
        · exact fun ⟨hle, hlt, hl⟩ => .inr ⟨by omega, by omega, hl⟩

theorem mem_chunkLooks {m : Nat} : l ∈ chunkLooks before data m ↔
    fresh * m ≤ l.pos ∧ l.pos + 8 < chunkStop data.length m ∧
      l.prev = if l.pos = fresh * m then before (chunkStop data.length m)
        else data.getD (l.pos - 1) 0 := by
  rw [chunkLooks, mem_looksFrom]
  constructor
  · exact fun ⟨hle, hlt, hprev⟩ => ⟨hle, by omega, hprev⟩
  · exact fun ⟨hle, hlt, hprev⟩ => ⟨hle, by omega, hprev⟩

theorem mem_looks : l ∈ looks before data ↔
    ∃ m ≤ refills data.length, l ∈ chunkLooks before data m := by
  rw [looks, List.mem_flatMap]
  simp only [List.mem_range'_1, Nat.zero_le, true_and, Nat.zero_add, Nat.lt_succ_iff]

/-- Eight bytes are behind every look. -/
theorem look_inFile (h : l ∈ looks before data) : l.pos + 9 ≤ data.length := by
  obtain ⟨m, -, hl⟩ := mem_looks.mp h
  obtain ⟨-, hlt, -⟩ := mem_chunkLooks.mp hl
  have hle : chunkStop data.length m ≤ data.length := Nat.min_le_left _ _
  omega

/-- The 48 bits of a file from one bit on. -/
def bitsAt (data : Buffer) (pos : Nat) : List Bool := ((toBits data).drop pos).take 48

theorem drop_cons {pos : Nat} (h : pos < data.length) :
    data.getD pos 0 :: data.drop (pos + 1) = data.drop pos := by
  rw [List.drop_eq_getElem_cons h, List.getD_eq_getElem?_getD, List.getElem?_eq_getElem h]
  rfl

theorem toBits_drop_cons {pos : Nat} (h : pos < data.length) :
    toBits (data.drop pos) = byteBits (data.getD pos 0) ++ toBits (data.drop (pos + 1)) := by
  rw [← drop_cons h, toBits_cons]

/-- With the byte of the file in front of it, a window shows bits of the file. -/
theorem bits_inFile {pos : Nat} (hpos : 0 < pos) (h : pos ≤ data.length) (b : Fin 8) :
    (byteBits (data.getD (pos - 1) 0)).drop (8 - b) ++ (toBits (data.drop pos)).take (48 - b) =
      bitsAt data (8 * pos - b) := by
  have hb := b.isLt
  have hprev := toBits_drop_cons (show pos - 1 < data.length by omega)
  have hsub : pos - 1 + 1 = pos := Nat.sub_add_cancel hpos
  have hcut : 8 * pos - b.val = 8 * (pos - 1) + (8 - b.val) := by omega
  have hlen : ((byteBits (data.getD (pos - 1) 0)).drop (8 - b)).length = b.val := by
    rw [List.length_drop, length_byteBits]
    omega
  have hlong : ((byteBits (data.getD (pos - 1) 0)).drop (8 - b)).length ≤ 48 := by omega
  rw [hsub] at hprev
  rw [bitsAt, hcut, ← List.drop_drop, ← toBits_drop, hprev,
    List.drop_append_of_le_length (by rw [length_byteBits]; omega), List.take_append, hlen,
    List.take_of_length_le hlong]

/-- At the start of a byte, the byte in front of it does not matter. -/
theorem bits_aligned (prev : UInt8) (pos : Nat) :
    (byteBits prev).drop (8 - (0 : Fin 8).val) ++
        (toBits (data.drop pos)).take (48 - (0 : Fin 8).val) =
      bitsAt data (8 * pos) := by
  have hnil : (byteBits prev).drop 8 = [] :=
    List.drop_eq_nil_of_le (Nat.le_of_eq (length_byteBits _))
  rw [bitsAt, ← toBits_drop]
  show (byteBits prev).drop 8 ++ _ = _
  rw [hnil]
  rfl

theorem bitsAt_aligned (data : Buffer) (pos : Nat) :
    bitsAt data (8 * pos) = toBits ((data.drop pos).take BlockMagicBytes) := by
  rw [bitsAt, toBits_take, toBits_drop]
  rfl

theorem backBits_iff (x : UInt8) (b : Fin 8) :
    (backBits[x.toNat]?).join = some b ↔ x = firstByte BlockMagic b ∨ x = firstByte EOSMagic b := by
  have hall : ∀ (n : Fin 256) (b : Fin 8), (backBits[n.val]?).join = some b ↔
      UInt8.ofNat n = firstByte BlockMagic b ∨ UInt8.ofNat n = firstByte EOSMagic b := by
    decide +kernel
  have hx := hall ⟨x.toNat, x.toNat_lt⟩ b
  rwa [UInt8.ofNat_toNat] at hx

theorem magicBits_firstByte (hmagic : v = BlockMagic ∨ v = EOSMagic) (b : Fin 8) :
    ((magicBits v).drop b).take 8 = byteBits (firstByte v b) := by
  have hall : ∀ b : Fin 8,
      ((magicBits BlockMagic).drop b).take 8 = byteBits (firstByte BlockMagic b) ∧
        ((magicBits EOSMagic).drop b).take 8 = byteBits (firstByte EOSMagic b) := by
    decide +kernel
  obtain rfl | rfl := hmagic
  · exact (hall b).1
  · exact (hall b).2

/-- The first full byte of a magic number tells how many bits are in front of it. -/
theorem backBits_of_bits {x : UInt8} {front back : List Bool} (hb : front.length = b.val)
    (hmagic : v = BlockMagic ∨ v = EOSMagic)
    (h : front ++ (byteBits x ++ back).take (48 - b) = magicBits v) :
    (backBits[x.toNat]?).join = some b := by
  have hlt := b.isLt
  have hx : byteBits x = byteBits (firstByte v b) := by
    rw [← magicBits_firstByte hmagic, ← h, ← hb, List.drop_left, List.take_take,
      Nat.min_eq_left (by omega),
        List.take_append_of_le_length (Nat.le_of_eq (length_byteBits x).symm),
      ← length_byteBits x, List.take_length]
  rw [backBits_iff, byteBits_inj hx]
  obtain rfl | rfl := hmagic
  · exact .inl rfl
  · exact .inr rfl

/-- A look finds a magic number exactly if its bits are there, the first ones at the end of
the byte in front. -/
theorem hit_iff (h : l.pos + 8 ≤ data.length) : hit data l = some (v, b) ↔
    (v = BlockMagic ∨ v = EOSMagic) ∧
      (byteBits l.prev).drop (8 - b) ++ (toBits (data.drop l.pos)).take (48 - b) = magicBits v := by
  have hlen : 8 ≤ (data.drop l.pos).length := by
    rw [List.length_drop]
    omega
  rw [hit, drop_cons (by omega)]
  constructor
  · intro hhit
    cases hback : (backBits[(data.getD l.pos 0).toNat]?).join with
    | none =>
        rw [hback] at hhit
        cases hhit
    | some b' =>
        rw [hback, Option.bind_some] at hhit
        dsimp only at hhit
        split at hhit
        · rename_i hmagic
          cases hhit
          exact ⟨hmagic, (wordAt_eq_iff hlen hmagic).mp rfl⟩
        · cases hhit
  · rintro ⟨hmagic, hbits⟩
    have hback : (backBits[(data.getD l.pos 0).toNat]?).join = some b := by
      have hfront : ((byteBits l.prev).drop (8 - b)).length = b.val := by
        rw [List.length_drop, length_byteBits]
        omega
      have hcons := hbits
      rw [toBits_drop_cons (by omega)] at hcons
      exact backBits_of_bits hfront hmagic hcons
    have hword := (wordAt_eq_iff hlen hmagic).mpr hbits
    rw [hback, Option.bind_some]
    dsimp only
    rw [hword, if_pos hmagic]

end Bzip2File

end Lzopfs
