import Lzopfs.Bzip2File

/-!
# Realigning a block

The buffer that is made of a block is, bit by bit, a header, the bits of the block, the
magic number of the end of a stream and the checksum of the block, whatever the two bit
offsets are and whatever was in the buffer before.
-/

namespace Lzopfs

open Verify FileHandle

namespace Bzip2File

section Buffers

variable {front back xs : Buffer} {x t : UInt8} {l r : Nat}

theorem put_append (y : UInt8) :
    put (front ++ x :: back) front.length y = some ((front ++ [y]) ++ back) := by
  rw [put, if_pos (by simp)]
  simp

/-- The bytes in front of `t` are shifted, the last one with `t`. -/
theorem shiftLoop_run (l r : Nat) (front xs back : Buffer) (t : UInt8) :
    shiftLoop l r xs.length front.length (front ++ (xs ++ t :: back)) =
      some (front ++ (shiftBytes l r (xs ++ [t]) ++ t :: back)) := by
  induction xs generalizing front with
  | nil => rfl
  | cons x xs ih =>
      obtain ⟨y, ys, hys⟩ : ∃ y ys, xs ++ [t] = y :: ys :=
        List.exists_cons_of_ne_nil (by simp)
      have hrest : xs ++ t :: back = y :: (ys ++ back) := by
        rw [← List.singleton_append, ← List.append_assoc, hys]
        rfl
      have hx : (front ++ (x :: (xs ++ t :: back)))[front.length]? = some x := by simp
      have hy : (front ++ (x :: (xs ++ t :: back)))[front.length + 1]? = some y := by
        rw [List.getElem?_append_right (Nat.le_add_right _ _), Nat.add_sub_cancel_left, hrest]
        rfl
      have hnext := ih (front ++ [shiftByte x y l r])
      rw [List.length_append, List.length_singleton, List.append_assoc, List.append_assoc,
        List.singleton_append, List.singleton_append] at hnext
      rw [List.length_cons, List.cons_append, shiftLoop, hx, hy]
      show (put _ _ _ >>= fun b => shiftLoop l r xs.length (front.length + 1) b) = _
      rw [put_append]
      show shiftLoop l r xs.length (front.length + 1) _ = _
      rw [List.append_assoc, List.singleton_append, hnext, List.cons_append, hys, shiftBytes]
      rfl

/-- The footer replaces as many bytes as it has. -/
theorem writeFooter_run (l r : Nat) (front ep back : Buffer) (h : ep.length ≤ back.length) :
    writeFooter l r ep front.length (front ++ back) =
      some (front ++ (shiftBytes l r (ep ++ [0]) ++ back.drop ep.length)) := by
  induction ep generalizing front back with
  | nil => rfl
  | cons x ep ih =>
      obtain ⟨z, back, rfl⟩ :=
        List.exists_cons_of_length_pos (Nat.lt_of_lt_of_le (Nat.succ_pos _) h)
      cases ep with
      | nil =>
          have hlast : shiftByte x 0 l r = UInt8.ofNat (x.toNat <<< l) := by
            rw [shiftByte, UInt8.toNat_zero, Nat.zero_shiftRight, Nat.or_zero]
          rw [writeFooter, put_append, ← hlast, List.append_assoc]
          rfl
      | cons y ep =>
          have hnext := ih (front ++ [shiftByte x y l r]) back (Nat.le_of_succ_le_succ h)
          rw [List.length_append, List.length_singleton] at hnext
          rw [writeFooter, put_append]
          show writeFooter l r (y :: ep) (front.length + 1) _ = _
          rw [hnext, List.append_assoc]
          rfl

theorem exists_concat {α : Type} {l : List α} (h : l ≠ []) : ∃ init a, l = init ++ [a] :=
  ⟨l.dropLast, l.getLast h, (List.dropLast_append_getLast h).symm⟩

theorem blit_front (b hdr data : Buffer) :
    Buffer.blit (Buffer.blit b 0 hdr) hdr.length data =
      hdr ++ (data ++ b.drop (hdr.length + data.length)) := by
  rw [Buffer.blit, Buffer.blit, List.take_zero, List.nil_append, Nat.zero_add, List.take_left,
    List.append_assoc, List.drop_length_add_append, List.drop_drop]

end Buffers

section Footer

variable {hdr kept data rest ep : Buffer} {e : Nat}

/-- Putting the footer behind the last full or partly filled byte joins the bits. -/
theorem toBits_join (x y : UInt8) (kept ep : Buffer) (he : e ≤ 8) :
    toBits (kept ++ [mergeByte x y e (8 - e)]) ++
        toBits (shiftBytes e (8 - e) ((y :: ep) ++ [0])) =
      (toBits (kept ++ [x])).take (8 * (kept.length + 1) - e) ++
        (toBits (y :: ep) ++ List.replicate e false) := by
  have hsum : e + (8 - e) = 8 := by omega
  have hzero : byteBits 0 = List.replicate 8 false := by decide
  have hlast : (toBits (kept ++ [x])).take (8 * (kept.length + 1) - e) =
      toBits kept ++ (byteBits x).take (8 - e) := by
    have hlen : 8 * (kept.length + 1) - e = (toBits kept).length + (8 - e) := by
      rw [length_toBits]
      omega
    rw [toBits_append, hlen, List.take_length_add_append, toBits_cons, toBits_nil, List.append_nil]
  have hy : e ≤ (byteBits y).length := by
    rw [length_byteBits]
    exact he
  have hfooter : toBits (shiftBytes e (8 - e) ((y :: ep) ++ [0])) =
      (byteBits y).drop e ++ (toBits ep ++ List.replicate e false) := by
    rw [toBits_shiftBytes_concat _ _ hsum, toBits_cons, List.append_assoc,
      List.drop_append_of_le_length hy, hzero]
    have hlen : 8 * (y :: ep).length =
        ((byteBits y).drop e).length + ((toBits ep).length + e) := by
      rw [List.length_drop, length_byteBits, length_toBits, List.length_cons]
      omega
    rw [hlen, List.take_length_add_append, List.take_length_add_append, List.take_replicate,
      Nat.min_eq_left he]
  rw [hlast, hfooter, toBits_append, toBits_cons, toBits_nil, List.append_nil,
    byteBits_mergeByte x y hsum, toBits_cons]
  simp only [List.append_assoc]
  rw [← List.append_assoc ((byteBits y).take e), List.take_append_drop]

/-- The bits of a footer of at least one byte, behind bytes of which `e` bits are free. -/
theorem footer_bits (he : e < 8) (hkept : kept ≠ []) (hep : ep ≠ [])
    (hrest : ep.length ≤ rest.length) :
    ∃ merged b junk,
      mergeFooter e (8 - e) ep (hdr.length + kept.length) (hdr ++ (kept ++ rest)) = some merged ∧
        writeFooter e (8 - e) ep (hdr.length + kept.length) merged = some b ∧
        toBits b = toBits hdr ++ ((toBits kept).take (8 * kept.length - e) ++
          (toBits ep ++ (List.replicate e false ++ junk))) := by
  by_cases hzero : e = 0
  · subst hzero
    have hwrite := writeFooter_run 0 8 (hdr ++ kept) ep rest hrest
    rw [List.length_append, List.append_assoc, List.append_assoc] at hwrite
    have hfooter := @toBits_shiftBytes_concat 0 8 ep 0 rfl
    rw [List.drop_zero, ← length_toBits, List.take_left] at hfooter
    refine ⟨_, _, toBits (rest.drop ep.length), rfl, hwrite, ?_⟩
    rw [toBits_append, toBits_append, toBits_append, hfooter, Nat.sub_zero, ← length_toBits,
      List.take_length]
    rfl
  · obtain ⟨kept, x, rfl⟩ := exists_concat hkept
    obtain ⟨y, ep, rfl⟩ := List.exists_cons_of_ne_nil hep
    have hlen : hdr.length + (kept ++ [x]).length - 1 = (hdr ++ kept).length := by
      rw [List.length_append, List.length_append, List.length_singleton, ← Nat.add_assoc,
        Nat.add_sub_cancel]
    have hbuf : hdr ++ ((kept ++ [x]) ++ rest) = (hdr ++ kept) ++ x :: rest := by simp
    have hmerge : mergeFooter e (8 - e) (y :: ep) (hdr.length + (kept ++ [x]).length)
        (hdr ++ ((kept ++ [x]) ++ rest)) =
        some ((hdr ++ (kept ++ [mergeByte x y e (8 - e)])) ++ rest) := by
      have hget : ((hdr ++ kept) ++ x :: rest)[(hdr ++ kept).length]? = some x := by simp
      rw [mergeFooter, if_pos hzero, hlen, hbuf, hget, ← List.append_assoc hdr]
      exact put_append _
    have hwrite := writeFooter_run e (8 - e) (hdr ++ (kept ++ [mergeByte x y e (8 - e)])) (y :: ep)
      rest hrest
    have hpos : (hdr ++ (kept ++ [mergeByte x y e (8 - e)])).length =
        hdr.length + (kept ++ [x]).length := by simp
    rw [hpos] at hwrite
    refine ⟨_, _, toBits (rest.drop (y :: ep).length), hmerge, hwrite, ?_⟩
    have hjoin := toBits_join x y kept ep (Nat.le_of_lt he)
    have hsplit : ∀ merged footer tl : Buffer, toBits (hdr ++ merged ++ (footer ++ tl)) =
        toBits hdr ++ ((toBits merged ++ toBits footer) ++ toBits tl) := by
      intro merged footer tl
      simp only [toBits_append, List.append_assoc]
    rw [hsplit, hjoin, List.length_append, List.length_singleton]
    simp only [List.append_assoc]

theorem footer_word (crc : Buffer) :
    (beBytes 8 EOSMagic.toNat ++ crc).drop (8 - BlockMagicBytes) =
      beBytes 6 EOSMagic.toNat ++ crc := by
  have hword : beBytes 8 EOSMagic.toNat = [0, 0] ++ beBytes 6 EOSMagic.toNat := by decide +kernel
  rw [hword]
  rfl

/-- The byte that is emptied is the last one. -/
theorem clear_run (he : e < 16) (hdata : e ≤ 8 * data.length) (rest : Buffer) :
    ∃ kept more, kept <+: data ∧ kept.length + e / 8 = data.length ∧
      more.length = rest.length + e / 8 ∧
      (if 8 ≤ e then put (hdr ++ (data ++ rest)) (hdr.length + data.length - e / 8) 0
        else some (hdr ++ (data ++ rest))) = some (hdr ++ (kept ++ more)) := by
  by_cases hfull : 8 ≤ e
  · have hone : e / 8 = 1 := by omega
    obtain ⟨kept, x, rfl⟩ := @exists_concat _ data (by
      rintro rfl
      rw [List.length_nil] at hdata
      omega)
    have hpos : hdr.length + (kept ++ [x]).length - 1 = (hdr ++ kept).length := by
      rw [List.length_append, List.length_append, List.length_singleton, ← Nat.add_assoc,
        Nat.add_sub_cancel]
    have hbuf : hdr ++ ((kept ++ [x]) ++ rest) = (hdr ++ kept) ++ x :: rest := by simp
    refine ⟨kept, 0 :: rest, List.prefix_append _ _, ?_, ?_, ?_⟩
    · rw [hone, List.length_append, List.length_singleton]
    · rw [hone, List.length_cons]
    · rw [if_pos hfull, hone, hpos, hbuf, put_append]
      simp
  · have hnone : e / 8 = 0 := by omega
    refine ⟨data, rest, List.prefix_refl _, ?_, ?_, ?_⟩
    · rw [hnone, Nat.add_zero]
    · rw [hnone, Nat.add_zero]
    · rw [if_neg hfull]

/-- The steps of `putFooter`, one behind the other. -/
theorem putFooter_of {b cleared merged : Buffer} {fp : Nat}
    (hclear : (if 8 ≤ e then put b (fp - e / 8) 0 else some b) = some cleared)
    (hin : 14 ≤ cleared.length)
    (hmerge : mergeFooter (e % 8) (8 - e % 8)
      (beBytes 6 EOSMagic.toNat ++ (cleared.drop 10).take 4) (fp - e / 8) cleared = some merged) :
    putFooter e fp b = writeFooter (e % 8) (8 - e % 8)
      (beBytes 6 EOSMagic.toNat ++ (cleared.drop 10).take 4) (fp - e / 8) merged := by
  rw [putFooter, hclear]
  show ((if 14 ≤ cleared.length then some ((cleared.drop 10).take 4) else none).bind _) = _
  rw [if_pos hin]
  show ((mergeFooter _ _ ((beBytes 8 EOSMagic.toNat ++ _).drop (8 - BlockMagicBytes)) _ _).bind _) =
    _
  rw [footer_word, hmerge]
  show writeFooter _ _ ((beBytes 8 EOSMagic.toNat ++ _).drop (8 - BlockMagicBytes)) _ _ = _
  rw [footer_word]

theorem footer_ne_nil (crc : Buffer) : beBytes 6 EOSMagic.toNat ++ crc ≠ [] := by
  intro hnil
  have hlen := congrArg List.length hnil
  rw [List.length_append, length_beBytes] at hlen
  exact absurd hlen (by simp)

/-- The checksum is what stands at its place, which is in the data if that is long enough. -/
theorem putFooter_run (hhdr : hdr.length = 4) (hrest : 10 ≤ rest.length) (he : e < 16)
    (hdata : e < 8 * data.length) :
    ∃ b junk crc, putFooter e (4 + data.length) (hdr ++ (data ++ rest)) = some b ∧
      toBits b = toBits hdr ++ ((toBits data).take (8 * data.length - e) ++
        (toBits (beBytes 6 EOSMagic.toNat) ++ (crc ++
          (List.replicate (e % 8) false ++ junk)))) ∧
      (80 + e ≤ 8 * data.length → crc = ((toBits data).drop 48).take 32) := by
  obtain ⟨kept, more, ⟨tl, rfl⟩, hkept, hmore, hclear⟩ :=
    @clear_run hdr data e he (Nat.le_of_lt hdata) rest
  have heplen : (beBytes 6 EOSMagic.toNat ++
      ((hdr ++ (kept ++ more)).drop 10).take 4).length ≤ more.length := by
    rw [List.length_append, length_beBytes, List.length_take]
    omega
  have hkne : kept ≠ [] := List.ne_nil_of_length_pos (by omega)
  obtain ⟨merged, b, junk, hmerge, hwrite, hbits⟩ :=
    @footer_bits hdr kept more _ (e % 8) (Nat.mod_lt _ (by decide)) hkne (footer_ne_nil _) heplen
  have hk : toBits kept = (toBits (kept ++ tl)).take (8 * kept.length) := by
    rw [← toBits_take, List.take_left]
  refine ⟨b, junk, toBits (((hdr ++ (kept ++ more)).drop 10).take 4), ?_, ?_, ?_⟩
  · have hip : 4 + (kept ++ tl).length - e / 8 = hdr.length + kept.length := by omega
    have hin : 14 ≤ (hdr ++ (kept ++ more)).length := by
      rw [List.length_append, List.length_append, hhdr]
      have hpos := List.length_pos_iff.mpr hkne
      omega
    rw [hhdr] at hclear
    rw [← hip] at hmerge hwrite
    exact (putFooter_of hclear hin hmerge).trans hwrite
  · have hrange : (toBits kept).take (8 * kept.length - e % 8) =
        (toBits (kept ++ tl)).take (8 * (kept ++ tl).length - e) := by
      rw [hk, List.take_take]
      congr 1
      omega
    rw [hbits, hrange, toBits_append (beBytes _ _), List.append_assoc]
  · intro hlong
    have hten : 10 ≤ kept.length := by omega
    have hcrc : ((hdr ++ (kept ++ more)).drop 10).take 4 = (kept.drop 6).take 4 := by
      have hpos : 10 = hdr.length + 6 := by omega
      rw [hpos, List.drop_length_add_append, List.drop_append_of_le_length (by omega),
        List.take_append_of_le_length (by rw [List.length_drop]; omega)]
    rw [hcrc, toBits_append, List.drop_append_of_le_length (by rw [length_toBits]; omega),
      List.take_append_of_le_length (by rw [List.length_drop, length_toBits]; omega),
      toBits_take, toBits_drop]

end Footer

section Aligned

variable {fh : FileHandle} {coff bits stop endbits : Nat}

/-- The bits from `bits` bits before the byte at `coff` to `endbits` bits before the one
at `stop`. -/
def rangeBits (fh : FileHandle) (coff bits stop endbits : Nat) : List Bool :=
  ((toBits fh.data).drop (8 * coff - bits)).take (8 * (stop - coff) + bits - endbits)

/-- A file of one block: its header, the bits of the block, and the footer with the
checksum that stands behind the magic number of the block. -/
def oneBlockFile (level : UInt8) (range : List Bool) : List Bool :=
  toBits (Magic ++ [level]) ++
    (range ++ (toBits (beBytes BlockMagicBytes EOSMagic.toNat) ++ (range.drop 48).take 32))

theorem length_oneBlockFile (level : UInt8) {range : List Bool} (h : 80 ≤ range.length) :
    (oneBlockFile level range).length = range.length + 112 := by
  have hmagic : (Magic ++ [level]).length = 4 := rfl
  rw [oneBlockFile, List.length_append, List.length_append, List.length_append, length_toBits,
    length_toBits, length_beBytes, List.length_take, List.length_drop, hmagic]
  show 8 * 4 + (range.length + (8 * 6 + _)) = _
  omega

theorem shiftData_run (hbits : bits < 8) (hcoff : 1 ≤ coff) (hin : stop ≤ fh.data.length)
    (hlt : coff ≤ stop) {hdr data rest : Buffer} {prev : Nat}
    (hprev : prev = if bits ≠ 0 then 1 else 0)
    (hdata : data = (fh.data.drop (coff - prev)).take (stop - coff + prev))
    (hrest : rest ≠ []) :
    ∃ moved, shiftData bits data.length hdr.length (hdr ++ (data ++ rest)) =
        some (hdr ++ (moved ++ rest)) ∧ moved.length = data.length ∧
      (toBits moved).take (8 * (stop - coff) + bits) =
        ((toBits fh.data).drop (8 * coff - bits)).take (8 * (stop - coff) + bits) := by
  have hone : prev ≤ 1 := by
    rw [hprev]
    split
    · exact Nat.le_refl 1
    · exact Nat.zero_le 1
  have hlen : data.length = stop - coff + prev := by
    rw [hdata, List.length_take, List.length_drop]
    omega
  by_cases hzero : bits = 0
  · subst hzero
    rw [if_neg (by simp)] at hprev
    subst hprev
    refine ⟨data, rfl, rfl, ?_⟩
    rw [hdata, toBits_take, toBits_drop, List.take_take]
    congr 1
    omega
  · rw [if_pos hzero] at hprev
    subst hprev
    obtain ⟨t, back, rfl⟩ := List.exists_cons_of_ne_nil hrest
    refine ⟨shiftBytes (8 - bits) bits (data ++ [t]), ?_, ?_, ?_⟩
    · rw [shiftData, if_pos hzero, shiftLoop_run]
    · rw [length_shiftBytes, List.length_append, List.length_singleton]
      rfl
    · have hsum : 8 - bits + bits = 8 := by omega
      have hdrop : 8 - bits ≤ (toBits data).length := by
        rw [length_toBits]
        omega
      rw [toBits_shiftBytes_concat _ _ hsum, List.take_take, List.drop_append_of_le_length hdrop,
        List.take_append_of_le_length (by rw [List.length_drop, length_toBits]; omega), hdata,
        toBits_take, toBits_drop, List.drop_take, List.drop_drop, List.take_take, ← hdata]
      congr 1
      · omega
      · congr 1
        omega

/-- A buffer is the header, the range of bits, and the footer with a checksum: that of the block,
if the range is long enough to have one. -/
theorem createAlignedBlock_run (fh : FileHandle) (b : Buffer) (level : UInt8)
    (hcoff : 1 ≤ coff) (hbits : bits < 8) (hendbits : endbits < 8)
    (hrange : 8 * coff + endbits < 8 * stop + bits)
    (hin : 8 * stop ≤ 8 * fh.data.length + endbits) :
    ∃ aligned crc pad junk,
      createAlignedBlock fh b level coff bits stop endbits = .ok (some aligned) ∧
        pad = (8 * (if bits ≠ 0 then 1 else 0) - bits + endbits) % 8 ∧
        (rangeBits fh coff bits stop endbits).length = 8 * (stop - coff) + bits - endbits ∧
        toBits aligned = toBits (Magic ++ [level]) ++ (rangeBits fh coff bits stop endbits ++
          (toBits (beBytes BlockMagicBytes EOSMagic.toNat) ++
            (crc ++ (List.replicate pad false ++ junk)))) ∧
        (80 ≤ (rangeBits fh coff bits stop endbits).length →
          crc = ((rangeBits fh coff bits stop endbits).drop 48).take 32) := by
  obtain ⟨prev, hprev⟩ : ∃ prev, prev = if bits ≠ 0 then 1 else 0 := ⟨_, rfl⟩
  obtain ⟨data, hdata⟩ : ∃ data, data = (fh.data.drop (coff - prev)).take (stop - coff + prev) :=
    ⟨_, rfl⟩
  have hprev8 : 8 * prev - bits + endbits < 16 ∧ bits ≤ 8 * prev ∧ prev ≤ 1 ∧
      (prev = 1 ∨ bits = 0) := by
    rw [hprev]
    split <;> omega
  have hlen : data.length = stop - coff + prev := by
    rw [hdata, List.length_take, List.length_drop]
    omega
  have hread : fh.tryPReadAt ((coff : Int) - prev) (stop - coff + prev) = .ok data := by
    rw [tryPReadAt_sub fh (by omega)]
    have hne : data ≠ [] := List.ne_nil_of_length_pos (by omega)
    rw [hdata] at hne ⊢
    exact if_neg hne
  obtain ⟨filled, hfilled⟩ : ∃ filled, filled =
      Buffer.resize b (Magic.length + 1 + prev + (stop - coff) + BlockMagicBytes + 4) := ⟨_, rfl⟩
  have htotal : filled.length = 14 + prev + (stop - coff) := by
    rw [hfilled, Buffer.length_resize]
    show 4 + prev + (stop - coff) + 6 + 4 = _
    omega
  have hrest : (filled.drop ((Magic ++ [level]).length + data.length)).length = 10 := by
    rw [List.length_drop]
    show _ - (4 + _) = _
    omega
  obtain ⟨moved, hmove, hmoved, hmoves⟩ :=
    @shiftData_run fh coff bits stop hbits hcoff (by omega) (by omega) (Magic ++ [level]) data
      (filled.drop ((Magic ++ [level]).length + data.length)) prev hprev hdata
      (List.ne_nil_of_length_pos (by omega))
  obtain ⟨aligned, junk, crc, hput, haligned, hcrc⟩ :=
    @putFooter_run (Magic ++ [level]) moved
      (filled.drop ((Magic ++ [level]).length + data.length)) (8 * prev - bits + endbits)
      rfl (by omega) hprev8.1 (by omega)
  have hcut : (toBits moved).take (8 * moved.length - (8 * prev - bits + endbits)) =
      rangeBits fh coff bits stop endbits := by
    have hle : 8 * moved.length - (8 * prev - bits + endbits) =
        min (8 * (stop - coff) + bits - endbits) (8 * (stop - coff) + bits) := by omega
    rw [hle, ← List.take_take, hmoves, List.take_take, Nat.min_eq_left (Nat.sub_le _ _)]
    rfl
  have hrlen : (rangeBits fh coff bits stop endbits).length =
      8 * (stop - coff) + bits - endbits := by
    rw [← hcut, List.length_take, length_toBits]
    omega
  refine ⟨aligned, crc, (8 * prev - bits + endbits) % 8, junk, ?_, by rw [hprev], hrlen, ?_, ?_⟩
  · rw [createAlignedBlock, ← hprev, hread, ← hfilled]
    show Except.ok ((shiftData bits data.length (Magic.length + 1)
      (Buffer.blit (Buffer.blit filled 0 (Magic ++ [level])) (Magic.length + 1) data)).bind _) = _
    have hblit := blit_front filled (Magic ++ [level]) data
    rw [show Magic.length + 1 = (Magic ++ [level]).length from rfl, hblit, hmove]
    rw [hmoved] at hput
    exact congrArg Except.ok hput
  · rw [haligned, hcut]
    rfl
  · intro hlong
    rw [hcrc (by omega), ← hcut, List.drop_take, List.take_take, Nat.min_eq_left (by omega)]

/-- The buffer starts with the bits of a file of one block, whatever it held before, and
nothing outside of it is touched. -/
theorem createAlignedBlock_bits (fh : FileHandle) (b : Buffer) (level : UInt8)
    (coff bits stop endbits : Nat) (hcoff : 1 ≤ coff) (hbits : bits < 8) (hendbits : endbits < 8)
    (hlong : 8 * coff + 80 + endbits ≤ 8 * stop + bits)
    (hin : 8 * stop ≤ 8 * fh.data.length + endbits) :
    ∃ aligned pad, createAlignedBlock fh b level coff bits stop endbits = .ok (some aligned) ∧
      pad < 8 ∧
      8 ∣ (oneBlockFile level (rangeBits fh coff bits stop endbits)).length + pad ∧
      oneBlockFile level (rangeBits fh coff bits stop endbits) ++ List.replicate pad false <+:
        toBits aligned := by
  obtain ⟨aligned, crc, pad, junk, hcreate, hpad, hrlen, haligned, hcrc⟩ :=
    createAlignedBlock_run fh b level hcoff hbits hendbits (by omega) hin
  refine ⟨aligned, pad, hcreate, ?_, ?_, junk, ?_⟩
  · rw [hpad]
    exact Nat.mod_lt _ (by decide)
  · rw [length_oneBlockFile _ (by omega), hrlen, hpad]
    split <;> omega
  · rw [haligned, hcrc (by omega), oneBlockFile]
    simp only [List.append_assoc]

/-- A range that starts and ends inside bytes, in front of a stale buffer. -/
theorem createAlignedBlock_bits_unaligned :
    ∃ aligned pad, createAlignedBlock ⟨"f", List.replicate 12 0xa5, 0⟩ [1, 2, 3] 0x39 1 3 11 2 =
        .ok (some aligned) ∧
      pad < 8 ∧
      8 ∣ (oneBlockFile 0x39 (rangeBits ⟨"f", List.replicate 12 0xa5, 0⟩ 1 3 11 2)).length + pad ∧
      oneBlockFile 0x39 (rangeBits ⟨"f", List.replicate 12 0xa5, 0⟩ 1 3 11 2) ++
          List.replicate pad false <+: toBits aligned :=
  createAlignedBlock_bits ⟨"f", List.replicate 12 0xa5, 0⟩ [1, 2, 3] 0x39 1 3 11 2 (by decide)
    (by decide) (by decide) (by decide) (by simp)

end Aligned

section InBounds

variable {b ep : Buffer} {i ip fp e n l r : Nat} {x : UInt8}

theorem exists_put (x : UInt8) (h : i < b.length) :
    ∃ b', put b i x = some b' ∧ b'.length = b.length :=
  ⟨_, if_pos h, List.length_set⟩

theorem exists_shiftLoop (l r : Nat) (h : ip + n < b.length) :
    ∃ b', shiftLoop l r n ip b = some b' ∧ b'.length = b.length := by
  induction n generalizing ip b with
  | zero => exact ⟨b, rfl, rfl⟩
  | succ n ih =>
      obtain ⟨b', hput, hlen⟩ :=
        @exists_put b ip (shiftByte b[ip] b[ip + 1] l r) (by omega)
      obtain ⟨b'', hloop, hlen'⟩ := @ih b' (ip + 1) (by omega)
      refine ⟨b'', ?_, hlen'.trans hlen⟩
      rw [shiftLoop, List.getElem?_eq_getElem (by omega), List.getElem?_eq_getElem (by omega)]
      show (put _ _ _).bind _ = _
      rw [hput]
      exact hloop

theorem exists_shiftData {bits : Nat} (h : ip + n < b.length) :
    ∃ b', shiftData bits n ip b = some b' ∧ b'.length = b.length := by
  by_cases hzero : bits = 0
  · exact ⟨b, if_neg (by simp [hzero]), rfl⟩
  · obtain ⟨b', hloop, hlen⟩ := exists_shiftLoop (8 - bits) bits h
    exact ⟨b', (if_pos hzero).trans hloop, hlen⟩

theorem exists_mergeFooter (h : ip - 1 < b.length) (hep : ep ≠ []) :
    ∃ b', mergeFooter l r ep ip b = some b' ∧ b'.length = b.length := by
  by_cases hzero : l = 0
  · exact ⟨b, if_neg (by simp [hzero]), rfl⟩
  · obtain ⟨y, ep, rfl⟩ := List.exists_cons_of_ne_nil hep
    obtain ⟨b', hput, hlen⟩ := exists_put (mergeByte b[ip - 1] y l r) h
    refine ⟨b', ?_, hlen⟩
    rw [mergeFooter, if_pos hzero, List.getElem?_eq_getElem h]
    exact hput

theorem exists_writeFooter (l r : Nat) (ep : Buffer) (h : ip + ep.length ≤ b.length) :
    ∃ b', writeFooter l r ep ip b = some b' := by
  have hfront : (b.take ip).length = ip := by
    rw [List.length_take]
    omega
  have hrun := writeFooter_run l r (b.take ip) ep (b.drop ip) (by rw [List.length_drop]; omega)
  rw [hfront, List.take_append_drop] at hrun
  exact ⟨_, hrun⟩

theorem exists_putFooter (h : fp - e / 8 + 10 ≤ b.length) (hlen : 14 ≤ b.length) :
    ∃ b', putFooter e fp b = some b' := by
  obtain ⟨cleared, hclear, hcleared⟩ : ∃ cleared,
      (if 8 ≤ e then put b (fp - e / 8) 0 else some b) = some cleared ∧
        cleared.length = b.length := by
    by_cases hfull : 8 ≤ e
    · rw [if_pos hfull]
      exact exists_put 0 (by omega)
    · exact ⟨b, if_neg hfull, rfl⟩
  obtain ⟨merged, hmerge, hmerged⟩ :=
    @exists_mergeFooter cleared _ (fp - e / 8) (e % 8) (8 - e % 8) (by omega)
      (footer_ne_nil ((cleared.drop 10).take 4))
  obtain ⟨b', hwrite⟩ := @exists_writeFooter merged (fp - e / 8) (e % 8) (8 - e % 8)
    (beBytes 6 EOSMagic.toNat ++ (cleared.drop 10).take 4) (by
      rw [List.length_append, length_beBytes, List.length_take]
      omega)
  exact ⟨b', (putFooter_of hclear (by omega) hmerge).trans hwrite⟩

/-- From any place of the file on, a buffer is made, unless there is nothing to read. -/
theorem exists_createAlignedBlock (fh : FileHandle) (b : Buffer) (level : UInt8)
    {coff bits stop endbits : Nat} (hstart : bits ≤ 8 * coff) (hin : coff < fh.data.length)
    (hread : bits ≠ 0 ∨ coff < stop) :
    ∃ aligned, createAlignedBlock fh b level coff bits stop endbits = .ok (some aligned) := by
  obtain ⟨prev, hprev⟩ : ∃ prev, prev = if bits ≠ 0 then 1 else 0 := ⟨_, rfl⟩
  obtain ⟨data, hdata⟩ : ∃ data, data = (fh.data.drop (coff - prev)).take (stop - coff + prev) :=
    ⟨_, rfl⟩
  have hcase : (prev = 1 ∨ coff < stop) ∧ prev ≤ coff := by
    rw [hprev]
    split <;> omega
  have hlen : 0 < data.length ∧ data.length ≤ stop - coff + prev := by
    rw [hdata, List.length_take, List.length_drop]
    omega
  have hbytes : fh.tryPReadAt ((coff : Int) - prev) (stop - coff + prev) = .ok data := by
    rw [tryPReadAt_sub fh (by omega)]
    have hne : data ≠ [] := List.ne_nil_of_length_pos hlen.1
    rw [hdata] at hne ⊢
    exact if_neg hne
  obtain ⟨filled, hfilled⟩ : ∃ filled, filled =
      Buffer.resize b (Magic.length + 1 + prev + (stop - coff) + BlockMagicBytes + 4) := ⟨_, rfl⟩
  have htotal : filled.length = 14 + prev + (stop - coff) := by
    rw [hfilled, Buffer.length_resize]
    show 4 + prev + (stop - coff) + 6 + 4 = _
    omega
  have hmagic : (Magic ++ [level]).length = 4 := rfl
  have hhead : (Buffer.blit filled 0 (Magic ++ [level])).length = filled.length :=
    Buffer.length_blit (by omega)
  have hbody :
    (Buffer.blit (Buffer.blit filled 0 (Magic ++ [level])) (Magic.length + 1) data).length =
      filled.length := by
    rw [Buffer.length_blit (by rw [hhead]; show 4 + _ ≤ _; omega), hhead]
  obtain ⟨moved, hmove, hmoved⟩ := @exists_shiftData
    (Buffer.blit (Buffer.blit filled 0 (Magic ++ [level])) (Magic.length + 1) data)
    (Magic.length + 1) data.length bits (by rw [hbody]; show 4 + _ < _; omega)
  obtain ⟨aligned, hput⟩ := @exists_putFooter moved (Magic.length + 1 + data.length)
    (8 * prev - bits + endbits) (by rw [hmoved, hbody]; show 4 + _ - _ + 10 ≤ _; omega)
    (by rw [hmoved, hbody]; omega)
  refine ⟨aligned, ?_⟩
  rw [createAlignedBlock, ← hprev, hbytes, ← hfilled]
  show Except.ok ((shiftData bits data.length (Magic.length + 1) _).bind _) = _
  rw [hmove]
  exact congrArg Except.ok hput

end InBounds

end Bzip2File

end Lzopfs
