import Lzopfs.GzipAttempt
import Lzopfs.GzipBlockReader
import Lzopfs.Lib.Bits

/-!
# The bits a raw reader starts with

A deflate block may start inside a byte, whose upper bits a raw stream is primed with. Two
readers start so: the one that tries a block takes the byte in front of its input, and the one
that decodes a recorded block reads it from the file. They see the same bits where the byte is
still in the input buffer; at a block that ends before any byte of a fresh chunk is used, it is
not.
-/

namespace Lzopfs

open Verify FileHandle

/-- A stream that is primed as `GzipReaderBase::prime` does it. -/
def Zlib.primed (z : Zlib) (s : z.Stream) (byte : UInt8) (bits : Fin 8) : z.Stream :=
  if bits ≠ 0 then z.prime s bits (upperBits byte bits) else s

/-- The bits that such a stream has been given. -/
def primedBits (byte : UInt8) (bits : Fin 8) : List Bool :=
  (lsbBits (upperBits byte bits)).take bits

theorem primedBits_zero (byte : UInt8) : primedBits byte 0 = [] := rfl

/-- The bits of the file from a place on that is `bits` bits in front of byte `ipos`. -/
def bitsFrom (data : Buffer) (ipos : Nat) (bits : Fin 8) : List Bool :=
  (toLsbBits data).drop (8 * ipos - bits)

theorem bitsFrom_zero (data : Buffer) (ipos : Nat) :
    bitsFrom data ipos 0 = toLsbBits (data.drop ipos) := (toLsbBits_drop data ipos).symm

/-- The upper bits of a byte, and the bits behind it. -/
theorem primedBits_append {data : Buffer} {ipos : Nat} {byte : UInt8} (bits : Fin 8)
    (h : data.drop ipos = byte :: data.drop (ipos + 1)) :
    primedBits byte bits ++ toLsbBits (data.drop (ipos + 1)) = bitsFrom data (ipos + 1) bits := by
  have hbits := bits.isLt
  have hdrop : 8 * (ipos + 1) - bits = 8 * ipos + (8 - bits) := by omega
  have hfile : (toLsbBits data).drop (8 * ipos) =
      lsbBits byte ++ toLsbBits (data.drop (ipos + 1)) := by
    rw [← toLsbBits_drop, h, toLsbBits_cons]
  have hle : 8 - bits.val ≤ (lsbBits byte).length := by
    rw [length_lsbBits]
    omega
  calc primedBits byte bits ++ toLsbBits (data.drop (ipos + 1))
      = (lsbBits byte).drop (8 - bits) ++ toLsbBits (data.drop (ipos + 1)) := by
        rw [primedBits, lsbBits_upperBits _ (Nat.le_of_lt hbits)]
    _ = ((toLsbBits data).drop (8 * ipos)).drop (8 - bits) := by
        rw [hfile, List.drop_append_of_le_length hle]
    _ = bitsFrom data (ipos + 1) bits := by rw [bitsFrom, hdrop, List.drop_drop]

namespace GzipFile

open Indexing GzipBlockReader

section Save

variable {z : Zlib} {wild : Reader z → UInt8} {rd : Reader z} {g : FileHandle}

/-- What the reader that takes over from `rd` is given: the bits it is primed with, and its
input. -/
def givenBits (wild : Reader z → UInt8) (rd : Reader z) (g : FileHandle) : List Bool :=
  primedBits (rd.byteBefore wild) rd.ibits ++ toLsbBits (rd.nextIn ++ g.rest)

/-- That reader is primed with the bits, and has the same input. -/
theorem takeOver_given (wild : Reader z → UInt8) (spare : Option (Reader z)) (rd : Reader z) :
    (SavingReader.takeOver wild spare rd).mStream =
        z.primed (z.init .Raw) (rd.byteBefore wild) rd.ibits ∧
      (SavingReader.takeOver wild spare rd).nextIn = rd.nextIn := by
  refine ⟨SavingReader.takeOver_stream wild spare rd, ?_⟩
  rw [SavingReader.takeOver, Reader.primeWith]
  split <;> rfl

/-- The byte in front of the input is in the buffer, and the buffer is the part of the file in
front of its position. Only a footer that was skipped by a seek leaves a buffer that is not. -/
def ByteInHand (rd : Reader z) (g : FileHandle) : Prop :=
  rd.ibits = 0 ∨ rd.availIn < rd.mInput.length ∧ rd.Backed g

instance (rd : Reader z) (g : FileHandle) : Decidable (ByteInHand rd g) :=
  inferInstanceAs (Decidable (rd.ibits = 0 ∨ rd.availIn < rd.mInput.length ∧
    rd.mInput.length ≤ g.pos ∧ rd.mInput ++ g.rest = g.data.drop (g.pos - rd.mInput.length)))

/-- The reader that takes over is given the bits of the file. -/
theorem givenBits_eq (hsync : rd.Synced g) (h : ByteInHand rd g) :
    givenBits wild rd g = bitsFrom g.data (g.pos - rd.availIn) rd.ibits := by
  rw [givenBits, hsync.unread.2]
  obtain hzero | ⟨hin, hbacked⟩ := h
  · rw [hzero, primedBits_zero, bitsFrom_zero, List.nil_append]
  · obtain ⟨n, hn, hbyte⟩ := hbacked.byteBefore wild hin
    rw [hn]
    exact primedBits_append rd.ibits hbyte

end Save

variable {z : BlockZlib} {wild : Reader z.toZlib → UInt8} {rd : Reader z.toZlib}
  {fh g : FileHandle} {b : GzipBlock}

/-- The reader of the block `b` is given the bits: it starts at `ipos`, and its stream, on which
the window has been set, is primed with `ibits` of them. -/
def ReadsBits (z : BlockZlib) (g : FileHandle) (b : GzipBlock) (bits : List Bool) : Prop :=
  ∀ s, setDict z b.dict = .ok s → ∃ byte, ∃ rd : State z g,
    GzipBlockReader.new z g b = .ok rd ∧ rd.state = z.primed s byte b.bits ∧
      primedBits byte b.bits ++ toLsbBits rd.left = bits

/-- Where `save` is called, the reader that tries the block and the reader of a block recorded
for the place are given the bits of the file. -/
structure SameBits (wild : Reader z.toZlib → UInt8) (rd : Reader z.toZlib) (g : FileHandle) :
    Prop where
  takesOver : ∀ spare, (SavingReader.takeOver wild spare rd).mStream =
      z.primed (z.init .Raw) (rd.byteBefore wild) rd.ibits ∧
    (SavingReader.takeOver wild spare rd).nextIn = rd.nextIn
  inside : rd.ibits ≠ 0 → rd.availIn < rd.mInput.length
  given : givenBits wild rd g = bitsFrom g.data (g.pos - rd.availIn) rd.ibits
  reads : ∀ b, g.pos - rd.availIn < 2 ^ 63 →
    b.block.coff = UInt64.ofNat (g.pos - rd.availIn) → b.bits = rd.ibits →
      ReadsBits z g b (bitsFrom g.data (g.pos - rd.availIn) rd.ibits)

theorem new_at_byte {s : z.Stream} (hdict : setDict z b.dict = .ok s) (hbits : b.bits = 0) :
    GzipBlockReader.new z g b = .ok ⟨s, [], toOff b.block.coff, b.block.usize.toNat, []⟩ := by
  rw [GzipBlockReader.new, hdict]
  simp only [hbits, bind, Except.bind, pure, Except.pure, ne_eq, not_true_eq_false, if_false,
    UInt64.sub_zero]

theorem new_inside_byte {s : z.Stream} {bytes : Buffer} (hdict : setDict z b.dict = .ok s)
    (hbits : b.bits ≠ 0) (hread : g.preadAt (toOff (b.block.coff - 1)) 1 = .ok bytes) :
    GzipBlockReader.new z g b = .ok ⟨z.primed s (bytes.headD 0) b.bits, [],
      toOff (b.block.coff - 1) + 1, b.block.usize.toNat, []⟩ := by
  rw [GzipBlockReader.new, hdict, Zlib.primed, if_pos hbits]
  simp only [hbits, bind, Except.bind, pure, Except.pure, ne_eq, not_false_eq_true, if_true, hread]
  rfl

/-- A block reader is given the bits of the file from the place of its block on. -/
theorem readsBits_of_drop {n : Nat} (hn : n < 2 ^ 63) (hcoff : b.block.coff = UInt64.ofNat n)
    (h : b.bits = 0 ∨ ∃ m byte, n = m + 1 ∧ g.data.drop m = byte :: g.data.drop (m + 1)) :
    ReadsBits z g b (bitsFrom g.data n b.bits) := by
  intro s hdict
  have hoff : toOff b.block.coff = n := by
    rw [hcoff, toOff_of_lt] <;> rw [UInt64.toNat_ofNat'] <;> omega
  have hrest : g.restAt n = g.data.drop n := if_neg (Int.not_lt.mpr (Int.natCast_nonneg n))
  by_cases hbits : b.bits = 0
  · refine ⟨0, _, new_at_byte hdict hbits, (if_neg (not_not.mpr hbits)).symm, ?_⟩
    rw [hbits, primedBits_zero, bitsFrom_zero, List.nil_append]
    show toLsbBits ([] ++ g.restAt (toOff b.block.coff)) = _
    rw [hoff, hrest, List.nil_append]
  · obtain ⟨m, byte, rfl, hbyte⟩ := h.resolve_left hbits
    have hpred : toOff (b.block.coff - 1) = m := by
      have hnat : (b.block.coff - 1).toNat = m := by
        rw [hcoff, UInt64.toNat_sub, UInt64.toNat_ofNat', UInt64.toNat_one]
        omega
      rw [toOff_of_lt (by omega), hnat]
    have hread : g.preadAt (toOff (b.block.coff - 1)) 1 = .ok [byte] := by
      have htry : g.tryPReadAt m 1 = .ok [byte] := by
        rw [FileHandle.tryPReadAt, if_neg (Int.not_lt.mpr (Int.natCast_nonneg m)),
          Int.toNat_natCast,
          FileHandle.tryPRead, hbyte]
        rfl
      rw [hpred, FileHandle.preadAt, htry]
      rfl
    refine ⟨byte, _, new_inside_byte hdict hbits hread, rfl, ?_⟩
    show primedBits byte b.bits ++ toLsbBits ([] ++ g.restAt (toOff (b.block.coff - 1) + 1)) = _
    rw [hpred, List.nil_append]
    exact hrest ▸ primedBits_append b.bits hbyte

theorem sameBits_of_byteInHand (hsync : rd.Synced g) (h : ByteInHand rd g) :
    SameBits wild rd g := by
  refine ⟨fun spare => takeOver_given wild spare rd, fun hbits => (h.resolve_left hbits).1,
    givenBits_eq hsync h, fun b hlt hcoff hbits => ?_⟩
  rw [← hbits]
  refine readsBits_of_drop hlt hcoff ?_
  rw [hbits]
  refine h.imp_right fun ⟨hin, hbacked⟩ => ?_
  obtain ⟨m, hm, hbyte⟩ := hbacked.byteBefore wild hin
  exact ⟨m, _, hm, hbyte⟩

/-- Where the buffer is the part of the file in front of its position, the bits are the same
exactly if none are primed or some of the buffer has been used. -/
theorem sameBits_iff (hbacked : rd.Backed g) :
    SameBits wild rd g ↔ rd.ibits = 0 ∨ rd.availIn < rd.mInput.length := by
  constructor
  · intro h
    by_cases hbits : rd.ibits = 0
    · exact .inl hbits
    · exact .inr (h.inside hbits)
  · intro h
    exact sameBits_of_byteInHand (.inr hbacked) (h.imp_right fun hin => ⟨hin, hbacked⟩)

/-- If at every `save` of a run the byte is in hand, the bits are the same at every `save`. -/
theorem saves_sameBits {mPath : String} {mBlockFactor : Nat}
    (h : ∀ s₀ g₀, Examines wild mPath (mBlockFactor * WindowSize) fh s₀ g₀ →
      ByteInHand s₀.rd.live g₀) :
    ∀ s₀ g₀, Examines wild mPath (mBlockFactor * WindowSize) fh s₀ g₀ →
      SameBits wild s₀.rd.live g₀ := by
  intro s₀ g₀ hex
  exact sameBits_of_byteInHand hex.inStep.live (h s₀ g₀ hex)

/-- What holds of the states that the turns of a short run ask to examine. -/
theorem examines_of_allStates {mPath : String} {minBlock n : Nat}
    {P : Indexing z.toZlib → FileHandle → Prop} [∀ s g, Decidable (P s g)]
    (hall : allStates (onFile (pass wild mPath minBlock)) (fun p =>
      match (turn mPath minBlock p.1).run p.2 with
      | .ok (.examine s₀, g₀) => decide (P s₀ g₀)
      | _ => true) n (start _ [] fh) = true) {s₀ : Indexing z.toZlib} {g₀ : FileHandle}
    (hex : Examines wild mPath minBlock fh s₀ g₀) : P s₀ g₀ := by
  obtain ⟨s, g, hreach, hrun⟩ := hex
  have htest := Reaches.of_allStates hreach hall
  simp only [hrun] at htest
  exact of_decide_eq_true htest

/-- The zlib of the file with two bits left, which knows no window. -/
def probeZlib : BlockZlib where
  toZlib := Zlib.replay 4 7 probeReply
  setDictionary s _ := .ok s
  inflateOn s _ _ := .nothing s (.error (-2)) _ _

theorem saves_sameBits_probe : ∃ s₀ g₀,
    @Examines probeZlib.toZlib (fun _ => 0) "probe.gz" (32 * WindowSize) probeFile s₀ g₀ ∧
      s₀.rd.live.ibits = 2 ∧ @SameBits probeZlib (fun _ => 0) s₀.rd.live g₀ := by
  have hrun : (after (onFile (pass (fun _ => 0) "probe.gz" (32 * WindowSize))) 3
      (start probeZlib.toZlib [] probeFile)).any (fun p =>
        match (turn "probe.gz" (32 * WindowSize) p.1).run p.2 with
        | .ok (.examine s₀, _) => decide (s₀.rd.live.ibits = 2)
        | .ok (.again _, _) => false
        | .ok (.done _, _) => false
        | .error _ => false) = true := by decide +kernel
  obtain ⟨p, hp, htest⟩ := (Option.any_eq_true _ _).mp hrun
  split at htest
  · have hex : @Examines probeZlib.toZlib (fun _ => 0) "probe.gz" (32 * WindowSize) probeFile _ _ :=
      ⟨_, _, after_reaches hp, ‹_›⟩
    refine ⟨_, _, hex, of_decide_eq_true htest, saves_sameBits (fun s₀ g₀ hex => ?_) _ _ hex⟩
    exact @examines_of_allStates probeZlib (fun _ => 0) probeFile "probe.gz" (32 * WindowSize) 6
      (fun s g => ByteInHand s.rd.live g) _ (by decide +kernel) s₀ g₀ hex
  · cases htest
  · cases htest
  · cases htest

/-- A zlib that fills the window while it uses up a chunk, and then ends the block with a byte of
output out of the bits it holds. -/
def heldZlib : BlockZlib where
  toZlib := Zlib.replay 0 0 fun i input =>
    if i = 0 then ⟨1, input.length, List.replicate WindowSize 0x61, .ok, 0⟩
    else ⟨2, 0, [0x61], .ok, 131⟩
  setDictionary s _ := .ok s
  inflateOn s _ _ := .nothing s (.error (-2)) _ _

/-- A file whose first chunk ends with a byte three bits of which are left at the end of a
block. -/
def heldFile : FileHandle := ⟨"held.gz", List.replicate ChunkSize 0xff ++ [0], 0⟩

/-- The block starts in the last byte of the first chunk; `save` takes the byte in front of the
second one. -/
theorem held_not_sameBits :
    ¬ ∀ s₀ g₀, @Examines heldZlib.toZlib (fun _ => 0) "held.gz" (32 * WindowSize) heldFile s₀ g₀ →
      @SameBits heldZlib (fun _ => 0) s₀.rd.live g₀ := by
  intro h
  have hrun : (after (onFile (pass (fun _ => 0) "held.gz" (32 * WindowSize))) 1
      (start heldZlib.toZlib [] heldFile)).any (fun p =>
        match (turn "held.gz" (32 * WindowSize) p.1).run p.2 with
        | .ok (.examine s₀, g₀) => decide ((givenBits (fun _ => 0) s₀.rd.live g₀).take 3 ≠
            (bitsFrom g₀.data (g₀.pos - s₀.rd.live.availIn) s₀.rd.live.ibits).take 3)
        | .ok (.again _, _) => false
        | .ok (.done _, _) => false
        | .error _ => false) = true := by decide +kernel
  obtain ⟨p, hp, htest⟩ := (Option.any_eq_true _ _).mp hrun
  split at htest
  · have hex : @Examines heldZlib.toZlib (fun _ => 0) "held.gz" (32 * WindowSize) heldFile _ _ :=
      ⟨_, _, after_reaches hp, ‹_›⟩
    exact of_decide_eq_true htest (congrArg (List.take 3) (h _ _ hex).given)
  · cases htest
  · cases htest
  · cases htest

end GzipFile

end Lzopfs
