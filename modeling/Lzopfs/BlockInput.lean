import Lzopfs.CompressedFile
import Lzopfs.Lib.Decoder

/-!
# Input and output of a block decoder

To decompress a block, a codec is fed with chunks of the file, read from a moving offset on,
and fills a buffer that has the size of the block from the start.
-/

namespace Lzopfs

open Verify

theorem of_map_ok {α β : Type} {x : Except Exn α} {f : α → β} {b : β} (h : x.map f = .ok b) :
    ∃ a, x = .ok a ∧ f a = b := by
  cases x with
  | error e => cases h
  | ok a => exact ⟨a, rfl, Except.ok.inj h⟩

theorem of_map_error {α β : Type} {x : Except Exn α} {f : α → β} {e : Exn}
    (h : x.map f = .error e) : ∃ e, x = .error e := by
  cases x with
  | error e' => exact ⟨e', rfl⟩
  | ok a => cases h

theorem chunkSize_pos : 0 < ChunkSize := by decide

namespace FileHandle

/-- Chunks of the file up to its end; the state is an `off_t`. -/
def source (fh : FileHandle) (chunkSize : Nat) (hpos : 0 < chunkSize) : Source UInt8 Exn where
  State := Int
  more off := (fh.tryPReadAt off chunkSize).map fun buf => (buf, off + buf.length)
  rest off := fh.restAt off
  more_ok {off c off'} h := by
    obtain ⟨buf, hread, hpair⟩ := of_map_ok h
    cases hpair
    obtain ⟨hne, hrest, -⟩ := tryPReadAt_ok hread
    exact ⟨hne, hrest⟩
  more_error {off e} h := by
    obtain ⟨e', hread⟩ := of_map_error h
    exact tryPReadAt_error hpos hread

/-- Chunks of the file up to the end of a payload; the state is the offset and the number of
bytes behind it that belong to the payload. -/
def payload (fh : FileHandle) (chunkSize : Nat) (hpos : 0 < chunkSize) : Source UInt8 Exn where
  State := Int × Nat
  more s := (fh.tryPReadAt s.1 (min s.2 chunkSize)).map fun buf =>
    (buf, s.1 + buf.length, s.2 - buf.length)
  rest s := (fh.restAt s.1).take s.2
  more_ok {s c s'} h := by
    obtain ⟨buf, hread, hpair⟩ := of_map_ok h
    cases hpair
    obtain ⟨hne, hrest, htake⟩ := tryPReadAt_ok hread
    have hlen : c.length ≤ min s.2 chunkSize := by
      rw [htake]
      exact List.length_take_le _ _
    refine ⟨hne, ?_⟩
    rw [hrest, List.take_append, List.take_of_length_le (by omega)]
  more_error {s e} h := by
    obtain ⟨e', hread⟩ := of_map_error h
    obtain h0 | hsize := Nat.eq_zero_or_pos s.2
    · rw [h0, List.take_zero]
    · rw [tryPReadAt_error (by omega) hread, List.take_nil]

end FileHandle

/-- What a decompression leaves in the buffer, and what the codec has produced of it. -/
structure Decoded where
  ubuf : Buffer
  out : Buffer

/-- Put what the codec has produced at the front of the buffer. -/
def Decoded.fill (ubuf : Buffer) (usize : UInt32) (out : Buffer) : Decoded where
  ubuf := Buffer.blit (Buffer.resize ubuf usize.toNat) 0 out
  out := out

/-- The codec has produced as many bytes as the block has, and they are the buffer. -/
def Decoded.Full (r : Decoded) (usize : UInt32) : Prop :=
  r.out.length = usize.toNat ∧ r.ubuf = r.out

theorem Decoded.full_fill (ubuf : Buffer) {usize : UInt32} {out : Buffer} :
    (Decoded.fill ubuf usize out).Full usize ↔ out.length = usize.toNat := by
  refine ⟨And.left, fun h => ⟨h, ?_⟩⟩
  have hlen : (Buffer.resize ubuf usize.toNat).length ≤ 0 + out.length := by
    rw [Buffer.length_resize]
    omega
  show (Buffer.resize ubuf usize.toNat).take 0 ++ out ++ _ = out
  rw [List.drop_eq_nil_of_le hlen, List.take_zero, List.nil_append, List.append_nil]

end Lzopfs
