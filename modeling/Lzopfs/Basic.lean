import Mathlib.Algebra.GroupWithZero.Nat

/-!
# Buffers, blocks and exceptions

The types every file format shares: byte buffers, the `Block` record of one
compressed block, and the exceptions that leave a function in place of its
result.
-/

namespace Lzopfs

/-- A byte has bits. -/
instance neZero_eight : NeZero 8 := ⟨by decide⟩

abbrev Buffer := List UInt8

/-- `std::vector::resize`: keep the front, append zero bytes when growing. -/
def Buffer.resize (b : Buffer) (size : Nat) : Buffer :=
  b.take size ++ List.replicate (size - b.length) 0

@[simp] theorem Buffer.length_resize (b : Buffer) (size : Nat) :
    (Buffer.resize b size).length = size := by
  simp only [Buffer.resize, List.length_append, List.length_take, List.length_replicate]
  omega

/-- Overwrite the bytes of a buffer from `start` on, leaving its size as it is. -/
def Buffer.blit (b : Buffer) (start : Nat) (bytes : Buffer) : Buffer :=
  b.take start ++ bytes ++ b.drop (start + bytes.length)

theorem Buffer.length_blit {b bytes : Buffer} {start : Nat}
    (h : start + bytes.length ≤ b.length) : (Buffer.blit b start bytes).length = b.length := by
  simp only [Buffer.blit, List.length_append, List.length_take, List.length_drop]
  omega

/-- One block of a compressed file: `usize` bytes at offset `uoff` of the
uncompressed contents, stored in `csize` bytes at offset `coff`. -/
structure Block where
  usize : UInt32
  csize : UInt32
  uoff : UInt64
  coff : UInt64
  deriving DecidableEq, Repr

/-- What the source throws. All four are `std::runtime_error`s. -/
inductive Exn where
  /-- `FileHandle::Exception`, with its `errno`. -/
  | sys (what : String) (errorCode : Nat)
  /-- `FileHandle::EOFException`. -/
  | eof (what : String)
  /-- `CompressedFile::FormatException`. -/
  | format (file what : String)
  /-- Any other `std::runtime_error`. -/
  | runtime (what : String)
  deriving DecidableEq, Repr

end Lzopfs
