import Lzopfs.FileHandle
import Lzopfs.Lib.LowerBound
import Mathlib.Data.UInt

/-!
# Compressed files with a list of blocks

A `BlockListCompFile` keeps its blocks in a list and finds the block of an
offset by binary search. An `IndexedCompFile` also saves the list in an index
file. What a block record holds beyond the common fields, how it is read and
written, and how the list is built in the first place depend on the format and
are fields of the structure `IndexedCompFile`, as they are virtual functions of
the class.
-/

namespace Lzopfs

open Verify FileHandle

/-- Size of input buffers. -/
def ChunkSize : Nat := 4096

/-- `off_t` from an unsigned 64-bit number: the upper half is negative. -/
def toOff (x : UInt64) : Int :=
  if x.toNat < 2 ^ 63 then x.toNat else (x.toNat : Int) - 2 ^ 64

/-- The unsigned 64-bit number of an `off_t`. -/
def ofOff (x : Int) : UInt64 := UInt64.ofInt x

theorem toOff_of_lt {x : UInt64} (h : x.toNat < 2 ^ 63) : toOff x = x.toNat := if_pos h

theorem toNat_ofOff {n : Nat} (h : n < 2 ^ 64) : (ofOff n).toNat = n := by
  simp only [ofOff, UInt64.ofInt]
  rw [UInt64.toNat_ofNat']
  omega

namespace BlockListCompFile

/-- `BlockOffsetOrdering`: does the block end before the offset? The last byte
of a block is computed in 64-bit arithmetic. -/
def BlockOffsetOrdering (b : Block) (off : Int) : Bool :=
  b.uoff + b.usize.toUInt64 - 1 < ofOff off

/-- The blocks from the one found up to the end, as an iterator sees them. -/
def findBlock (mBlocks : List Block) (off : Int) : Except Exn (List Block) :=
  let below i := match mBlocks[i]? with
    | some b => BlockOffsetOrdering b off
    | none => false
  let iter := lowerBound below 0 mBlocks.length
  if iter = mBlocks.length then .error (.runtime "can't find block")
  else .ok (mBlocks.drop iter)

def uncompressedSize (mBlocks : List Block) : Int :=
  match mBlocks.getLast? with
  | none => 0
  | some b => toOff (b.uoff + b.usize.toUInt64)

/-- Each block starts where the one before it ends, the first one at `uoff`. -/
def Contiguous : UInt64 → List Block → Prop
  | _, [] => True
  | uoff, b :: bs => b.uoff = uoff ∧ Contiguous (uoff + b.usize.toUInt64) bs

theorem contiguous_append {uoff : UInt64} {as bs : List Block} :
    Contiguous uoff (as ++ bs) ↔
      Contiguous uoff as ∧ Contiguous (uoff + (as.map fun b => b.usize.toUInt64).sum) bs := by
  induction as generalizing uoff with
  | nil => simp [Contiguous]
  | cons a as ih =>
      simp only [List.cons_append, Contiguous, ih, List.map_cons, List.sum_cons, UInt64.add_assoc,
        and_assoc]

end BlockListCompFile

/-- The files an index is looked up in and written to. -/
structure FileSystem where
  /-- The contents of the files that can be opened for reading. -/
  contents : String → Option Buffer
  /-- The files that can be opened for writing. -/
  writable : String → Bool
  /-- The error when a file cannot be opened for reading, `ENOENT` if nothing else is said. -/
  readErrno : String → Nat := fun _ => 2
  /-- The error when it cannot be opened for writing. -/
  writeErrno : String → Nat := fun _ => 2

namespace FileSystem

def store (fs : FileSystem) (path : String) (data : Buffer) : FileSystem :=
  { fs with contents := fun p => if p = path then some data else fs.contents p }

@[simp] theorem contents_store (fs : FileSystem) (path : String) (data : Buffer) :
    (fs.store path data).contents path = some data := if_pos rfl

end FileSystem

/-- The part of an `IndexedCompFile` that depends on the format: its block
records `β` and the virtual functions on them. -/
structure IndexedCompFile (β : Type) where
  indexPath : String
  /-- The common fields of a record. -/
  block : β → Block
  setUoff : β → UInt64 → β
  newBlock : β
  /-- Fill in a record; `false` at the end of the index. -/
  readBlock : β → FileM (Bool × β)
  writeBlock : β → FileM Unit
  /-- Add the blocks of the file to the list, within so many steps. -/
  buildIndex : Nat → List β → FileHandle → Option (Except Exn (List β))
  readBlock_consumes : ∀ {b b' fh g}, (readBlock b).run fh = .ok ((true, b'), g) →
    g.remaining < fh.remaining

namespace IndexedCompFile

/-- `IndexedCompFile::readBlock`: a record that starts with a zero `usize` ends
the index. `uoff` is computed by the caller. -/
def readBlockBase (b : Block) : FileM (Bool × Block) := do
  let usize ← readBE32
  if usize = 0 then return (false, { b with usize })
  let csize ← readBE32
  let coff ← readBE64
  return (true, { b with usize, csize, coff })

/-- `IndexedCompFile::writeBlock`. -/
def writeBlockBase (b : Block) : FileM Unit := do
  writeBE32 b.usize
  writeBE32 b.csize
  writeBE64 b.coff

variable {β : Type} (file : IndexedCompFile β)

/-- Append records to the list until one of them ends the index. -/
def readIndexLoop : FileLoop (UInt64 × List β) (Bool × List β) where
  body := fun (uoff, mBlocks) => do
    let (more, b) ← file.readBlock file.newBlock
    if more then
      return .again (uoff + (file.block b).usize.toUInt64, mBlocks ++ [file.setUoff b uoff])
    else return .done (true, mBlocks)
  consumes {s s' fh g} h := by
    obtain ⟨⟨more, b⟩, m, hread, hret⟩ := FileM.of_run_bind_ok h
    cases more with
    | false => cases hret
    | true =>
        cases hret
        exact file.readBlock_consumes hread

def readIndex (mBlocks : List β) : FileM (Bool × List β) :=
  file.readIndexLoop.run (0, mBlocks)

def writeIndex (mBlocks : List β) : FileM Unit := do
  mBlocks.forM file.writeBlock
  writeBE32 0

/-- Open and read the index file, if it is there. -/
def tryIndex (fs : FileSystem) : Except Exn (Bool × List β) :=
  match fs.contents file.indexPath with
  | none => .ok (false, [])
  | some data => ((file.readIndex []).run ⟨file.indexPath, data, 0⟩).map Prod.fst

/-- Create the index file and write the list to it. -/
def saveIndex (fs : FileSystem) (mBlocks : List β) : Except Exn FileSystem :=
  if fs.writable file.indexPath then
    ((file.writeIndex mBlocks).run ⟨file.indexPath, [], 0⟩).map fun (_, fh) =>
      fs.store file.indexPath fh.data
  else .error (.sys ("open error for file " ++ file.indexPath) (fs.writeErrno file.indexPath))

def loadIndex (fuel : Nat) (fs : FileSystem) (fh : FileHandle) :
    Option (Except Exn (List β × FileSystem)) :=
  match file.tryIndex fs with
  | .error e => some (.error e)
  | .ok (true, mBlocks) => some (.ok (mBlocks, fs))
  | .ok (false, mBlocks) =>
      (file.buildIndex fuel mBlocks fh).map fun built => do
        let mBlocks ← built
        let fs ← file.saveIndex fs mBlocks
        return (mBlocks, fs)

end IndexedCompFile

end Lzopfs
