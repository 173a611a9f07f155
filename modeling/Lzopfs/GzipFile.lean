import Lzopfs.GzipReader
import Lzopfs.IndexFile

/-!
# Gzip files

To index a gzip file the source decodes it once. At every block it puts the
reader aside and tries to decode on without the bytes that came before: if this
works for more than a window, or up to the end of the stream, the block can be
decoded on its own and is recorded. Otherwise the reader is put back, and when
enough output has gone by since the last record, the block is recorded together
with the window it needs.
-/

namespace Lzopfs

open Verify FileHandle

/-- A block that is decoded from bit `8 - bits` of the byte before `coff` on, with
a window or without one. -/
structure GzipBlock where
  block : Block
  bits : Fin 8
  dict : Buffer
  dict_length : dict = [] ∨ dict.length = WindowSize

theorem GzipBlock.no_dict : ([] : Buffer) = [] ∨ ([] : Buffer).length = WindowSize := .inl rfl

namespace GzipFile

/-- A block that ends where the next one starts. -/
def sized (p : GzipBlock) (uoff coff : Nat) : GzipBlock :=
  { p with block := { p.block with
      usize := (UInt64.ofNat uoff - p.block.uoff).toUInt32
      csize := (UInt64.ofNat coff - p.block.coff).toUInt32 } }

/-- Fix up the last block. -/
def setLastBlockSize (mBlocks : List GzipBlock) (uoff coff : Nat) : List GzipBlock :=
  match mBlocks.getLast? with
  | none => []
  | some p => mBlocks.dropLast ++ [sized p uoff coff]

/-- A block at the given place; its size is fixed up later. -/
def newBlock (uoff coff : Nat) (bits : Fin 8) : GzipBlock where
  block := ⟨0, 0, UInt64.ofNat uoff, UInt64.ofNat coff⟩
  bits := bits
  dict := []
  dict_length := GzipBlock.no_dict

def addBlock (mBlocks : List GzipBlock) (uoff coff : Nat) (b : GzipBlock) : List GzipBlock :=
  setLastBlockSize mBlocks uoff coff ++ [b]

/-- The locals of `buildIndex`, and the list it fills in. -/
structure Indexing (z : Zlib) where
  rd : SavingReader z
  /-- Are we trying an independent decode? -/
  indep : Bool
  /-- Have we passed a block we may want? -/
  backtrack : Bool
  uoff : Nat
  coff : Nat
  bits : Fin 8
  /-- Uncompressed position of the last indexed block. -/
  lastIdx : Nat
  mBlocks : List GzipBlock
  /-- Is control inside `rd.block()`? -/
  inBlock : Bool

namespace Indexing

variable {z : Zlib}

def new (z : Zlib) (mBlocks : List GzipBlock) : Indexing z where
  rd := SavingReader.new z
  indep := false
  backtrack := false
  uoff := 0
  coff := 0
  bits := 0
  lastIdx := 0
  mBlocks := mBlocks
  inBlock := false

def restore (s : Indexing z) : FileM (Indexing z) := do
  let rd ← s.rd.restore
  return { s with rd }

/-- The block being examined can be decoded on its own. -/
def accept (s : Indexing z) : Indexing z :=
  { s with
    mBlocks := addBlock s.mBlocks s.uoff s.coff (newBlock s.uoff s.coff s.bits)
    lastIdx := s.uoff
    indep := false }

/-- Examine the block the live reader is at. -/
def examine (wild : Reader z → UInt8) (s : Indexing z) : FileM (Indexing z) := do
  let coff ← s.rd.live.ipos
  let rd ← s.rd.save wild
  return { s with
    uoff := s.rd.live.opos
    coff := coff
    bits := s.rd.live.ibits
    rd := rd
    backtrack := false
    indep := true }

theorem dict_window (s : Indexing z) :
    s.rd.live.copyWindow = [] ∨ s.rd.live.copyWindow.length = WindowSize :=
  .inr s.rd.live.length_copyWindow

/-- Record the block the live reader is at, with its window. -/
def addDictBlock (s : Indexing z) : FileM (Indexing z) := do
  let live := s.rd.live
  let ipos ← live.ipos
  return { s with
    mBlocks := addBlock s.mBlocks live.opos ipos
      { newBlock live.opos ipos live.ibits with
        dict := live.copyWindow
        dict_length := s.dict_window }
    lastIdx := live.opos }

end Indexing

/-- What a turn of the loop comes to: going round again, first examining the block
the reader is at, or leaving. -/
inductive Turn (z : Zlib) where
  | again (s : Indexing z)
  | examine (s : Indexing z)
  | done (mBlocks : List GzipBlock)

section Build

variable {z : Zlib} (wild : Reader z → UInt8) (mPath : String) (minBlock : Nat)

/-- Examine the new block unless another one is being examined. -/
def check (s : Indexing z) : Turn z := if s.indep then .again s else .examine s

/-- The end of a turn that did not go back: if the stream has ended, on to the next
one, or out of the loop at the end of the file. -/
def advance (s : Indexing z) (err : Ret) : FileM (Turn z) := do
  if err = .streamEnd then
    let live ← s.rd.live.skipFooter
    let ipos ← live.ipos
    if ipos = (← size) then return .done (setLastBlockSize s.mBlocks live.opos ipos)
    else return check { s with rd := { s.rd with live := live.reset .Gzip } }
  else return check s

/-- `rd.block()` has come to the end of a block, of a header or of a stream. -/
def decoded (s : Indexing z) (err : Ret) : FileM (Turn z) := do
  if s.indep then
    if s.rd.live.obytes > WindowSize ∨ err = .streamEnd then
      let s := s.accept
      if s.backtrack then return .again (← s.restore) -- go to next block after `uoff`
      else advance s err
    else if s.rd.live.obytes = 0 then -- zero-length block, ignore
      return .again (← Indexing.restore { s with indep := false })
    else
      -- There is a block between `uoff` and the end of the window.
      advance { s with backtrack := true } err
  else advance s err

/-- `rd.block()` has failed. -/
def failed (s : Indexing z) (code : Int) : FileM (Turn z) := do
  if s.indep then
    let s ← Indexing.restore { s with indep := false }
    if s.rd.live.opos - s.lastIdx > minBlock then return .again (← s.addDictBlock)
    else return .again s
  else
    throw (.format mPath
      ("gzip decode: " ++ z.msg s.rd.live.mStream ++ " (" ++ toString code ++ ")"))

/-- One step of the live reader, and what is done after it if `rd.block()` returns. -/
def turn (s : Indexing z) : FileM (Turn z) := do
  let (live, err) ← s.rd.live.step
  let s := { s with rd := { s.rd with live := live }, inBlock := false }
  match err with
  | .error code => failed mPath minBlock s code
  | err =>
      if err = .streamEnd ∨ live.atBlock then decoded s err
      else return .again { s with inBlock := true }

def pass (s : Indexing z) : FileM (Pass (Indexing z) (List GzipBlock)) := do
  match ← turn mPath minBlock s with
  | .again s => return .again s
  | .examine s => return .again (← s.examine wild)
  | .done mBlocks => return .done mBlocks

/-- The state `buildIndex` starts from. -/
def start (z : Zlib) (mBlocks : List GzipBlock) (fh : FileHandle) : Indexing z × FileHandle :=
  (Indexing.new z mBlocks, { fh with pos := 0 })

/-- The states `buildIndex` passes through on a file without an index. -/
def Indexes (fh : FileHandle) (s : Indexing z) (g : FileHandle) : Prop :=
  Reaches (onFile (pass wild mPath minBlock)) (start z [] fh) (s, g)

def buildIndex (mBlockFactor : Nat) (fuel : Nat) (mBlocks : List GzipBlock) (fh : FileHandle) :
    Option (Except Exn (List GzipBlock)) :=
  (iterate (onFile (pass wild mPath (mBlockFactor * WindowSize))) fuel
    (start z mBlocks fh)).map (Except.map Prod.fst)

end Build

open IndexedCompFile

def BlockBitsMask : UInt8 := 0x07
def BlockDictFlag : UInt8 := 0x80

/-- The flags of a record. -/
def blockFlags (b : GzipBlock) : UInt8 :=
  (UInt8.ofNat b.bits &&& BlockBitsMask) ||| if b.dict ≠ [] then BlockDictFlag else 0

def readBlock (b : GzipBlock) : FileM (Bool × GzipBlock) := do
  let (more, block) ← readBlockBase b.block
  if more then
    let flags ← readBE8
    let bits := Fin.ofNat 8 (flags &&& BlockBitsMask).toNat
    if flags &&& BlockDictFlag ≠ 0 then
      let dict ← read WindowSize
      return (true, { block := block
                      bits := bits
                      dict := Buffer.resize dict WindowSize
                      dict_length := .inr (Buffer.length_resize _ _) })
    else return (true, { b with block, bits })
  else return (false, { b with block })

def writeBlock (b : GzipBlock) : FileM Unit := do
  writeBlockBase b.block
  writeBE8 (blockFlags b)
  doIf (blockFlags b &&& BlockDictFlag ≠ 0) (write b.dict)

theorem readBlock_consumes {b b' : GzipBlock} {fh g : FileHandle}
    (h : (readBlock b).run fh = .ok ((true, b'), g)) : g.remaining < fh.remaining := by
  obtain ⟨⟨more, block⟩, m, hread, hrest⟩ := FileM.of_run_bind_ok h
  cases more with
  | false => cases hrest
  | true =>
      obtain ⟨hlt, hdata⟩ := readBlockBase_consumes hread
      have hfwd := (Forward.readBE8.bind fun _ => Forward.ite
        ((Forward.read (by decide)).bind fun _ => Forward.pure _) (Forward.pure _)) hrest
      simp only [remaining, hfwd.1] at hlt ⊢
      omega

/-- A gzip file as a file with an index. -/
def file {z : Zlib} (wild : Reader z → UInt8) (mPath indexPath : String) (mBlockFactor : Nat) :
    IndexedCompFile GzipBlock where
  indexPath := indexPath
  block := GzipBlock.block
  setUoff b uoff := { b with block := { b.block with uoff := uoff } }
  newBlock := newBlock 0 0 0
  readBlock := readBlock
  writeBlock := writeBlock
  buildIndex := buildIndex wild mPath mBlockFactor
  readBlock_consumes := readBlock_consumes

/-- The bytes of a record. -/
def encodeBlock (b : GzipBlock) : Buffer :=
  encodeBase b.block ++ (beBytes 1 (blockFlags b).toNat ++ b.dict)

theorem blockFlags_bits (b : GzipBlock) :
    Fin.ofNat 8 (blockFlags b &&& BlockBitsMask).toNat = b.bits := by
  have hall : ∀ (bits : Fin 8) (dict : Bool),
      Fin.ofNat 8 (((UInt8.ofNat bits &&& BlockBitsMask) |||
        if dict then BlockDictFlag else 0) &&& BlockBitsMask).toNat = bits := by decide
  simpa [blockFlags] using hall b.bits (b.dict ≠ [])

theorem blockFlags_dict (b : GzipBlock) : blockFlags b &&& BlockDictFlag ≠ 0 ↔ b.dict ≠ [] := by
  have hall : ∀ (bits : Fin 8) (dict : Bool),
      ((UInt8.ofNat bits &&& BlockBitsMask) ||| if dict then BlockDictFlag else 0) &&&
        BlockDictFlag ≠ 0 ↔ dict := by decide
  simpa [blockFlags] using hall b.bits (b.dict ≠ [])

section Codec

variable {fh : FileHandle} {b : GzipBlock} {tl : Buffer}

theorem run_writeBlock (b : GzipBlock) (h : fh.AtEnd) :
    (writeBlock b).run fh = .ok ((), fh.append (encodeBlock b)) := by
  have hend := atEnd_append fh (encodeBase b.block)
  rw [writeBlock, writeBE8, FileM.run_bind_ok (run_writeBlockBase _ h),
    FileM.run_bind_ok (run_writeBE hend _ _), append_append, doIf, encodeBlock]
  split
  · rw [run_write (atEnd_append _ _), append_append, List.append_assoc]
  · rename_i hflag
    have hdict : b.dict = [] := not_not.mp fun h => hflag ((blockFlags_dict b).mpr h)
    rw [hdict, List.append_nil]
    rfl

theorem run_readBlock (hb : b.block.usize ≠ 0) (hr : fh.rest = encodeBlock b ++ tl) :
    (readBlock (newBlock 0 0 0)).run fh =
      .ok ((true, { b with block := { b.block with uoff := 0 } }),
        fh.skip (encodeBlock b).length) := by
  rw [encodeBlock, List.append_assoc, List.append_assoc] at hr
  have h1 := rest_skip_append hr (length_encodeBase _)
  have h2 := rest_skip_append h1 (length_beBytes _ _)
  have hlen : (encodeBlock b).length = 16 + (1 + b.dict.length) := by
    simp [encodeBlock, length_encodeBase]
  rw [readBlock, FileM.run_bind_ok (run_readBlockBase hb hr)]
  simp only [↓reduceIte]
  rw [FileM.run_bind_ok (run_readBE8 h1), hlen]
  simp only [blockFlags_bits]
  split
  · rename_i hflag
    have hne := (blockFlags_dict b).mp hflag
    have hdict := b.dict_length.resolve_left hne
    have hread := read_ok hne h2
    rw [hdict] at hread
    have hsize : Buffer.resize b.dict WindowSize = b.dict := by
      rw [Buffer.resize, ← hdict, List.take_length, Nat.sub_self]
      exact List.append_nil _
    rw [FileM.run_bind_ok hread]
    simp only [hsize, skip_skip, hdict]
    rfl
  · rename_i hflag
    have hdict : b.dict = [] := not_not.mp fun h => hflag ((blockFlags_dict b).mpr h)
    simp only [hdict, skip_skip]
    rfl

theorem run_readBlock_end (hr : fh.rest = beBytes 4 0 ++ tl) :
    ∃ b', (readBlock (newBlock 0 0 0)).run fh = .ok ((false, b'), fh.skip 4) := by
  rw [readBlock, FileM.run_bind_ok (run_readBlockBase_end hr)]
  exact ⟨_, rfl⟩

theorem readBlock_inside (b : GzipBlock) : Inside (readBlock b) := by
  intro fh r g h
  obtain ⟨⟨more, block⟩, m, hread, hrest⟩ := FileM.of_run_bind_ok h
  cases more with
  | false =>
      cases hrest
      exact readBlockBase_inside _ hread
  | true =>
      obtain ⟨flags, m', hflags, hdict⟩ := FileM.of_run_bind_ok hrest
      simp only at hdict
      split at hdict
      · exact (Inside.read _).map _ hdict
      · cases hdict
        exact Inside.readBE8 hflags

/-- Gzip records are read back as they were written. -/
def codec {z : Zlib} (wild : Reader z → UInt8) (mPath indexPath : String) (mBlockFactor : Nat) :
    (file wild mPath indexPath mBlockFactor).Codec where
  encode := encodeBlock
  run_writeBlock b h := run_writeBlock b h
  run_readBlock hb hr := ⟨_, run_readBlock hb hr, rfl, fun _ => rfl⟩
  encode_zero {b} hb := by
    obtain ⟨tl, htl⟩ := encodeBase_zero (b := b.block) hb
    exact ⟨_, by rw [encodeBlock, htl, List.append_assoc]⟩
  run_readBlock_end hr := run_readBlock_end hr
  readBlock_cutStable :=
    (readBlockBase_cutStable _).bind fun _ => CutStable.ite
      (CutStable.readBE8.bind fun _ => CutStable.ite
        ((CutStable.read _).bind fun _ => CutStable.pure _) (CutStable.pure _)) (CutStable.pure _)
  readBlock_inside := readBlock_inside _
  setUoff_self _ := rfl
  uoff_setUoff _ _ := rfl

end Codec

end GzipFile

end Lzopfs
