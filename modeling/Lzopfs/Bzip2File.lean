import Lzopfs.IndexFile
import Lzopfs.Lib.Bits

/-!
# Bzip2 files

The blocks of a bzip2 file are not aligned to bytes. The file is searched for the magic
numbers in front of blocks and at the ends of streams; what lies between two of them is
moved to a byte border, given a header and a footer, and decompressed as a file of its
own. If that fails, the second magic number was none.
-/

namespace Lzopfs

open Verify FileHandle

namespace Bzip2File

def Magic : Buffer := [0x42, 0x5a, 0x68]
def BlockMagicBytes : Nat := 6
def BlockMagic : UInt64 := 0x314159265359
def BlockMagicMask : UInt64 := ((1 : UInt64) <<< 48) - 1
def EOSMagic : UInt64 := 0x177245385090

/-- Where a magic number starts: `bits` bits before the byte at `coff`. -/
structure BlockBoundary where
  magic : UInt64
  level : UInt8
  coff : Nat
  bits : Fin 8
  deriving DecidableEq, Repr

end Bzip2File

open Bzip2File

/-- A block, with the bits to take from the byte before it and to leave out of its last
byte. An index has four bits for each. -/
structure Bzip2Block where
  block : Block
  bits : Fin 16
  endbits : Fin 16
  level : UInt8
  deriving DecidableEq, Repr

/-- The decompressor of the bzip2 library, on a whole file in memory. -/
structure Bzlib where
  decompress : Buffer → Except Exn Buffer

namespace Bzip2File

def checkFileType (mPath : String) : FileM Unit :=
  catchEOF (do
    let buf ← read Magic.length
    throwIf (buf ≠ Magic) (.format mPath "magic")
    let level ← readBE8
    throwIf (level < 0x31 ∨ level > 0x39) (.format mPath "invalid level")
    let _ ← seek (-2) .cur
    let bm ← readBE64
    throwIf (bm &&& BlockMagicMask ≠ BlockMagic) (.format mPath "block magic"))
    (.format mPath "EOF")

/-- The first full byte of a magic number that starts `i` bits before it. -/
def firstByte (magic : UInt64) (i : Fin 8) : UInt8 :=
  shiftByte ((magic >>> 40) &&& 0xff).toUInt8 ((magic >>> 32) &&& 0xff).toUInt8 i (8 - i)

/-- For each byte, how many bits before it a magic number starts that has it as its first
full byte. -/
def backBits : List (Option (Fin 8)) :=
  (List.finRange 8).foldl
    (fun t i => (t.set (firstByte BlockMagic i).toNat (some i)).set
      (firstByte EOSMagic i).toNat (some i))
    (List.replicate 256 none)

/-- From an end-of-stream magic number to the header of the next stream. -/
def ftsz : Nat := BlockMagicBytes + 4
def lcreset : Nat := Magic.length

/-- What the search carries along: how many more bytes till a level can be found, the
level, and the candidates so far. -/
structure Scan where
  lcount : Nat
  level : UInt8
  bl : List BlockBoundary

/-- The 48 bits from `b` bits before the window on. -/
def wordAt (prev : UInt8) (window : Buffer) (b : Fin 8) : UInt64 :=
  let v := UInt64.ofNat (ofBE (window.take 8)) >>> UInt64.ofNat (8 * (8 - BlockMagicBytes) + b)
  v ||| ((prev.toUInt64 <<< UInt64.ofNat (8 * BlockMagicBytes - b)) &&& BlockMagicMask)

/-- Look at the byte `x` at `pos`, between `prev` and `tl`. -/
def scanByte (prev x : UInt8) (tl : Buffer) (pos : Nat) (s : Scan) : Scan :=
  let level := if s.lcount = 1 then x else s.level
  let lcount := s.lcount - 1
  match (backBits[x.toNat]?).join with
  | none => ⟨lcount, level, s.bl⟩
  | some b =>
      let v := wordAt prev (x :: tl) b
      if v = BlockMagic ∨ v = EOSMagic then
        ⟨if v = EOSMagic then ftsz + lcreset else lcount, level, s.bl ++ [⟨v, level, pos, b⟩]⟩
      else ⟨lcount, level, s.bl⟩

/-- Look at the bytes of a chunk, as long as there is a whole word behind them. -/
def scanChunk : UInt8 → Buffer → Nat → Scan → Scan
  | _, [], _, s => s
  | prev, x :: tl, pos, s =>
      if 8 ≤ tl.length then scanChunk x tl (pos + 1) (scanByte prev x tl pos s) else s

/-- Scan chunk after chunk; the last nine bytes are kept when the next ones are read.
The byte in front of the buffer is whatever lies there on the stack. -/
def scanLoop (before : Nat → UInt8) (fsz : Nat) :
    FileLoop (Buffer × Nat × Scan) (List BlockBoundary) where
  body := fun (buf, rpos, s) => do
    let s := scanChunk (before rpos) buf (rpos - buf.length) s
    if fsz = rpos then return .done s.bl
    else
      let r ← tryRead (ChunkSize - 8 - 1)
      return .again (buf.drop (buf.length - 8 - 1) ++ r, rpos + r.length, s)
  consumes {s s' fh g} h := by
    simp only at h
    split at h
    · cases h
    · obtain ⟨r, m, hread, hret⟩ := FileM.of_run_bind_ok h
      cases hret
      simp only [tryRead, StateT.run] at hread
      split at hread
      · cases hread
      · rename_i hne
        cases hread
        have hpos := List.length_pos_iff.mpr hne
        simp only [remaining]
        rw [List.length_take, List.length_drop] at hpos ⊢
        omega

def findBlockBoundaryCandidates (before : Nat → UInt8) : FileM (List BlockBoundary) := do
  let fsz ← size
  let _ ← seek 0 .set
  let buf ← tryRead ChunkSize
  (scanLoop before fsz).run (buf, buf.length, ⟨lcreset + 1, 0, []⟩)

/-- A write that stays inside the buffer. -/
def put (b : Buffer) (i : Nat) (x : UInt8) : Option Buffer :=
  if i < b.length then some (b.set i x) else none

/-- Shift that many bytes from `ip` on, each with the byte behind it. -/
def shiftLoop (l r : Nat) : Nat → Nat → Buffer → Option Buffer
  | 0, _, b => some b
  | n + 1, ip, b => do
      let x ← b[ip]?
      let y ← b[ip + 1]?
      let b ← put b ip (shiftByte x y l r)
      shiftLoop l r n (ip + 1) b

/-- Write the bytes of the footer from `ip` on, shifted. -/
def writeFooter (l r : Nat) : Buffer → Nat → Buffer → Option Buffer
  | [], _, b => some b
  | [x], ip, b => put b ip (UInt8.ofNat (x.toNat <<< l))
  | x :: y :: ep, ip, b => do
      let b ← put b ip (shiftByte x y l r)
      writeFooter l r (y :: ep) (ip + 1) b

/-- Move the data to a byte border. -/
def shiftData (bits n ip : Nat) (b : Buffer) : Option Buffer :=
  let sbits := 8 - bits
  if bits ≠ 0 then shiftLoop sbits bits n ip b else some b

/-- Put the first bits of the footer into the last byte in front of `ip`. -/
def mergeFooter (ebits sebits : Nat) (ep : Buffer) (ip : Nat) (b : Buffer) : Option Buffer :=
  if ebits ≠ 0 then do
    let x ← b[ip - 1]?
    let y ← ep[0]?
    put b (ip - 1) (mergeByte x y ebits sebits)
  else some b

/-- Empty the last `ebitsp` bits in front of `fp` and put the footer there. -/
def putFooter (ebitsp fp : Nat) (b : Buffer) : Option Buffer := do
  let ebits := ebitsp % 8
  let sebits := 8 - ebits
  let ip := fp - ebitsp / 8
  let b ← (if 8 ≤ ebitsp then put b ip 0 else some b)
  -- Setup footer: EOS + CRC
  let crcStart := Magic.length + 1 + BlockMagicBytes
  let icrc ← (if crcStart + 4 ≤ b.length then some ((b.drop crcStart).take 4) else none)
  let fbuf := beBytes 8 EOSMagic.toNat ++ icrc
  -- Write footer
  let ep := fbuf.drop (8 - BlockMagicBytes)
  let b ← mergeFooter ebits sebits ep ip b
  writeFooter ebits sebits ep ip b

/-- Create a buffer that looks like a one-block file; `none` when an index leaves it. -/
def createAlignedBlock (fh : FileHandle) (b : Buffer) (level : UInt8)
    (coff bits stop endbits : Nat) :
    Except Exn (Option Buffer) := do
  -- Magic + level
  let prev := if bits ≠ 0 then 1 else 0
  let b := Buffer.resize b (Magic.length + 1 + prev + (stop - coff) + BlockMagicBytes + 4)
  let b := Buffer.blit b 0 (Magic ++ [level])
  let ip := Magic.length + 1
  -- Data
  let data ← fh.tryPReadAt ((coff : Int) - prev) (stop - coff + prev)
  let b := Buffer.blit b ip data
  -- How many bits should be empty at the end?
  let ebitsp := 8 * prev - bits + endbits
  return (shiftData bits data.length ip b).bind (putFooter ebitsp (ip + data.length))

def newBlock (start stop : BlockBoundary) (uoff usize : Nat) (level : UInt8) : Bzip2Block where
  block := ⟨UInt32.ofNat usize, UInt32.ofNat (stop.coff - start.coff), UInt64.ofNat uoff,
    UInt64.ofNat start.coff⟩
  bits := start.bits.castLE (by decide)
  endbits := stop.bits.castLE (by decide)
  level := level

/-- The pairs of candidates the loop of `buildIndex` tries: `i`, and the one behind it in
the list. The buffer of the realigned block is used over and over. -/
def buildIndexLoop (bz : Bzlib) (fh : FileHandle) :
    List BlockBoundary → BlockBoundary → UInt8 → Nat → Buffer → List Bzip2Block →
      Except Exn (Option (List Bzip2Block))
  | [], _, _, _, _, mBlocks => .ok (some mBlocks)
  | j :: bl, i, level, uoff, b, mBlocks =>
      if i.magic = EOSMagic then buildIndexLoop bz fh bl j level uoff b mBlocks
      else
        let level := if level = 0 then i.level else level
        match createAlignedBlock fh b level i.coff i.bits j.coff j.bits with
        | .error e => .error e
        | .ok none => .ok none
        | .ok (some b) =>
            match bz.decompress b with
            -- Boundary spurious, remove it
            | .error _ => buildIndexLoop bz fh bl i level uoff b mBlocks
            | .ok out =>
                buildIndexLoop bz fh bl j (if j.magic = EOSMagic then 0 else level)
                  (uoff + out.length) b (mBlocks ++ [newBlock i j uoff out.length level])

/-- `none` when the behaviour is undefined: there is no candidate, or an index leaves a
buffer. -/
def buildIndex (bz : Bzlib) (before : Nat → UInt8) (_fuel : Nat) (mBlocks : List Bzip2Block)
    (fh : FileHandle) : Option (Except Exn (List Bzip2Block)) :=
  match (findBlockBoundaryCandidates before).run fh with
  | .error e => some (.error e)
  | .ok ([], _) => none
  | .ok (i :: bl, _) =>
      match buildIndexLoop bz fh bl i i.level 0 [] mBlocks with
      | .error e => some (.error e)
      | .ok none => none
      | .ok (some mBlocks) => some (.ok mBlocks)

open IndexedCompFile

/-- The two numbers of bits of a record in one byte. -/
def packBits (b : Bzip2Block) : UInt8 :=
  UInt8.ofNat ((b.endbits.val <<< 4) + b.bits.val)

def readBlock (b : Bzip2Block) : FileM (Bool × Bzip2Block) := do
  let (more, block) ← readBlockBase b.block
  if more then
    let bits ← readBE8
    let level ← readBE8
    return (true,
      ⟨block, Fin.ofNat 16 (bits &&& 0xF).toNat, Fin.ofNat 16 (bits >>> 4).toNat, level⟩)
  else return (false, { b with block })

def writeBlock (b : Bzip2Block) : FileM Unit := do
  writeBlockBase b.block
  writeBE8 (packBits b)
  writeBE8 b.level

theorem readBlock_consumes {b b' : Bzip2Block} {fh g : FileHandle}
    (h : (readBlock b).run fh = .ok ((true, b'), g)) : g.remaining < fh.remaining := by
  obtain ⟨⟨more, block⟩, m, hread, hrest⟩ := FileM.of_run_bind_ok h
  cases more with
  | false => cases hrest
  | true =>
      obtain ⟨hlt, hdata⟩ := readBlockBase_consumes hread
      have hfwd := (Forward.readBE8.bind fun _ => Forward.readBE8.bind fun _ =>
        Forward.pure _) hrest
      simp only [remaining, hfwd.1] at hlt ⊢
      omega

/-- A bzip2 file as a file with an index. -/
def file (bz : Bzlib) (before : Nat → UInt8) (indexPath : String) : IndexedCompFile Bzip2Block where
  indexPath := indexPath
  block := Bzip2Block.block
  setUoff b uoff := { b with block := { b.block with uoff := uoff } }
  newBlock := ⟨⟨0, 0, 0, 0⟩, 0, 0, 0⟩
  readBlock := readBlock
  writeBlock := writeBlock
  buildIndex := buildIndex bz before
  readBlock_consumes := readBlock_consumes

/-- The bytes of a record. -/
def encodeBlock (b : Bzip2Block) : Buffer :=
  encodeBase b.block ++ (beBytes 1 (packBits b).toNat ++ beBytes 1 b.level.toNat)

theorem unpackBits (b : Bzip2Block) :
    Fin.ofNat 16 (packBits b &&& 0xF).toNat = b.bits ∧
      Fin.ofNat 16 (packBits b >>> 4).toNat = b.endbits := by
  have hall : ∀ bits endbits : Fin 16,
      Fin.ofNat 16 (UInt8.ofNat ((endbits.val <<< 4) + bits.val) &&& 0xF).toNat = bits ∧
        Fin.ofNat 16 (UInt8.ofNat ((endbits.val <<< 4) + bits.val) >>> 4).toNat = endbits := by
    decide
  exact hall b.bits b.endbits

section Codec

variable {fh : FileHandle} {b : Bzip2Block} {tl : Buffer}

theorem run_writeBlock (b : Bzip2Block) (h : fh.AtEnd) :
    (writeBlock b).run fh = .ok ((), fh.append (encodeBlock b)) := by
  rw [writeBlock, writeBE8, writeBE8, FileM.run_bind_ok (run_writeBlockBase _ h),
    FileM.run_bind_ok (run_writeBE (atEnd_append _ _) _ _), run_writeBE (atEnd_append _ _),
    append_append, append_append]
  rfl

theorem run_readBlock {new : Bzip2Block} (hb : b.block.usize ≠ 0)
    (hr : fh.rest = encodeBlock b ++ tl) :
    (readBlock new).run fh =
      .ok ((true, { b with block := { b.block with uoff := new.block.uoff } }), fh.skip 18) := by
  rw [encodeBlock, List.append_assoc, List.append_assoc] at hr
  have h1 := rest_skip_append hr (length_encodeBase _)
  have h2 := rest_skip_append h1 (length_beBytes _ _)
  rw [readBlock, FileM.run_bind_ok (run_readBlockBase hb hr)]
  simp only [↓reduceIte]
  rw [FileM.run_bind_ok (run_readBE8 h1), FileM.run_bind_ok (run_readBE8 h2), (unpackBits b).1,
    (unpackBits b).2]
  rfl

theorem run_readBlock_end {new : Bzip2Block} (hr : fh.rest = beBytes 4 0 ++ tl) :
    ∃ b', (readBlock new).run fh = .ok ((false, b'), fh.skip 4) := by
  rw [readBlock, FileM.run_bind_ok (run_readBlockBase_end hr)]
  exact ⟨_, rfl⟩

theorem readBlock_inside (b : Bzip2Block) : Inside (readBlock b) := by
  intro fh r g h
  obtain ⟨⟨more, block⟩, m, hread, hrest⟩ := FileM.of_run_bind_ok h
  cases more with
  | false =>
      cases hrest
      exact readBlockBase_inside _ hread
  | true => exact (Inside.bind fun _ => Inside.readBE8.map _) hrest

/-- Bzip2 records are read back as they were written. -/
def codec (bz : Bzlib) (before : Nat → UInt8) (indexPath : String) :
    (file bz before indexPath).Codec where
  encode := encodeBlock
  run_writeBlock b h := run_writeBlock b h
  run_readBlock {fh b tl} hb hr := ⟨_, run_readBlock hb hr, rfl, fun _ => rfl⟩
  encode_zero {b} hb := by
    obtain ⟨tl, htl⟩ := encodeBase_zero (b := b.block) hb
    exact ⟨_, by rw [encodeBlock, htl, List.append_assoc]⟩
  run_readBlock_end hr := run_readBlock_end hr
  readBlock_cutStable :=
    (readBlockBase_cutStable _).bind fun _ => CutStable.ite
      (CutStable.readBE8.bind fun _ => CutStable.readBE8.bind fun _ => CutStable.pure _)
      (CutStable.pure _)
  readBlock_inside := readBlock_inside _
  setUoff_self _ := rfl
  uoff_setUoff _ _ := rfl

end Codec

end Bzip2File

end Lzopfs
