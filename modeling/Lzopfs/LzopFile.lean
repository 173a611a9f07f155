import Lzopfs.IndexFile

/-!
# Lzop files

An lzop file is a sequence of parts. The header of a part is checked against
its checksum by reading it twice; its flags tell how many checksums precede the
payload of a block. Building the index only follows the block headers and seeks
over the payloads, past the end of a file that is cut short.
-/

namespace Lzopfs

open Verify FileHandle

namespace LzopFile

def AdlerDec : UInt32 := (1 : UInt32) <<< 0
def AdlerComp : UInt32 := (1 : UInt32) <<< 1
def ExtraField : UInt32 := (1 : UInt32) <<< 6
def CRCDec : UInt32 := (1 : UInt32) <<< 8
def CRCComp : UInt32 := (1 : UInt32) <<< 9
def Filter : UInt32 := (1 : UInt32) <<< 11
def HeaderCRC : UInt32 := (1 : UInt32) <<< 12

inductive ChecksumType where
  | Adler
  | CRC

def Magic : Buffer := [0x89, 0x4c, 0x5a, 0x4f, 0x00, 0x0d, 0x0a, 0x1a, 0x0a]

/-- Version of lzop the source emulates. -/
def LzopDecodeVersion : UInt16 := 0x1010

/-- The checksum functions of the LZO library. -/
structure Lzo where
  adler32 : UInt32 → Buffer → UInt32
  crc32 : UInt32 → Buffer → UInt32

def checksum (lzo : Lzo) (type : ChecksumType) (buf : Buffer) : UInt32 :=
  match type with
  | .CRC => lzo.crc32 0 buf
  | .Adler => lzo.adler32 1 buf

def checksumType (flags : UInt32) : ChecksumType :=
  if flags &&& HeaderCRC ≠ 0 then .CRC else .Adler

/-- The fields of a header up to the end of the file name; only the flags are
kept. -/
def readFields (mPath : String) : FileM UInt32 := do
  let _lzopEncVers ← readBE16
  let _lzoVers ← readBE16
  let lzopMinVers ← readBE16
  throwIf (lzopMinVers > LzopDecodeVersion) (.format mPath "lzop version too new")
  let _method ← readBE8
  let _level ← readBE8
  let flags ← readBE32
  throwIf (flags &&& Filter ≠ 0) (.format mPath "filter not supported")
  seekBy (3 * 4) -- skip mode, mtimes
  let filenameSize ← readBE8
  doIf (filenameSize > 0) (seekBy filenameSize.toNat)
  return flags

/-- Read the header a second time, from `headerStart` on, and compare its
checksum with the stored one. -/
def checkHeader (lzo : Lzo) (mPath : String) (flags : UInt32) (headerStart : Nat) : FileM Unit := do
  let headerEnd ← tell
  let _ ← seek headerStart .set
  let header ← read (headerEnd - headerStart)
  let cksum ← readBE32
  throwIf (cksum ≠ checksum lzo (checksumType flags) header) (.format mPath "checksum mismatch")

def skipExtra (flags : UInt32) : FileM Unit :=
  doIf (flags &&& ExtraField ≠ 0) do
    let extraSize ← readBE32
    seekBy (extraSize.toNat + 4)

def readHeaders (lzo : Lzo) (mPath : String) : FileM UInt32 :=
  catchEOF (do
    let magic ← read Magic.length
    throwIf (magic ≠ Magic) (.format mPath "magic mismatch")
    let headerStart ← tell
    let flags ← readFields mPath
    checkHeader lzo mPath flags headerStart
    skipExtra flags
    return flags) (.format mPath "EOF")

/-- Size of the checksums of the uncompressed data in a block header. -/
def usums (flags : UInt32) : Nat :=
  ((if flags &&& CRCDec ≠ 0 then 1 else 0) + if flags &&& AdlerDec ≠ 0 then 1 else 0) * 4

/-- Size of the checksums of the compressed data in a block header. -/
def csums (flags : UInt32) : Nat :=
  ((if flags &&& CRCComp ≠ 0 then 1 else 0) + if flags &&& AdlerComp ≠ 0 then 1 else 0) * 4

/-- The checksums of a block: a stored block has none of compressed data. -/
def blockSums (flags usize csize : UInt32) : Nat :=
  usums flags + if usize ≠ csize then csums flags else 0

/-- Iterate through the blocks of a part. `coff` follows the file position. -/
def findBlocksLoop (flags : UInt32) : FileLoop (Nat × Nat × List Block) (Nat × List Block) where
  body := fun (coff, uoff, mBlocks) => do
    let usize ← readBE32
    if usize = 0 then return .done (uoff, mBlocks)
    else
      let csize ← readBE32
      let sums := blockSums flags usize csize
      seekBy (sums + csize.toNat)
      return .again (coff + (sums + csize.toNat + 8), uoff + usize.toNat,
        mBlocks ++ [⟨usize, csize, UInt64.ofNat uoff, UInt64.ofNat (coff + 8 + sums)⟩])
  consumes {s s' fh g} h := by
    obtain ⟨usize, m, hread, hrest⟩ := FileM.of_run_bind_ok h
    obtain ⟨hle, rfl⟩ := run_readBE32_inv hread
    rw [length_rest] at hle
    split at hrest
    · cases hrest
    · obtain ⟨csize, m', hread', hseek⟩ := FileM.of_run_bind_ok hrest
      obtain ⟨-, rfl⟩ := run_readBE32_inv hread'
      rw [FileM.run_bind_ok (run_seekBy _)] at hseek
      cases hseek
      simp only [remaining, skip_pos, skip_data] at hle ⊢
      omega

def findBlocks (flags : UInt32) (uoff : Nat) (mBlocks : List Block) : FileM (Nat × List Block) := do
  let coff ← tell
  (findBlocksLoop flags).run (coff, uoff, mBlocks)

section Position

theorem readFields_forward (mPath : String) : Forward (readFields mPath) :=
  Forward.readBE16.bind fun _ => Forward.readBE16.bind fun _ => Forward.readBE16.bind fun _ =>
  (Forward.throwIf _ _).bind fun _ => Forward.readBE8.bind fun _ => Forward.readBE8.bind fun _ =>
  Forward.readBE32.bind fun _ => (Forward.throwIf _ _).bind fun _ =>
  (Forward.seekBy _).bind fun _ => Forward.readBE8.bind fun _ =>
  (Forward.doIf _ (Forward.seekBy _)).bind fun _ => Forward.pure _

theorem skipExtra_forward (flags : UInt32) : Forward (skipExtra flags) :=
  Forward.doIf _ (Forward.readBE32.bind fun _ => Forward.seekBy _)

theorem findBlocksLoop_forward (flags : UInt32) (s : Nat × Nat × List Block) :
    Forward ((findBlocksLoop flags).body s) :=
  Forward.readBE32.bind fun _ => Forward.ite (Forward.pure _)
    (Forward.readBE32.bind fun _ => (Forward.seekBy _).bind fun _ => Forward.pure _)

theorem findBlocks_forward (flags : UInt32) (uoff : Nat) (mBlocks : List Block) :
    Forward (findBlocks flags uoff mBlocks) :=
  Forward.tell.bind fun _ => FileLoop.forward (findBlocksLoop_forward flags) _

variable {lzo : Lzo} {mPath : String} {flags : UInt32} {fh g : FileHandle}

/-- Reading the fields moves the position. -/
theorem readFields_position (h : (readFields mPath).run fh = .ok (flags, g)) :
    fh.pos < g.pos := by
  obtain ⟨_, m, hread, hrest⟩ := FileM.of_run_bind_ok h
  obtain ⟨_, m', hread', hret⟩ := FileM.of_run_bind_ok hread
  obtain ⟨-, rfl⟩ := run_readBE_inv Nat.two_pos hread'
  cases hret
  refine Nat.lt_of_lt_of_le (Nat.lt_add_of_pos_right Nat.two_pos) (Forward.pos_le ?_ hrest)
  exact Forward.readBE16.bind fun _ => Forward.readBE16.bind fun _ =>
    (Forward.throwIf _ _).bind fun _ => Forward.readBE8.bind fun _ => Forward.readBE8.bind fun _ =>
    Forward.readBE32.bind fun _ => (Forward.throwIf _ _).bind fun _ =>
    (Forward.seekBy _).bind fun _ => Forward.readBE8.bind fun _ =>
    (Forward.doIf _ (Forward.seekBy _)).bind fun _ => Forward.pure _

/-- Checking the header leaves the position at or behind the start of the header. -/
theorem checkHeader_position {headerStart : Nat}
    (h : (checkHeader lzo mPath flags headerStart).run fh = .ok ((), g))
    (hs : headerStart < fh.pos) :
    g.data = fh.data ∧ headerStart ≤ g.pos := by
  rw [checkHeader, FileM.run_bind_ok run_tell, FileM.run_bind_ok (run_seek_set _)] at h
  obtain ⟨header, m, hread, hrest⟩ := FileM.of_run_bind_ok h
  obtain ⟨-, -, rfl⟩ := (read_ok_iff (by omega)).mp hread
  have hfwd := (Forward.readBE32.bind fun _ => Forward.throwIf _ _) hrest
  exact ⟨hfwd.1, Nat.le_trans (Nat.le_add_right _ _) hfwd.2⟩

/-- A header that is read leaves the position behind its magic. -/
theorem readHeaders_position (h : (readHeaders lzo mPath).run fh = .ok (flags, g)) :
    g.data = fh.data ∧ Magic.length ≤ fh.rest.length ∧ fh.pos + Magic.length ≤ g.pos := by
  have hin := run_catchEOF_ok h
  obtain ⟨magic, m, hread, hrest⟩ := FileM.of_run_bind_ok hin
  obtain ⟨hle, -, rfl⟩ := (read_ok_iff (by decide)).mp hread
  obtain ⟨_, m, hthrow, hrest⟩ := FileM.of_run_bind_ok hrest
  obtain ⟨-, rfl⟩ := of_throwIf_ok hthrow
  rw [FileM.run_bind_ok run_tell] at hrest
  obtain ⟨flags', m, hfields, hrest⟩ := FileM.of_run_bind_ok hrest
  obtain ⟨_, m', hcheck, hrest⟩ := FileM.of_run_bind_ok hrest
  obtain ⟨_, m'', hextra, hret⟩ := FileM.of_run_bind_ok hrest
  cases hret
  have hf := readFields_forward mPath hfields
  have hc := checkHeader_position hcheck (readFields_position hfields)
  have he := skipExtra_forward _ hextra
  refine ⟨by rw [he.1, hc.1, hf.1, skip_data], hle, ?_⟩
  exact Nat.le_trans hc.2 he.2

end Position

/-- Alternate between the blocks of a part and the header of the next part until
the end of the file. -/
def buildIndexLoop (lzo : Lzo) (mPath : String) (size : Nat) :
    FileLoop (UInt32 × Nat × List Block) (List Block) where
  body := fun (flags, uoff, mBlocks) => do
    let (uoff, mBlocks) ← findBlocks flags uoff mBlocks
    let pos ← tell
    if pos ≥ size then return .done mBlocks
    else
      let flags ← readHeaders lzo mPath
      return .again (flags, uoff, mBlocks)
  consumes {s s' fh g} h := by
    obtain ⟨⟨uoff, mBlocks⟩, m, hfind, hrest⟩ := FileM.of_run_bind_ok h
    obtain ⟨hd, hp⟩ := findBlocks_forward _ _ _ hfind
    rw [FileM.run_bind_ok run_tell] at hrest
    split at hrest
    · cases hrest
    · obtain ⟨flags, m', hhead, hret⟩ := FileM.of_run_bind_ok hrest
      cases hret
      obtain ⟨hd', hle, hp'⟩ := readHeaders_position hhead
      have hmagic : Magic.length = 9 := rfl
      simp only [length_rest, remaining, hd', hd] at hle ⊢
      omega

def buildIndex (lzo : Lzo) (mPath : String) (mFlags : UInt32) (mBlocks : List Block) :
    FileM (List Block) := do
  let size ← size
  (buildIndexLoop lzo mPath size).run (mFlags, 0, mBlocks)

def checkFileType (lzo : Lzo) (mPath : String) : FileM UInt32 := readHeaders lzo mPath

/-- What `initialize` does with an lzop file that has no saved index. -/
def index (lzo : Lzo) (mPath : String) : FileM (List Block) := do
  let mFlags ← checkFileType lzo mPath
  buildIndex lzo mPath mFlags []

/-- An lzop file as a file with an index; its records have the common fields only. -/
def file (lzo : Lzo) (mPath indexPath : String) (mFlags : UInt32) : IndexedCompFile Block where
  indexPath := indexPath
  block b := b
  setUoff b uoff := { b with uoff }
  newBlock := ⟨0, 0, 0, 0⟩
  readBlock := IndexedCompFile.readBlockBase
  writeBlock := IndexedCompFile.writeBlockBase
  buildIndex _ mBlocks fh := some (((buildIndex lzo mPath mFlags mBlocks).run fh).map Prod.fst)
  readBlock_consumes h := (IndexedCompFile.readBlockBase_consumes h).1

def codec (lzo : Lzo) (mPath indexPath : String) (mFlags : UInt32) :
    (file lzo mPath indexPath mFlags).Codec where
  encode := IndexedCompFile.encodeBase
  run_writeBlock b h := IndexedCompFile.run_writeBlockBase b h
  run_readBlock hb hr := ⟨_, IndexedCompFile.run_readBlockBase hb hr, rfl, fun _ => rfl⟩
  encode_zero hb := IndexedCompFile.encodeBase_zero hb
  run_readBlock_end hr := ⟨_, IndexedCompFile.run_readBlockBase_end hr⟩
  readBlock_cutStable := IndexedCompFile.readBlockBase_cutStable _
  readBlock_inside := IndexedCompFile.readBlockBase_inside _
  setUoff_self _ := rfl
  uoff_setUoff _ _ := rfl

end LzopFile

end Lzopfs
