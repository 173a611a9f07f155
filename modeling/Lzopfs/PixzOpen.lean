import Lzopfs.Initialize
import Lzopfs.PixzIndex

/-!
# Opening an xz file

The constructor checks the header of the file, reads the index from its end, and looks through
the blocks that liblzma finds in it. What an iterator shows of a block are the sizes that the
index records, and the places that follow from them.
-/

namespace Lzopfs

open Verify FileHandle

namespace PixzFile

/-- What an index records of a block: its size with the padding, and that of its contents. -/
structure IndexRecord where
  total_size : UInt64
  uncompressed_size : UInt64
  deriving DecidableEq, Repr

/-- Blocks with these records, one after the other. -/
def recordBlocks (check : UInt32) : UInt64 → UInt64 → List IndexRecord → List IndexBlock
  | _, _, [] => []
  | coff, uoff, r :: rs =>
      ⟨coff, uoff, r.total_size, r.uncompressed_size, check⟩ ::
        recordBlocks check (coff + r.total_size) (uoff + r.uncompressed_size) rs

/-- liblzma, as far as an xz file is opened with it. -/
structure Liblzma extends LzmaIndexing where
  /-- `lzma_stream_header_decode`. -/
  stream_header_decode : Buffer → Except LzmaRet Flags
  check : Flags → UInt32
  blockRecords : Records → List IndexRecord
  /-- An index that is read, as iterators go through it. -/
  iterated : Index → LzmaIndex

namespace Liblzma

variable (lz : Liblzma)

/-- The blocks of the streams of a file, from a place on. A block starts behind the header of
its stream. -/
def streamBlocks : UInt64 → UInt64 → List (StreamEntry lz.Records lz.Flags) → List IndexBlock
  | _, _, [] => []
  | coff, uoff, e :: es =>
      let rs := lz.blockRecords e.records
      recordBlocks ((e.flags.map lz.check).getD 0) (coff + UInt64.ofNat LZMA_STREAM_HEADER_SIZE)
          uoff rs ++
        streamBlocks (coff + UInt64.ofNat (lz.streamSize e.records + e.padding))
          (uoff + (rs.map IndexRecord.uncompressed_size).sum) es

/-- Iterators report what is stored in the index. -/
def Reports : Prop := ∀ idx, (lz.iterated idx).blocks = lz.streamBlocks 0 0 (lz.streams idx)

end Liblzma

def readHeader (lz : Liblzma) (mPath : String) : FileM Unit :=
  catchEOF (do
    let header ← read LZMA_STREAM_HEADER_SIZE
    match lz.stream_header_decode header with
    | .error .formatError => throw (.format mPath "magic mismatch")
    | .error .dataError => throw (.format mPath "corrupt header")
    | .error .optionsError => throw (.format mPath "unsupported options in header")
    | .error _ => throw (.format mPath "bad header")
    | .ok _ => return ())
    (.format mPath "EOF")

/-- The index that the constructor reads; the end of the file is reported as such. -/
def openIndex (lz : Liblzma) (mPath : String) (fuel : Nat) (fh : FileHandle) :
    Option (Except Exn lz.Index) :=
  match (readHeader lz mPath).run fh with
  | .error e => some (.error e)
  | .ok ((), fh) => (readIndex lz.toLzmaIndexing mPath fuel fh).map fun
      | .error (.eof _) => .error (.format mPath "EOF")
      | r => r

/-- The constructor's last check. -/
def checked (idx : LzmaIndex) (maxBlock : UInt64) : Except Exn (LzmaIndex × Bool) :=
  match (CompFile.pixz idx).checkSizes maxBlock with
  | .error e => .error e
  | .ok warned => .ok (idx, warned)

/-- The constructor: the index, and whether `checkSizes` warns. -/
def new (lz : Liblzma) (maxBlock : UInt64) (path : Str) (fuel : Nat) (fs : FileSystem) :
    Option (Except Exn (LzmaIndex × Bool)) :=
  match fs.openRead (String.ofList path) with
  | .error e => some (.error e)
  | .ok fh => (openIndex lz (String.ofList path) fuel fh).map fun
      | .error e => .error e
      | .ok idx => checked (lz.iterated idx) maxBlock

variable {lz : Liblzma} {mPath : String} {fuel : Nat} {fh g : FileHandle} {fs : FileSystem}
  {path : Str} {maxBlock : UInt64}

theorem openIndex_ok {idx : lz.Index} (hheader : (readHeader lz mPath).run fh = .ok ((), g))
    (hindex : readIndex lz.toLzmaIndexing mPath fuel g = some (.ok idx)) :
    openIndex lz mPath fuel fh = some (.ok idx) := by
  rw [openIndex, hheader]
  dsimp only
  rw [hindex]
  rfl

/-- An index that was read is looked through. -/
theorem new_eq {idx : lz.Index} (hopen : fs.openRead (String.ofList path) = .ok fh)
    (hindex : openIndex lz (String.ofList path) fuel fh = some (.ok idx)) :
    new lz maxBlock path fuel fs = some (checked (lz.iterated idx) maxBlock) := by
  rw [new, hopen]
  dsimp only
  rw [hindex]
  rfl

theorem sizeOf_recordBlocks (check : UInt32) (coff uoff : UInt64) (rs : List IndexRecord) :
    sizeOf (recordBlocks check coff uoff rs) =
      (rs.map fun r => r.uncompressed_size.toNat).sum := by
  induction rs generalizing coff uoff with
  | nil => rfl
  | cons r rs ih => rw [recordBlocks, sizeOf_cons, ih, List.map_cons, List.sum_cons]

/-- The blocks of records lie one after the other. -/
theorem offsets_recordBlocks {check : UInt32} {coff uoff : UInt64} {rs : List IndexRecord}
    {front back : List IndexBlock} {b : IndexBlock}
    (hlt : uoff.toNat + (rs.map fun r => r.uncompressed_size.toNat).sum < 2 ^ 64)
    (h : recordBlocks check coff uoff rs = front ++ b :: back) :
    b.uncompressed_file_offset.toNat = uoff.toNat + sizeOf front := by
  induction rs generalizing coff uoff front with
  | nil =>
      have hlen := congrArg List.length h
      rw [recordBlocks, List.length_append, List.length_cons, List.length_nil] at hlen
      omega
  | cons r rs ih =>
      rw [recordBlocks] at h
      rw [List.map_cons, List.sum_cons] at hlt
      cases front with
      | nil =>
          obtain ⟨rfl, -⟩ := List.cons.inj h
          rfl
      | cons c front =>
          obtain ⟨rfl, hback⟩ := List.cons.inj h
          have hnat : (uoff + r.uncompressed_size).toNat =
              uoff.toNat + r.uncompressed_size.toNat := by
            rw [UInt64.toNat_add, Nat.mod_eq_of_lt (by omega)]
          rw [ih (by omega) hback, hnat, sizeOf_cons, Nat.add_assoc]

/-- One stream is the last one, with nothing in front. -/
theorem singleton_eq_concat {α : Type} {a b : α} {as : List α} (h : [a] = as ++ [b]) :
    as = [] ∧ b = a := by
  have happ : [] ++ [a] = as ++ [b] := h
  obtain ⟨has, hb⟩ := List.append_inj' happ rfl
  exact ⟨has.symm, (List.cons.inj hb).1.symm⟩

/-- liblzma on files of one stream, when it knows one index field and one footer. The flags are
the type of the check. -/
def knownField (field footer : Buffer) (hmagic : footer.drop 10 = [0x59, 0x5a])
    (hfield : field ≠ []) (rs : List IndexRecord)
    (hsize : (rs.map fun r => r.uncompressed_size.toNat).sum < 2 ^ 63) : Liblzma where
  Flags := UInt8
  Index := StreamEntry Unit UInt8
  decoder := fieldDecoder field
  stream_footer_decode buf := if buf = footer then .ok 4 else .error .dataError
  backward_size _ := UInt64.ofNat field.length
  index_decoder := some []
  decoded _ := ⟨(), none, 0⟩
  index_file_size e := UInt64.ofNat
    (24 + (rs.map fun r => r.total_size.toNat).sum + field.length + e.padding)
  index_stream_flags e flags := .ok { e with flags := some flags }
  index_stream_padding e pad := .ok { e with padding := pad.toNat }
  index_cat _ _ := .error .dataError
  Records := Unit
  streamSize _ := 24 + (rs.map fun r => r.total_size.toNat).sum + field.length
  streams e := [e]
  parse buf := if field <+: buf then some () else none
  Fits es := es.length < 2
  footer_magic {buf flags} h := by
    split at h
    · rw [‹buf = footer›]
      exact hmagic
    · cases h
  decodes {s} h := by
    cases h
    have hdoc := @fieldDecoder_parses field _ hfield
      ([⟨(), none, 0⟩] : List (StreamEntry Unit UInt8))
    have hparse : (fun buf => (if field <+: buf then some () else none).map fun r =>
        ([⟨r, none, 0⟩] : List (StreamEntry Unit UInt8))) =
        fun buf => if field <+: buf then some [⟨(), none, 0⟩] else none := by
      funext buf
      split <;> rfl
    rw [hparse]
    exact hdoc
  file_size e h := by
    have hone : fileSize
        (fun _ : Unit => 24 + (rs.map fun r => r.total_size.toNat).sum + field.length) [e] =
        24 + (rs.map fun r => r.total_size.toNat).sum + field.length + e.padding := rfl
    rw [hone] at h ⊢
    rw [UInt64.toNat_ofNat', Nat.mod_eq_of_lt (by omega)]
  stream_flags {e es e' buf flags} h _ := by
    obtain ⟨rfl, rfl⟩ := singleton_eq_concat h
    exact ⟨_, rfl, rfl⟩
  stream_padding {e es e' pad} h _ _ := by
    obtain ⟨rfl, rfl⟩ := singleton_eq_concat h
    exact ⟨_, rfl, rfl⟩
  cat_ok h := absurd h (Nat.lt_irrefl 2)
  cat_error _ := ⟨_, rfl⟩
  stream_header_decode buf :=
    if buf = [0xfd, 0x37, 0x7a, 0x58, 0x5a, 0x00, 0x00, 0x04, 0xe6, 0xd6, 0xb4, 0x46] then .ok 4
    else .error .formatError
  check flags := flags.toUInt32
  blockRecords _ := rs
  iterated e := .ofBlocks (recordBlocks ((e.flags.map UInt8.toUInt32).getD 0) 12 0 rs)
    ((sizeOf_recordBlocks _ _ _ _).trans_lt hsize) fun front b back h => by
      have hoff := offsets_recordBlocks (by
        rw [UInt64.toNat_zero]
        omega) h
      rw [hoff, UInt64.toNat_zero, Nat.zero_add]

/-- Iterators report what this liblzma knows. -/
theorem knownField_reports {field footer : Buffer} {rs : List IndexRecord}
    (hmagic : footer.drop 10 = [0x59, 0x5a]) (hfield : field ≠ [])
    (hsize : (rs.map fun r => r.uncompressed_size.toNat).sum < 2 ^ 63) :
    (knownField field footer hmagic hfield rs hsize).Reports := fun _ => (List.append_nil _).symm

end PixzFile

end Lzopfs
