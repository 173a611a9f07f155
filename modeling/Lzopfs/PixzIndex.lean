import Lzopfs.DecompressBlock

/-!
# The index of an xz file

An xz file is a sequence of streams, each followed by padding. A stream ends with its index
and a footer that says how long the index is. `readIndex` finds the streams from the end of
the file on: it skips the padding in windows of `ChunkSize` bytes, reads the footer, decodes
the index with liblzma, and goes on where the stream starts, until that is the start of the
file.
-/

namespace Lzopfs

open Verify FileHandle

namespace PixzFile

/-- The length of a stream header and of a footer. -/
def LZMA_STREAM_HEADER_SIZE : Nat := 12

/-- What the index of a file says of one of its streams. -/
structure StreamEntry (Records Flags : Type) where
  records : Records
  flags : Option Flags
  padding : Nat

/-- The length of the file with these streams. -/
def fileSize {Records Flags : Type} (streamSize : Records → Nat)
    (es : List (StreamEntry Records Flags)) : Nat :=
  (es.map fun e => streamSize e.records + e.padding).sum

/-- liblzma, as far as the index of a file is read with it. -/
structure LzmaIndexing where
  Flags : Type
  Index : Type
  decoder : Decoder UInt8 UInt8 LzmaRet
  /-- `lzma_stream_footer_decode`. -/
  stream_footer_decode : Buffer → Except LzmaRet Flags
  backward_size : Flags → UInt64
  /-- `lzma_index_decoder`. -/
  index_decoder : Option decoder.State
  /-- The index such a decoder makes. -/
  decoded : decoder.State → Index
  index_file_size : Index → UInt64
  index_stream_flags : Index → Flags → Except LzmaRet Index
  index_stream_padding : Index → UInt64 → Except LzmaRet Index
  /-- `lzma_index_cat`: the streams of the second index behind those of the first. -/
  index_cat : Index → Index → Except LzmaRet Index
  Records : Type
  /-- The length of the stream with these records. -/
  streamSize : Records → Nat
  /-- The streams of an index. -/
  streams : Index → List (StreamEntry Records Flags)
  /-- The records of an index field at the front of some bytes. -/
  parse : Buffer → Option Records
  /-- The index of these streams does not grow too big. -/
  Fits : List (StreamEntry Records Flags) → Prop
  footer_magic : ∀ {buf flags}, stream_footer_decode buf = .ok flags → buf.drop 10 = [0x59, 0x5a]
  decodes : ∀ {s}, index_decoder = some s → decoder.Parses .ok .streamEnd s
    (fun s => streams (decoded s)) fun buf => (parse buf).map fun r => [⟨r, none, 0⟩]
  file_size : ∀ idx, fileSize streamSize (streams idx) < 2 ^ 63 →
    (index_file_size idx).toNat = fileSize streamSize (streams idx)
  /-- The flags and the padding are those of the last stream. -/
  stream_flags : ∀ {idx es e buf flags}, streams idx = es ++ [e] →
    stream_footer_decode buf = .ok flags → ∃ idx', index_stream_flags idx flags = .ok idx' ∧
      streams idx' = es ++ [{ e with flags := some flags }]
  stream_padding : ∀ {idx es e} {pad : UInt64}, streams idx = es ++ [e] → pad.toNat % 4 = 0 →
    fileSize streamSize (es ++ [{ e with padding := pad.toNat }]) < 2 ^ 63 →
      ∃ idx', index_stream_padding idx pad = .ok idx' ∧
        streams idx' = es ++ [{ e with padding := pad.toNat }]
  cat_ok : ∀ {dest src}, Fits (streams dest ++ streams src) →
    ∃ idx, index_cat dest src = .ok idx ∧ streams idx = streams dest ++ streams src
  cat_error : ∀ {dest src}, ¬ Fits (streams dest ++ streams src) →
    ∃ ret, index_cat dest src = .error ret

/-- Go through the words at offsets `buf.length % 4 + 4 * i` for `i` below `words`, the last
one first: the offset of the first one that is not zero, and the padding with the words
that are zero added to it. -/
def scan (buf : Buffer) : (words : Nat) → (pad : Nat) → Option Nat × Nat
  | 0, pad => (none, pad)
  | i + 1, pad =>
      let f := buf.length % 4 + 4 * i
      if ofLE ((buf.drop f).take 4) ≠ 0 then (some f, pad) else scan buf i (pad + 4)

/-- One pass of the loop that skips padding. -/
def skipWindow (mPath : String) (pad : Nat) : FileM (Pass Nat Nat) := do
  let p ← tell
  throwIf (p < LZMA_STREAM_HEADER_SIZE) (.format mPath "padding not allowed at start")
  let s := min p ChunkSize
  let _ ← seek ((p - s : Nat) : Int) .set
  let buf ← read s
  match scan buf (buf.length / 4) pad with
  | (some f, pad) =>
      let _ ← seek (toOff (UInt64.ofNat f - UInt64.ofNat buf.length + 4)) .cur
      return .done pad
  | (none, pad) =>
      let _ ← seek ((p - s : Nat) : Int) .set
      return .again pad

/-- Every pass that goes round again has moved towards the start. -/
theorem skipWindow_again {mPath : String} {pad pad' : Nat} {fh g : FileHandle}
    (h : (skipWindow mPath pad).run fh = .ok (.again pad', g)) : g.pos < fh.pos := by
  rw [skipWindow, FileM.run_bind_ok run_tell] at h
  obtain ⟨hp, h⟩ := of_throwIf_bind_ok h
  rw [FileM.run_bind_ok (run_seek_set _)] at h
  obtain ⟨buf, m, -, h⟩ := FileM.of_run_bind_ok h
  have hchunk := chunkSize_pos
  have h12 : LZMA_STREAM_HEADER_SIZE = 12 := rfl
  split at h
  · obtain ⟨q, m', -, hret⟩ := FileM.of_run_bind_ok h
    cases hret
  · rw [FileM.run_bind_ok (run_seek_set _)] at h
    cases h
    show fh.pos - min fh.pos ChunkSize < fh.pos
    omega

/-- Skip any padding. -/
def skipPadding (mPath : String) : Loop Exn (Nat × FileHandle) (Nat × FileHandle) where
  body := onFile (skipWindow mPath)
  variant p := p.2.pos
  decreases h := skipWindow_again (onFile_again.mp h)

/-- Read the footer, and go to the index: the flags, and where the stream ends. -/
def readFooter (lz : LzmaIndexing) (mPath : String) : FileM (lz.Flags × Nat) := do
  let _ ← seek (-LZMA_STREAM_HEADER_SIZE) .cur
  let buf ← read LZMA_STREAM_HEADER_SIZE
  match lz.stream_footer_decode buf with
  | .error _ => throw (.format mPath "bad footer")
  | .ok flags =>
      let npos ← tell
      let _ ← seek (toOff (-12 - lz.backward_size flags)) .cur
      return (flags, npos)

/-- `code`, with the exception for a return code other than `LZMA_OK`. -/
def codeIndex (lz : LzmaIndexing) (mPath : String) (fh : FileHandle) :
    Pump lz.decoder (fh.source ChunkSize chunkSize_pos) where
  enough _ := false
  judge
    | .ok => .ok false
    | .streamEnd => .ok true
    | _ => .error (.format mPath "error decoding index")

/-- Set index params, combine with any later indices. -/
def combine (lz : LzmaIndexing) (mPath : String) (idx : Option lz.Index) (nidx : lz.Index)
    (flags : lz.Flags) (pad : Nat) : Except Exn lz.Index :=
  match lz.index_stream_flags nidx flags with
  | .error _ => .error (.format mPath "error setting stream flags")
  | .ok nidx =>
      match lz.index_stream_padding nidx (UInt64.ofNat pad) with
      | .error _ => .error (.format mPath "error setting stream padding")
      | .ok nidx =>
          match idx with
          | none => .ok nidx
          | some idx =>
              match lz.index_cat nidx idx with
              | .error _ => .error (.format mPath "error combining indices")
              | .ok nidx => .ok nidx

/-- What ends a pass early: an exception, or `none` if a decoder needs more calls than
were allowed. -/
abbrev Stop := Option Exn

def throws {α : Type} (x : Except Exn α) : Except Stop α := x.mapError some

/-- Decode the index at the position of the handle, within so many calls. -/
def decodeIndex (lz : LzmaIndexing) (mPath : String) (fuel : Nat) (fh : FileHandle) :
    Except Stop lz.Index :=
  match lz.index_decoder with
  | none => .error (some (.format mPath "error initializing index decoder"))
  | some s =>
      match iterate (codeIndex lz mPath fh).body fuel ⟨s, [], (fh.pos : Int), 0, []⟩ with
      | none => .error none
      | some (.error e) => .error (some e)
      | some (.ok f) => .ok (lz.decoded f.state)

/-- One pass of the loop: the stream, and any padding behind it, that end at the position
of the handle. -/
def readStream (lz : LzmaIndexing) (mPath : String) (fuel : Nat)
    (s : Option lz.Index × FileHandle) :
    Except Stop (Pass (Option lz.Index × FileHandle) lz.Index) := do
  let (pad, fh) ← throws ((skipPadding mPath).run (0, s.2))
  let ((flags, npos), fh) ← throws ((readFooter lz mPath).run fh)
  let nidx ← decodeIndex lz mPath fuel fh
  let npos := toOff (ofOff npos - lz.index_file_size nidx)
  let idx ← throws (combine lz mPath s.1 nidx flags pad)
  if npos = 0 then return .done idx
  else
    let (_, fh) ← throws ((seek npos .set).run fh)
    return .again (some idx, fh)

def readIndex (lz : LzmaIndexing) (mPath : String) (fuel : Nat) (fh : FileHandle) :
    Option (Except Exn lz.Index) :=
  match (seek 0 .end).run fh with
  | .error e => some (.error e)
  | .ok (_, fh) =>
      match iterate (readStream lz mPath fuel) fuel (none, fh) with
      | none => none
      | some (.ok idx) => some (.ok idx)
      | some (.error none) => none
      | some (.error (some e)) => some (.error e)

/-- So many zero bytes. -/
def zeros (n : Nat) : Buffer := List.replicate n 0

@[simp] theorem length_zeros (n : Nat) : (zeros n).length = n := List.length_replicate

theorem zeros_add (m n : Nat) : zeros (m + n) = zeros m ++ zeros n :=
  (List.replicate_append_replicate).symm

theorem drop_zeros (m n : Nat) : (zeros n).drop m = zeros (n - m) := List.drop_replicate

theorem take_zeros (m n : Nat) : (zeros n).take m = zeros (min m n) := List.take_replicate

theorem ofLE_zeros (n : Nat) : ofLE (zeros n) = 0 := by
  have hrev : (zeros n).reverse = zeros n := List.reverse_replicate
  rw [ofLE, hrev]
  clear hrev
  induction n with
  | zero => rfl
  | succ n ih =>
      have hlast : zeros (n + 1) = zeros n ++ [0] := zeros_add n 1
      rw [hlast, ofBE_append_singleton, ih]
      rfl

/-- Words that are zero are padding. -/
theorem scan_skip (buf : Buffer) (m k pad : Nat)
    (h : ∀ i, m ≤ i → ofLE ((buf.drop (buf.length % 4 + 4 * i)).take 4) = 0) :
    scan buf (m + k) pad = scan buf m (pad + 4 * k) := by
  induction k generalizing pad with
  | zero => rfl
  | succ k ih =>
      have hword := h (m + k) (Nat.le_add_right m k)
      show scan buf (m + k + 1) pad = _
      rw [scan, if_neg (not_not.mpr hword), ih]
      congr 1
      omega

/-- A window that ends with padding behind a word that is not zero. -/
theorem scan_found (front : Buffer) {w : Buffer} (k pad : Nat) (hlen : w.length = 4)
    (hw : ofLE w ≠ 0) :
    scan (front ++ w ++ zeros (4 * k)) ((front ++ w ++ zeros (4 * k)).length / 4) pad =
      (some front.length, pad + 4 * k) := by
  have hsize : (front ++ w ++ zeros (4 * k)).length = front.length + 4 + 4 * k := by
    rw [List.length_append, List.length_append, hlen, length_zeros]
  have hwords : (front ++ w ++ zeros (4 * k)).length / 4 = front.length / 4 + 1 + k := by
    rw [hsize]
    omega
  have hmod : (front ++ w ++ zeros (4 * k)).length % 4 + 4 * (front.length / 4) = front.length := by
    rw [hsize]
    omega
  rw [hwords, scan_skip, scan]
  · rw [hmod, List.append_assoc, List.drop_left, List.take_left' hlen, if_pos hw]
  · intro i hi
    have hbehind : (front ++ w).length ≤ (front ++ w ++ zeros (4 * k)).length % 4 + 4 * i := by
      rw [List.length_append, hlen]
      omega
    rw [List.drop_append, List.drop_eq_nil_of_le hbehind, List.nil_append, drop_zeros, take_zeros,
      ofLE_zeros]

/-- A window of padding. -/
theorem scan_zeros (n pad : Nat) :
    scan (zeros n) ((zeros n).length / 4) pad = (none, pad + 4 * (n / 4)) := by
  have hskip := scan_skip (zeros n) 0 (n / 4) pad (by
    intro i _
    rw [drop_zeros, take_zeros, ofLE_zeros])
  rw [length_zeros, ← Nat.zero_add (n / 4), hskip, Nat.zero_add]
  rfl

/-- A relative seek backwards, computed in unsigned arithmetic. -/
theorem toOff_neg {n : Nat} (h : n ≤ 2 ^ 63) : toOff (-UInt64.ofNat n) = -(n : Int) := by
  have hnat : (-UInt64.ofNat n).toNat = (2 ^ 64 - n) % 2 ^ 64 := by
    have hn : n % 2 ^ 64 = n := Nat.mod_eq_of_lt (by omega)
    rw [UInt64.toNat_neg, UInt64.toNat_ofNat', hn]
    rfl
  rw [toOff, hnat]
  split <;> omega

section SkipPadding

variable (mPath : String) (pad : Nat) {fh : FileHandle} {before front w later : Buffer} {k : Nat}

/-- What one pass looks at: the last bytes in front of the position. -/
def window (before : Buffer) : Buffer :=
  before.drop (before.length - min before.length ChunkSize)

theorem run_skipWindow (hdata : fh.data = before ++ later) (hpos : fh.pos = before.length)
    (h12 : 12 ≤ before.length) :
    (skipWindow mPath pad).run fh =
      (match scan (window before) ((window before).length / 4) pad with
        | (some f, pad) => (do
            let _ ← seek (toOff (UInt64.ofNat f - UInt64.ofNat (window before).length + 4)) .cur
            return .done pad : FileM (Pass Nat Nat))
        | (none, pad) => do
            let _ ← seek ((before.length - min before.length ChunkSize : Nat) : Int) .set
            return .again pad).run fh := by
  have hp : ¬ fh.pos < LZMA_STREAM_HEADER_SIZE := by
    rw [hpos]
    exact Nat.not_lt.mpr h12
  have hchunk := chunkSize_pos
  let m := { fh with pos := fh.pos - min fh.pos ChunkSize }
  have hrest : m.rest = window before ++ later := by
    show fh.data.drop (fh.pos - min fh.pos ChunkSize) = _
    rw [hdata, hpos, window, List.drop_append_of_le_length (Nat.sub_le _ _)]
  have hlen : (window before).length = min fh.pos ChunkSize := by
    rw [window, List.length_drop, hpos]
    omega
  have hread : (read (min fh.pos ChunkSize)).run m = .ok (window before, fh) := by
    have hne : window before ≠ [] := List.ne_nil_of_length_pos (by omega)
    have hok := read_ok hne hrest
    have hback : m.skip (min fh.pos ChunkSize) = fh := by
      show { fh with pos := fh.pos - min fh.pos ChunkSize + min fh.pos ChunkSize } = fh
      rw [Nat.sub_add_cancel (Nat.min_le_left _ _)]
    rw [hlen, hback] at hok
    exact hok
  rw [skipWindow, FileM.run_bind_ok run_tell, FileM.run_bind_ok (run_throwIf hp),
    FileM.run_bind_ok (run_seek_set _), FileM.run_bind_ok hread, hpos]

/-- A word that is not zero ends the padding, and the position is behind it. -/
theorem skipWindow_found (hdata : fh.data = front ++ w ++ zeros (4 * k) ++ later)
    (hpos : fh.pos = (front ++ w).length + 4 * k) (h12 : 12 ≤ (front ++ w).length)
    (hlen : w.length = 4) (hw : ofLE w ≠ 0) (hk : 4 * k + 4 ≤ ChunkSize) :
    (skipWindow mPath pad).run fh =
      .ok (.done (pad + 4 * k), { fh with pos := (front ++ w).length }) := by
  have hsize : (front ++ w).length = front.length + 4 := by
    rw [List.length_append, hlen]
  have hbefore : (front ++ w ++ zeros (4 * k)).length = front.length + 4 + 4 * k := by
    rw [List.length_append, hsize, length_zeros]
  have hwindow : window (front ++ w ++ zeros (4 * k)) =
      front.drop (front.length + 4 + 4 * k - min (front.length + 4 + 4 * k) ChunkSize) ++ w ++
        zeros (4 * k) := by
    have hle : front.length + 4 + 4 * k - min (front.length + 4 + 4 * k) ChunkSize ≤
        front.length := by omega
    rw [window, hbefore, List.append_assoc, List.drop_append_of_le_length hle, List.append_assoc]
  have hfound := scan_found (front.drop (front.length + 4 + 4 * k -
    min (front.length + 4 + 4 * k) ChunkSize)) k pad hlen hw
  rw [← hwindow] at hfound
  have hback : ∀ f s : Nat, s = f + 4 + 4 * k →
      toOff (UInt64.ofNat f - UInt64.ofNat s + 4) = -((4 * k : Nat) : Int) := by
    rintro f s rfl
    have hneg : UInt64.ofNat f - UInt64.ofNat (f + 4 + 4 * k) + 4 = -UInt64.ofNat (4 * k) := by
      rw [UInt64.ofNat_add, UInt64.ofNat_add]
      generalize UInt64.ofNat f = x
      generalize UInt64.ofNat (4 * k) = y
      show x - (x + 4 + y) + 4 = -y
      grind
    rw [hneg, toOff_neg]
    have hchunk : ChunkSize = 4096 := rfl
    omega
  have hlenw : (window (front ++ w ++ zeros (4 * k))).length =
      (front.drop (front.length + 4 + 4 * k -
        min (front.length + 4 + 4 * k) ChunkSize)).length + 4 + 4 * k := by
    rw [hwindow, List.length_append, List.length_append, hlen, length_zeros]
  have hseek : (seek (-((4 * k : Nat) : Int)) .cur).run fh =
      .ok ((front ++ w).length, { fh with pos := (front ++ w).length }) := by
    refine (run_seek_iff rfl).mpr ⟨?_, rfl⟩
    show (fh.pos : Int) + _ = _
    rw [hpos]
    omega
  rw [run_skipWindow mPath pad hdata (by rw [hbefore, hpos, hsize]) (by omega), hfound]
  show ((seek _ .cur >>= fun _ => pure (Pass.done (pad + 4 * k)) : FileM (Pass Nat Nat))).run fh = _
  rw [hback _ _ hlenw, FileM.run_bind_ok hseek]
  rfl

/-- A window of padding is skipped. -/
theorem skipWindow_zeros {n : Nat} (hdata : fh.data = front ++ zeros n ++ later)
    (hpos : fh.pos = front.length + n) (h12 : 12 ≤ fh.pos) (hn : min fh.pos ChunkSize ≤ n) :
    (skipWindow mPath pad).run fh = .ok (.again (pad + 4 * (min fh.pos ChunkSize / 4)),
      { fh with pos := fh.pos - min fh.pos ChunkSize }) := by
  have hbefore : (front ++ zeros n).length = fh.pos := by
    rw [List.length_append, length_zeros, hpos]
  have hwindow : window (front ++ zeros n) = zeros (min fh.pos ChunkSize) := by
    rw [window, hbefore, List.drop_append, List.drop_eq_nil_of_le (by omega), List.nil_append,
      drop_zeros]
    congr 1
    omega
  rw [run_skipWindow mPath pad hdata hbefore.symm (by rw [hbefore]; exact h12), hwindow, scan_zeros,
    hbefore]
  show ((seek _ .set >>= fun _ => pure (Pass.again _) : FileM (Pass Nat Nat))).run fh = _
  rw [FileM.run_bind_ok (run_seek_set _)]
  rfl

/-- Padding of any length behind a word that is not zero. -/
theorem run_skipPadding (hdata : fh.data = front ++ w ++ zeros (4 * k) ++ later)
    (hpos : fh.pos = (front ++ w).length + 4 * k) (h12 : 12 ≤ (front ++ w).length)
    (hlen : w.length = 4) (hw : ofLE w ≠ 0) :
    (skipPadding mPath).run (pad, fh) =
      .ok (pad + 4 * k, { fh with pos := (front ++ w).length }) := by
  have hchunk : ChunkSize = 4096 := rfl
  induction k using Nat.strongRecOn generalizing fh pad later with
  | ind k ih =>
      by_cases hk : 4 * k + 4 ≤ ChunkSize
      · exact Loop.run_done (onFile_done.mpr (skipWindow_found mPath pad hdata hpos h12 hlen hw hk))
      · have hmin : min fh.pos ChunkSize = 4096 := by omega
        have hpass := skipWindow_zeros mPath pad hdata hpos (by omega) (by omega)
        rw [hmin] at hpass
        have hsplit : zeros (4 * k) = zeros (4 * (k - 1024)) ++ zeros 4096 := by
          rw [← zeros_add]
          congr 1
          omega
        have hdata' : fh.data = front ++ w ++ zeros (4 * (k - 1024)) ++ (zeros 4096 ++ later) := by
          rw [hdata, hsplit]
          simp only [List.append_assoc]
        have hpos' : fh.pos - 4096 = (front ++ w).length + 4 * (k - 1024) := by omega
        have hnext : (skipPadding mPath).run (pad + 4 * (4096 / 4),
            { fh with pos := fh.pos - 4096 }) = .ok (pad + 4 * (4096 / 4) + 4 * (k - 1024),
              { fh with pos := (front ++ w).length }) :=
          ih (k - 1024) (by omega) _ hdata' hpos'
        have htotal : pad + 4 * (4096 / 4) + 4 * (k - 1024) = pad + 4 * k := by omega
        rw [htotal] at hnext
        exact (Loop.run_again (l := skipPadding mPath) (onFile_again.mpr hpass)).trans hnext

/-- Padding with nothing in front of it. -/
theorem run_skipPadding_start {n : Nat} (hdata : fh.data = zeros n ++ later) (hpos : fh.pos ≤ n) :
    (skipPadding mPath).run (pad, fh) =
      .error (.format mPath "padding not allowed at start") := by
  have hchunk : ChunkSize = 4096 := rfl
  induction hp : fh.pos using Nat.strongRecOn generalizing fh pad with
  | ind p ih =>
      by_cases h12 : fh.pos < 12
      · apply Loop.run_error
        apply onFile_error.mpr
        rw [skipWindow, FileM.run_bind_ok run_tell]
        apply FileM.run_bind_error
        rw [throwIf, if_pos (show fh.pos < LZMA_STREAM_HEADER_SIZE from h12)]
        rfl
      · have hsplit : zeros n = zeros fh.pos ++ zeros (n - fh.pos) := by
          rw [← zeros_add]
          congr 1
          omega
        have hdata' : fh.data = [] ++ zeros fh.pos ++ (zeros (n - fh.pos) ++ later) := by
          rw [hdata, hsplit]
          simp only [List.append_assoc, List.nil_append]
        have hpass := skipWindow_zeros mPath pad hdata' (Nat.zero_add _).symm (by omega)
          (Nat.min_le_left _ _)
        rw [Loop.run_again (l := skipPadding mPath) (onFile_again.mpr hpass)]
        have hless : fh.pos - min fh.pos ChunkSize < p := by omega
        have hle : fh.pos - min fh.pos ChunkSize ≤ n := Nat.le_trans (Nat.sub_le _ _) hpos
        exact @ih _ hless _ { fh with pos := fh.pos - min fh.pos ChunkSize } hdata hle rfl

end SkipPadding

/-- The end of a stream as the format has it: its index, and a footer that says how long that
is. `body` is what stands before them. -/
structure XzStream (lz : LzmaIndexing) where
  body : Buffer
  index : Buffer
  footer : Buffer
  records : lz.Records
  flags : lz.Flags
  footer_length : footer.length = 12
  footer_decode : lz.stream_footer_decode footer = .ok flags
  backward_size : (lz.backward_size flags).toNat = index.length
  index_parse : ∀ behind, lz.parse (index ++ behind) = some records
  size : lz.streamSize records = (body ++ index ++ footer).length

variable {lz : LzmaIndexing} (mPath : String)

def XzStream.bytes (x : XzStream lz) : Buffer := x.body ++ x.index ++ x.footer

/-- Streams, each with so many words of padding behind it. -/
def fileBytes (parts : List (XzStream lz × Nat)) : Buffer :=
  parts.flatMap fun p => p.1.bytes ++ zeros (4 * p.2)

/-- What the index of the file should say of them. -/
def entries (parts : List (XzStream lz × Nat)) : List (StreamEntry lz.Records lz.Flags) :=
  parts.map fun p => ⟨p.1.records, some p.1.flags, 4 * p.2⟩

theorem length_entries (parts : List (XzStream lz × Nat)) : (entries parts).length = parts.length :=
  List.length_map _

theorem fileBytes_append (front back : List (XzStream lz × Nat)) :
    fileBytes (front ++ back) = fileBytes front ++ fileBytes back := List.flatMap_append

theorem fileSize_entries (parts : List (XzStream lz × Nat)) :
    fileSize lz.streamSize (entries parts) = (fileBytes parts).length := by
  induction parts with
  | nil => rfl
  | cons p parts ih =>
      have hsize : lz.streamSize p.1.records = p.1.bytes.length := p.1.size
      show lz.streamSize p.1.records + 4 * p.2 + fileSize lz.streamSize (entries parts) =
        (p.1.bytes ++ zeros (4 * p.2) ++ fileBytes parts).length
      rw [ih, hsize, List.length_append, List.length_append, length_zeros]

namespace XzStream

variable (x : XzStream lz)

/-- The last word of a stream is not zero. -/
theorem last_word : ∃ front w, x.bytes = front ++ w ∧ w.length = 4 ∧ ofLE w ≠ 0 := by
  have hmagic := lz.footer_magic x.footer_decode
  have hlen := x.footer_length
  refine ⟨x.body ++ x.index ++ x.footer.take 8, x.footer.drop 8, ?_, ?_, ?_⟩
  · rw [List.append_assoc, List.take_append_drop]
    rfl
  · rw [List.length_drop, hlen]
  · have hsplit : x.footer.drop 8 = (x.footer.drop 8).take 2 ++ [0x59, 0x5a] := by
      conv_lhs => rw [← List.take_append_drop 2 (x.footer.drop 8), List.drop_drop]
      rw [hmagic]
    rw [hsplit, ofLE, List.reverse_append, ofBE_append]
    show (0x5a * 256 + 0x59) * 256 ^ _ + _ ≠ 0
    have hpos : 0 < 256 ^ ((x.footer.drop 8).take 2).reverse.length := Nat.pow_pos (by decide)
    omega

theorem length_bytes : x.bytes.length = x.body.length + x.index.length + 12 := by
  rw [bytes, List.length_append, List.length_append, x.footer_length]

theorem size_eq : lz.streamSize x.records = x.bytes.length := x.size

end XzStream

theorem length_le_fileBytes (parts : List (XzStream lz × Nat)) :
    parts.length ≤ (fileBytes parts).length := by
  induction parts with
  | nil => exact Nat.zero_le _
  | cons p parts ih =>
      have hbytes := p.1.length_bytes
      have hcons : fileBytes (p :: parts) = p.1.bytes ++ zeros (4 * p.2) ++ fileBytes parts := rfl
      rw [hcons, List.length_append, List.length_append, List.length_cons]
      omega

variable {fh : FileHandle} {x : XzStream lz} {front later : Buffer}

/-- The footer is read, and the position is in front of the index. -/
theorem run_readFooter (hdata : fh.data = front ++ x.bytes ++ later)
    (hpos : fh.pos = (front ++ x.bytes).length) (hlt : fh.data.length < 2 ^ 63) :
    (readFooter lz mPath).run fh =
      .ok ((x.flags, fh.pos), { fh with pos := (front ++ x.body).length }) := by
  have hbytes := x.length_bytes
  have hend : (front ++ x.bytes).length = (front ++ x.body ++ x.index).length + 12 := by
    simp only [List.length_append, hbytes]
    omega
  let m := { fh with pos := (front ++ x.body ++ x.index).length }
  have hseek : (seek (-(LZMA_STREAM_HEADER_SIZE : Nat)) .cur).run fh =
      .ok ((front ++ x.body ++ x.index).length, m) := by
    refine (run_seek_iff rfl).mpr ⟨?_, rfl⟩
    show (fh.pos : Int) + -((12 : Nat) : Int) = _
    omega
  have hrest : m.rest = x.footer ++ later := by
    have hm : m.data = (front ++ x.body ++ x.index) ++ (x.footer ++ later) := by
      show fh.data = _
      rw [hdata, XzStream.bytes]
      simp only [List.append_assoc]
    exact rest_of_append hm rfl
  have hread : (read LZMA_STREAM_HEADER_SIZE).run m = .ok (x.footer, fh) := by
    have hne : x.footer ≠ [] := by
      apply List.ne_nil_of_length_pos
      rw [x.footer_length]
      decide
    have hok := read_ok hne hrest
    have hback : m.skip 12 = fh := by
      show { fh with pos := (front ++ x.body ++ x.index).length + 12 } = fh
      rw [← hend, ← hpos]
    rw [x.footer_length, hback] at hok
    exact hok
  have hindex : (seek (toOff (-12 - lz.backward_size x.flags)) .cur).run fh =
      .ok ((front ++ x.body).length, { fh with pos := (front ++ x.body).length }) := by
    have hle : 12 + x.index.length ≤ 2 ^ 63 := by
      have hlen := congrArg List.length hdata
      simp only [List.length_append, hbytes] at hlen
      omega
    have hneg : -12 - lz.backward_size x.flags =
        -UInt64.ofNat (12 + x.index.length) := by
      rw [← x.backward_size, UInt64.ofNat_add, UInt64.ofNat_toNat]
      show -12 - lz.backward_size x.flags = -(12 + lz.backward_size x.flags)
      grind
    refine (run_seek_iff rfl).mpr ⟨?_, rfl⟩
    rw [hneg, toOff_neg hle]
    show (fh.pos : Int) + _ = _
    simp only [List.length_append] at hpos hbytes ⊢
    omega
  rw [readFooter, FileM.run_bind_ok hseek, FileM.run_bind_ok hread, x.footer_decode]
  show ((tell >>= fun npos => seek _ .cur >>= fun _ => pure (x.flags, npos)) :
    FileM (lz.Flags × Nat)).run fh = _
  rw [FileM.run_bind_ok run_tell, FileM.run_bind_ok hindex]
  rfl

/-- The index is decoded. -/
theorem decodeIndex_ok {fuel : Nat} {start : lz.decoder.State}
    (hstart : lz.index_decoder = some start)
    (hdata : fh.data = front ++ (x.index ++ later)) (hpos : fh.pos = front.length)
    (hfuel : fh.data.length < fuel) :
    ∃ nidx, decodeIndex lz mPath fuel fh = .ok nidx ∧ lz.streams nidx = [⟨x.records, none, 0⟩] := by
  have hrest : fh.restAt (fh.pos : Int) = x.index ++ later := by
    rw [restAt, if_neg (by omega), Int.toNat_natCast, hdata, hpos, List.drop_left]
  let f : Feed lz.decoder (fh.source ChunkSize chunkSize_pos) := ⟨start, [], (fh.pos : Int), 0, []⟩
  have hleft : f.left = x.index ++ later := hrest
  have hat : Pump.At (· = .ok) start (x.index ++ later) 0 [] f := ⟨.start, hleft, rfl⟩
  have hshort : f.left.length < fuel := by
    have hlen := congrArg List.length hdata
    rw [List.length_append] at hlen
    rw [hleft]
    omega
  obtain ⟨g, hrun, hvalue⟩ := hat.iterate_parses (p := codeIndex lz mPath fh) (lz.decodes hstart)
    (fun _ => rfl) rfl rfl (lz.decodes hstart).parse_nil
    (congrArg (Option.map _) (x.index_parse later)) hshort
  refine ⟨lz.decoded g.state, ?_, hvalue⟩
  simp only [decodeIndex, hstart]
  rw [hrun]

/-- What the loop holds: the index of the streams behind the position, if there are any. -/
def Holds (lz : LzmaIndexing) (es : List (StreamEntry lz.Records lz.Flags)) :
    Option lz.Index → Prop
  | none => es = []
  | some idx => es ≠ [] ∧ lz.streams idx = es

/-- The streams of a file combine to an index: liblzma does not find it too big when any
streams are put in front of those behind them. -/
def Combine (lz : LzmaIndexing) (es : List (StreamEntry lz.Records lz.Flags)) : Prop :=
  ∀ front back, es = front ++ back → 2 ≤ back.length → lz.Fits back

namespace Combine

variable {p : XzStream lz × Nat} {back : List (XzStream lz × Nat)}

theorem tail (h : Combine lz (entries (p :: back))) : Combine lz (entries back) := by
  intro front suffix hsplit hlen
  refine h (⟨p.1.records, some p.1.flags, 4 * p.2⟩ :: front) suffix ?_ hlen
  show _ :: entries back = _
  rw [hsplit]
  rfl

theorem fits (h : Combine lz (entries (p :: back))) (hback : back ≠ []) :
    lz.Fits (entries (p :: back)) := by
  have hpos := List.length_pos_iff.mpr hback
  have hlen : 2 ≤ (entries (p :: back)).length := by
    rw [length_entries, List.length_cons]
    omega
  exact h [] _ rfl hlen

theorem cons (h : Combine lz (entries back)) (hfits : back ≠ [] → lz.Fits (entries (p :: back))) :
    Combine lz (entries (p :: back)) := by
  intro front suffix hsplit hlen
  cases front with
  | nil =>
      have hall : suffix = entries (p :: back) := hsplit.symm
      rw [hall] at hlen ⊢
      apply hfits
      rintro rfl
      exact absurd hlen (Nat.not_succ_le_self 1)
  | cons e front => exact h front suffix (List.cons.inj hsplit).2 hlen

end Combine

section Combine

variable {es back : List (StreamEntry lz.Records lz.Flags)} {idx : Option lz.Index}
  {nidx : lz.Index}
  {pad : Nat}

/-- The index of a stream gets the flags and the padding, and the later streams behind it. -/
theorem combine_cases (hidx : Holds lz back idx) (hnidx : lz.streams nidx = [⟨x.records, none, 0⟩])
    (hpad : pad % 4 = 0) (hsize : x.bytes.length + pad < 2 ^ 63) :
    (∃ idx', combine lz mPath idx nidx x.flags pad = .ok idx' ∧
      lz.streams idx' = ⟨x.records, some x.flags, pad⟩ :: back ∧
        (back ≠ [] → lz.Fits (⟨x.records, some x.flags, pad⟩ :: back))) ∨
      (combine lz mPath idx nidx x.flags pad = .error (.format mPath "error combining indices") ∧
        back ≠ [] ∧ ¬ lz.Fits (⟨x.records, some x.flags, pad⟩ :: back)) := by
  have hnat : (UInt64.ofNat pad).toNat = pad := by
    rw [UInt64.toNat_ofNat', Nat.mod_eq_of_lt (by omega)]
  have hlast : lz.streams nidx = [] ++ [⟨x.records, none, 0⟩] := hnidx
  obtain ⟨idx₁, hflags, hstreams₁⟩ := lz.stream_flags hlast x.footer_decode
  have hfour : (UInt64.ofNat pad).toNat % 4 = 0 := by rw [hnat]; exact hpad
  obtain ⟨idx₂, hpadding, hstreams₂⟩ := lz.stream_padding hstreams₁ hfour (by
    rw [hnat]
    show lz.streamSize x.records + pad + 0 < 2 ^ 63
    rw [x.size_eq]
    exact hsize)
  rw [hnat] at hstreams₂
  have hstreams : lz.streams idx₂ = [⟨x.records, some x.flags, pad⟩] := hstreams₂
  rw [combine, hflags]
  dsimp only
  rw [hpadding]
  cases idx with
  | none =>
      have hnil : back = [] := hidx
      rw [hnil]
      exact .inl ⟨idx₂, rfl, hstreams, fun h => absurd rfl h⟩
  | some idx =>
      obtain ⟨hne, hback⟩ := hidx
      have hall : lz.streams idx₂ ++ lz.streams idx = ⟨x.records, some x.flags, pad⟩ :: back := by
        rw [hstreams, hback]
        rfl
      by_cases hfits : lz.Fits (⟨x.records, some x.flags, pad⟩ :: back)
      · rw [← hall] at hfits
        obtain ⟨idx₃, hcat, hstreams₃⟩ := lz.cat_ok hfits
        rw [hall] at hfits
        refine .inl ⟨idx₃, ?_, hstreams₃.trans hall, fun _ => hfits⟩
        dsimp only
        rw [hcat]
      · rw [← hall] at hfits
        obtain ⟨ret, hcat⟩ := lz.cat_error hfits
        rw [hall] at hfits
        refine .inr ⟨?_, hne, hfits⟩
        dsimp only
        rw [hcat]

end Combine

/-- Where a stream starts. -/
theorem npos_eq {a b : Nat} {size : UInt64} (hsize : size.toNat = b) (hlt : a + b < 2 ^ 63) :
    toOff (ofOff ((a + b : Nat) : Int) - size) = a := by
  have hnat : (ofOff ((a + b : Nat) : Int)).toNat = a + b := toNat_ofOff (by omega)
  have hsub : (ofOff ((a + b : Nat) : Int) - size).toNat = a := by
    rw [UInt64.toNat_sub_of_le _ _ (by rw [UInt64.le_iff_toNat_le, hnat, hsize]; omega), hnat,
      hsize]
    omega
  rw [toOff_of_lt (by omega), hsub]

section Run

variable {pad fuel : Nat} {idx : Option lz.Index} {start : lz.decoder.State}
  {frontParts back : List (XzStream lz × Nat)} {k : Nat}

/-- A pass in which only the last step can fail. -/
theorem readStream_eq {g g' : FileHandle} {flags : lz.Flags} {nidx : lz.Index} {npos n : Nat}
    (hskip : (skipPadding mPath).run (0, fh) = .ok (pad, g))
    (hfooter : (readFooter lz mPath).run g = .ok ((flags, npos), g'))
    (hdecode : decodeIndex lz mPath fuel g' = .ok nidx)
    (hnpos : toOff (ofOff npos - lz.index_file_size nidx) = n) :
    readStream lz mPath fuel (idx, fh) =
      (throws (combine lz mPath idx nidx flags pad)).bind fun idx' =>
        .ok (if n = 0 then .done idx' else .again (some idx', { g' with pos := n })) := by
  simp only [readStream, throws, hskip, hfooter, hdecode, Except.mapError, bind, Except.bind, hnpos]
  cases combine lz mPath idx nidx flags pad with
  | error e => rfl
  | ok idx' =>
      dsimp only
      by_cases hn : n = 0
      · rw [if_pos hn, if_pos (Int.ofNat_eq_zero.mpr hn)]
        rfl
      · rw [if_neg hn, if_neg (fun h => hn (Int.ofNat_eq_zero.mp h)), run_seek_set]
        rfl

/-- A pass visits the last stream in front of the position. -/
theorem readStream_cases (hstart : lz.index_decoder = some start)
    (hdata : fh.data = front ++ (x.bytes ++ zeros (4 * k)) ++ later)
    (hpos : fh.pos = (front ++ (x.bytes ++ zeros (4 * k))).length)
    (hlt : fh.data.length < 2 ^ 63) (hfuel : fh.data.length < fuel)
    (hidx : Holds lz (entries back) idx) :
    (∃ idx', lz.streams idx' = entries ((x, k) :: back) ∧
        (back ≠ [] → lz.Fits (entries ((x, k) :: back))) ∧
        readStream lz mPath fuel (idx, fh) = .ok (if front = [] then .done idx'
          else .again (some idx', { fh with pos := front.length }))) ∨
      readStream lz mPath fuel (idx, fh) =
          .error (some (.format mPath "error combining indices")) ∧
        back ≠ [] ∧ ¬ lz.Fits (entries ((x, k) :: back)) := by
  obtain ⟨frontx, w, hbytes, hw, hne⟩ := x.last_word
  have hlen := congrArg List.length hdata
  have hsize := x.length_bytes
  simp only [List.length_append, length_zeros] at hlen hpos
  have hfront : front ++ frontx ++ w = front ++ x.bytes := by rw [List.append_assoc, hbytes]
  have hwords : fh.data = (front ++ frontx) ++ w ++ zeros (4 * k) ++ later := by
    rw [hfront, hdata]
    simp only [List.append_assoc]
  have hlenw : (front ++ x.bytes).length = front.length + x.bytes.length := List.length_append
  have hskip :=
    run_skipPadding mPath 0 hwords (by rw [hfront]; omega) (by rw [hfront]; omega) hw hne
  rw [hfront, Nat.zero_add] at hskip
  have hdata₁ : fh.data = front ++ x.bytes ++ (zeros (4 * k) ++ later) := by
    rw [hdata]
    simp only [List.append_assoc]
  let g : FileHandle := { fh with pos := (front ++ x.bytes).length }
  have hfooter := @run_readFooter lz mPath g x front _ hdata₁ rfl hlt
  have hdata₂ : fh.data =
      (front ++ x.body) ++ (x.index ++ (x.footer ++ (zeros (4 * k) ++ later))) := by
    rw [hdata, XzStream.bytes]
    simp only [List.append_assoc]
  let g' : FileHandle := { fh with pos := (front ++ x.body).length }
  obtain ⟨nidx, hdecode, hnidx⟩ :=
    @decodeIndex_ok lz mPath g' x (front ++ x.body) _ fuel start hstart hdata₂ rfl hfuel
  have hfile : (lz.index_file_size nidx).toNat = x.bytes.length := by
    have hone : fileSize lz.streamSize (lz.streams nidx) = x.bytes.length := by
      rw [hnidx]
      exact x.size_eq
    rw [lz.file_size nidx (by omega), hone]
  have hnpos := npos_eq (a := front.length) hfile (by omega)
  rw [← List.length_append] at hnpos
  rw [readStream_eq mPath hskip hfooter hdecode hnpos]
  rcases combine_cases mPath hidx hnidx (Nat.mul_mod_right 4 k) (by omega) with
    ⟨idx', hcombine, hstreams, hfits⟩ | ⟨hcombine, hne, hfits⟩
  · refine .inl ⟨idx', hstreams, ?_, ?_⟩
    · intro hback
      apply hfits
      intro hnil
      exact hback (List.map_eq_nil_iff.mp hnil)
    · rw [hcombine]
      show Except.ok _ = _
      by_cases hfront : front = []
      · rw [if_pos hfront, if_pos (by rw [hfront]; rfl)]
      · rw [if_neg hfront, if_neg (fun h => hfront (List.length_eq_zero_iff.mp h))]
  · refine .inr ⟨?_, ?_, hfits⟩
    · rw [hcombine]
      rfl
    · intro hback
      exact hne (List.map_eq_nil_iff.mpr hback)

section Parts

variable {n : Nat} {parts : List (XzStream lz × Nat)}
  (hstart : lz.index_decoder = some start) (hdata : fh.data = zeros (4 * n) ++ fileBytes parts)
  (hlt : fh.data.length < 2 ^ 63) (hfuel : fh.data.length < fuel)
include hstart hdata hlt hfuel

/-- The pass that visits a stream between others. -/
theorem readStream_part (hparts : parts = frontParts ++ (x, k) :: back)
    (hidx : Holds lz (entries back) idx) :
    (∃ idx', Holds lz (entries ((x, k) :: back)) (some idx') ∧
        (back ≠ [] → lz.Fits (entries ((x, k) :: back))) ∧
        readStream lz mPath fuel
            (idx, { fh with pos := (zeros (4 * n) ++ fileBytes (frontParts ++ [(x, k)])).length }) =
          .ok (if zeros (4 * n) ++ fileBytes frontParts = [] then .done idx'
            else .again (some idx',
              { fh with pos := (zeros (4 * n) ++ fileBytes frontParts).length }))) ∨
      readStream lz mPath fuel
            (idx, { fh with pos := (zeros (4 * n) ++ fileBytes (frontParts ++ [(x, k)])).length }) =
          .error (some (.format mPath "error combining indices")) ∧
        back ≠ [] ∧ ¬ lz.Fits (entries ((x, k) :: back)) := by
  have hone : fileBytes [(x, k)] = x.bytes ++ zeros (4 * k) := List.append_nil _
  have hcons : fileBytes ((x, k) :: back) = x.bytes ++ zeros (4 * k) ++ fileBytes back := rfl
  let g : FileHandle :=
    { fh with pos := (zeros (4 * n) ++ fileBytes (frontParts ++ [(x, k)])).length }
  have hg : g.data = (zeros (4 * n) ++ fileBytes frontParts) ++ (x.bytes ++ zeros (4 * k)) ++
      fileBytes back := by
    show fh.data = _
    rw [hdata, hparts, fileBytes_append, hcons]
    simp only [List.append_assoc]
  have hpos : g.pos = ((zeros (4 * n) ++ fileBytes frontParts) ++
      (x.bytes ++ zeros (4 * k))).length := by
    show (zeros (4 * n) ++ fileBytes (frontParts ++ [(x, k)])).length = _
    rw [fileBytes_append, hone, List.append_assoc]
  rcases readStream_cases mPath hstart hg hpos hlt hfuel hidx with
    ⟨idx', hstreams, hfits, hpass⟩ | hfail
  · refine .inl ⟨idx', ⟨?_, hstreams⟩, hfits, hpass⟩
    exact List.cons_ne_nil _ _
  · exact .inr hfail

/-- After so many passes the loop holds the index of so many streams at the end, and is in
front of them. -/
theorem after_readStream (hparts : parts = frontParts ++ back) (hfront : frontParts ≠ [])
    (hcombine : Combine lz (entries back)) :
    ∃ idx, after (readStream lz mPath fuel) back.length (none, { fh with pos := fh.data.length }) =
        some (idx, { fh with pos := (zeros (4 * n) ++ fileBytes frontParts).length }) ∧
      Holds lz (entries back) idx := by
  induction back generalizing frontParts with
  | nil =>
      refine ⟨none, ?_, rfl⟩
      rw [hdata, hparts, List.append_nil]
      rfl
  | cons p back ih =>
      obtain ⟨x, k⟩ := p
      have hparts' : parts = (frontParts ++ [(x, k)]) ++ back := by
        rw [hparts, List.append_assoc]
        rfl
      obtain ⟨idx, hafter, hidx⟩ := ih hparts' (by simp) hcombine.tail
      have hne : zeros (4 * n) ++ fileBytes frontParts ≠ [] := by
        have hle := length_le_fileBytes frontParts
        have hpos := List.length_pos_iff.mpr hfront
        apply List.ne_nil_of_length_pos
        rw [List.length_append]
        omega
      rcases readStream_part mPath hstart hdata hlt hfuel hparts hidx with
        ⟨idx', hholds, -, hpass⟩ | ⟨-, hback, hfits⟩
      · rw [if_neg hne] at hpass
        exact ⟨some idx', after_next hafter hpass, hholds⟩
      · exact absurd (hcombine.fits hback) hfits

/-- The last pass: what it does with the first stream. -/
theorem readStream_first {p : XzStream lz × Nat} (hparts : parts = p :: back)
    (hidx : Holds lz (entries back) idx) :
    (∃ idx', Holds lz (entries parts) (some idx') ∧ (back ≠ [] → lz.Fits (entries parts)) ∧
        readStream lz mPath fuel
            (idx, { fh with pos := (zeros (4 * n) ++ fileBytes [p]).length }) =
          .ok (if n = 0 then .done idx' else .again (some idx', { fh with pos := 4 * n }))) ∨
      readStream lz mPath fuel
            (idx, { fh with pos := (zeros (4 * n) ++ fileBytes [p]).length }) =
          .error (some (.format mPath "error combining indices")) ∧
        back ≠ [] ∧ ¬ lz.Fits (entries parts) := by
  obtain ⟨x, k⟩ := p
  have hparts' : parts = [] ++ (x, k) :: back := hparts
  have hpass := readStream_part mPath hstart hdata hlt hfuel hparts' hidx
  have hfront : zeros (4 * n) ++ fileBytes ([] : List (XzStream lz × Nat)) = zeros (4 * n) :=
    List.append_nil _
  have hiff : zeros (4 * n) = [] ↔ n = 0 := by
    rw [← List.length_eq_zero_iff, length_zeros]
    omega
  simp only [hfront, hiff, length_zeros] at hpass
  rw [hparts]
  exact hpass

/-- Either streams at the end combine, or the loop has failed to combine them. -/
theorem combine_or_error {m : Nat} (hparts : parts = frontParts ++ back) (hm : back.length ≤ m) :
    Combine lz (entries back) ∨
      iterate (readStream lz mPath fuel) m (none, { fh with pos := fh.data.length }) =
        some (.error (some (.format mPath "error combining indices"))) := by
  induction back generalizing frontParts with
  | nil =>
      refine .inl fun front back hsplit hlen => ?_
      obtain ⟨-, rfl⟩ := List.append_eq_nil_iff.mp hsplit.symm
      exact absurd hlen (Nat.not_succ_le_zero 1)
  | cons p back ih =>
      obtain ⟨x, k⟩ := p
      rw [List.length_cons] at hm
      have hparts' : parts = (frontParts ++ [(x, k)]) ++ back := by
        rw [hparts, List.append_assoc]
        rfl
      obtain hlater | herror := ih hparts' (by omega)
      · obtain ⟨idx, hafter, hidx⟩ := after_readStream mPath hstart hdata hlt hfuel
          hparts' (by simp) hlater
        rcases readStream_part mPath hstart hdata hlt hfuel hparts hidx with
          ⟨-, -, hfits, -⟩ | ⟨hpass, -, -⟩
        · exact .inl (hlater.cons hfits)
        · obtain ⟨d, rfl⟩ := Nat.exists_eq_add_of_le hm
          refine .inr ?_
          rw [Nat.add_assoc, iterate_after hafter, Nat.add_comm 1 d, iterate, hpass]
      · exact .inr herror

end Parts

/-- In front of the first stream there may be no padding. -/
theorem readStream_padding {n : Nat} (hdata : fh.data = zeros (4 * n) ++ later) :
    readStream lz mPath fuel (idx, { fh with pos := 4 * n }) =
      .error (some (.format mPath "padding not allowed at start")) := by
  have hskip : (skipPadding mPath).run (0, { fh with pos := 4 * n }) = _ :=
    run_skipPadding_start mPath 0 hdata (Nat.le_refl _)
  rw [readStream, hskip]
  rfl

theorem readIndex_eq (lz : LzmaIndexing) (mPath : String) (fuel : Nat) (fh : FileHandle) :
    readIndex lz mPath fuel fh =
      match iterate (readStream lz mPath fuel) fuel (none, { fh with pos := fh.data.length }) with
      | none => none
      | some (.ok idx) => some (.ok idx)
      | some (.error none) => none
      | some (.error (some e)) => some (.error e) := by
  have hseek : (seek 0 .end).run fh = .ok (fh.data.length, { fh with pos := fh.data.length }) :=
    (run_seek_iff rfl).mpr ⟨Int.add_zero _, rfl⟩
  rw [readIndex, hseek]

/-- What the pass that visits the first stream does, and where it starts from. -/
theorem last_pass {p : XzStream lz × Nat} {back : List (XzStream lz × Nat)} {n fuel : Nat}
    {start : lz.decoder.State} (hstart : lz.index_decoder = some start)
    (hdata : fh.data = zeros (4 * n) ++ fileBytes (p :: back)) (hlt : fh.data.length < 2 ^ 63)
    (hfuel : fh.data.length < fuel) (hcombine : Combine lz (entries (p :: back))) : ∃ s idx,
      after (readStream lz mPath fuel) back.length (none, { fh with pos := fh.data.length }) =
        some s ∧
        lz.streams idx = entries (p :: back) ∧
          readStream lz mPath fuel s =
            .ok (if n = 0 then .done idx else .again (some idx, { fh with pos := 4 * n })) := by
  have hparts : p :: back = [p] ++ back := rfl
  obtain ⟨idx, hafter, hidx⟩ := after_readStream mPath hstart hdata hlt hfuel hparts
    (List.cons_ne_nil _ _) hcombine.tail
  rcases readStream_first mPath hstart hdata hlt hfuel rfl hidx with
    ⟨idx', hholds, -, hpass⟩ | ⟨-, hback, hfits⟩
  · exact ⟨_, idx', hafter, hholds.2, hpass⟩
  · exact absurd (hcombine.fits hback) hfits

/-- The index of a file of streams is read. -/
theorem readIndex_ok {parts : List (XzStream lz × Nat)} {fuel : Nat} {start : lz.decoder.State}
    (hstart : lz.index_decoder = some start) (hne : parts ≠ []) (hdata : fh.data = fileBytes parts)
    (hlt : fh.data.length < 2 ^ 63) (hfuel : fh.data.length < fuel)
    (hcombine : Combine lz (entries parts)) :
    ∃ idx, readIndex lz mPath fuel fh = some (.ok idx) ∧ lz.streams idx = entries parts := by
  obtain ⟨p, back, rfl⟩ := List.exists_cons_of_ne_nil hne
  have hle := length_le_fileBytes (p :: back)
  rw [← hdata, List.length_cons] at hle
  have hdata' : fh.data = zeros (4 * 0) ++ fileBytes (p :: back) := hdata
  obtain ⟨s, idx, hafter, hstreams, hpass⟩ :=
    last_pass mPath hstart hdata' hlt hfuel hcombine
  obtain ⟨d, hd⟩ : ∃ d, fuel = back.length + (d + 1) := ⟨fuel - (back.length + 1), by omega⟩
  refine ⟨idx, ?_, hstreams⟩
  have hrun := iterate_after (m := d + 1) hafter
  rw [← hd, iterate, hpass] at hrun
  rw [readIndex_eq, hrun]
  rfl

end Run

/-- The loop visits the streams of a file from the last one to the first, one in each pass,
and ends with the index of all of them, in the order of the file and with the padding that
follows each. Padding in front of the first stream is an error. -/
theorem readIndex_streams (lz : LzmaIndexing) (mPath : String) (fh : FileHandle) (n fuel : Nat)
    (parts : List (XzStream lz × Nat)) (start : lz.decoder.State)
    (hstart : lz.index_decoder = some start) (hne : parts ≠ [])
    (hdata : fh.data = zeros (4 * n) ++ fileBytes parts) (hlt : fh.data.length < 2 ^ 63)
    (hfuel : fh.data.length < fuel) :
    (∀ front back, parts = front ++ back → front ≠ [] → Combine lz (entries back) →
      ∃ idx,
        after (readStream lz mPath fuel) back.length (none, { fh with pos := fh.data.length }) =
          some (idx, { fh with pos := (zeros (4 * n) ++ fileBytes front).length }) ∧
        Holds lz (entries back) idx) ∧
    (n = 0 → Combine lz (entries parts) →
      after (readStream lz mPath fuel) parts.length (none, { fh with pos := fh.data.length }) =
        none ∧
        ∃ idx, readIndex lz mPath fuel fh = some (.ok idx) ∧ lz.streams idx = entries parts) ∧
    (0 < n → Combine lz (entries parts) → readIndex lz mPath fuel fh =
      some (.error (.format mPath "padding not allowed at start"))) ∧
    (¬ Combine lz (entries parts) → readIndex lz mPath fuel fh =
      some (.error (.format mPath "error combining indices"))) := by
  have hle := length_le_fileBytes parts
  have hlen := congrArg List.length hdata
  rw [List.length_append, length_zeros] at hlen
  obtain ⟨p, back, rfl⟩ := List.exists_cons_of_ne_nil hne
  have hvisit := fun front back' h₁ h₂ h₃ =>
    @after_readStream lz mPath fh fuel start front back' n
      (p :: back) hstart hdata hlt hfuel h₁ h₂ h₃
  have hlast := last_pass mPath hstart hdata hlt hfuel
  obtain ⟨d, hd⟩ : ∃ d, fuel = back.length + (d + 1 + 1) := by
    rw [List.length_cons] at hle
    exact ⟨fuel - (back.length + 2), by omega⟩
  refine ⟨hvisit, ?_, ?_, ?_⟩
  · intro hn hcombine
    obtain ⟨s, idx, hafter, hstreams, hpass⟩ := hlast hcombine
    rw [if_pos hn] at hpass
    refine ⟨after_stop hafter ?_, idx, ?_, hstreams⟩
    · intro t ht
      rw [hpass] at ht
      cases ht
    · have hrun := iterate_after (m := d + 1 + 1) hafter
      rw [← hd, iterate, hpass] at hrun
      rw [readIndex_eq, hrun]
  · intro hn hcombine
    obtain ⟨s, idx, hafter, -, hpass⟩ := hlast hcombine
    rw [if_neg (Nat.ne_of_gt hn)] at hpass
    have hrun := iterate_after (m := d + 1 + 1) hafter
    rw [← hd, iterate, hpass] at hrun
    dsimp only at hrun
    rw [iterate, readStream_padding mPath hdata] at hrun
    rw [readIndex_eq, hrun]
  · intro hnot
    rw [readIndex_eq]
    have hall : p :: back = [] ++ p :: back := rfl
    have hm : (p :: back).length ≤ fuel := by omega
    obtain hcombine | herror := combine_or_error mPath hstart hdata hlt hfuel hall hm
    · exact absurd hcombine hnot
    · rw [herror]

/-- A decoder that knows one index field. -/
def fieldDecoder (field : Buffer) : Decoder UInt8 UInt8 LzmaRet where
  State := Buffer
  call s input _ :=
    { state := s ++ input.take (field.length - s.length)
      consumed := min (field.length - s.length) input.length
      out := []
      ret := if s ++ input.take (field.length - s.length) = field then .streamEnd
        else if s ++ input.take (field.length - s.length) <+: field then .ok else .dataError
      consumed_le := Nat.min_le_right _ _
      out_le := Nat.zero_le _ }

section FieldDecoder

variable {field : Buffer}

theorem fieldDecoder_fed {given out : Buffer} {s : (fieldDecoder field).State} (hne : field ≠ [])
    (h : (fieldDecoder field).Fed (· = .ok) [] given out s) :
    @Eq Buffer given s ∧ given <+: field ∧ given.length < field.length := by
  induction h with
  | start => exact ⟨rfl, List.nil_prefix, List.length_pos_iff.mpr hne⟩
  | @call given made out s input availOut _ hret hmade ih =>
      obtain ⟨rfl, -⟩ := ih
      have hmade' : made = given ++ input.take (field.length - given.length) := by
        rw [hmade]
        show given ++ input.take (min (field.length - given.length) input.length) = _
        rw [← List.take_take, List.take_length]
      change (if given ++ input.take (field.length - given.length) = field then LzmaRet.streamEnd
        else if given ++ input.take (field.length - given.length) <+: field then .ok
        else .dataError) = .ok at hret
      rw [← hmade'] at hret
      split at hret
      · cases hret
      · split at hret
        · rename_i hneq hprefix
          refine ⟨hmade', hprefix, Nat.lt_of_not_le fun hle => hneq ?_⟩
          exact hprefix.eq_of_length_le hle
        · cases hret

theorem fieldDecoder_parses {γ : Type} (hne : field ≠ []) (v : γ) :
    (fieldDecoder field).Parses .ok .streamEnd [] (fun _ => v)
      fun buf => if field <+: buf then some v else none where
  parse_nil := if_neg fun h => hne (List.prefix_nil.mp h)
  inside given out s input availOut behind v' hfed hinput hparse := by
    obtain ⟨rfl, hprefix, hlt⟩ := fieldDecoder_fed hne hfed
    have hwhole : field <+: given ++ (input ++ behind) := by
      by_contra hnot
      rw [if_neg hnot] at hparse
      cases hparse
    rw [if_pos hwhole] at hparse
    have hsmall : given ++ input.take (field.length - given.length) <+: field := by
      have hgiven : given ++ input.take (field.length - given.length) <+:
          given ++ (input ++ behind) :=
        (List.prefix_append_right_inj given).mpr
          ((List.take_prefix _ _).trans (List.prefix_append _ _))
      refine List.prefix_of_prefix_length_le hgiven hwhole ?_
      · rw [List.length_append, List.length_take]
        omega
    have hret : ((fieldDecoder field).call given input availOut).ret =
        if given ++ input.take (field.length - given.length) = field then .streamEnd
        else if given ++ input.take (field.length - given.length) <+:
          field then .ok else .dataError := rfl
    by_cases hfield : given ++ input.take (field.length - given.length) = field
    · rw [if_pos hfield] at hret
      exact .inl ⟨hret, Option.some.inj hparse⟩
    · rw [if_neg hfield, if_pos hsmall] at hret
      refine .inr ⟨hret, ?_, if_neg fun hback => hfield ?_⟩
      · show 0 < min (field.length - given.length) input.length
        have hpos := List.length_pos_iff.mpr hinput
        omega
      · change field <+:
          given ++ input.take (min (field.length - given.length) input.length) at hback
        rw [← List.take_take, List.take_length] at hback
        exact hsmall.eq_of_length_le hback.length_le

end FieldDecoder

/-- The index of a stream without blocks, and the footer behind it. -/
def emptyIndex : Buffer := [0x00, 0x00, 0x00, 0x00, 0x1c, 0xdf, 0x44, 0x21]

def emptyFooter : Buffer :=
  [0x1f, 0xb6, 0xf3, 0x7d, 0x01, 0x00, 0x00, 0x00, 0x00, 0x04, 0x59, 0x5a]

/-- Change the last stream of an index. -/
def updateLast {α : Type} (f : α → α) (es : List α) : List α :=
  es.dropLast ++ (es.getLast?.map f).toList

theorem updateLast_concat {α : Type} (f : α → α) (es : List α) (e : α) :
    updateLast f (es ++ [e]) = es ++ [f e] := by
  rw [updateLast, List.dropLast_concat, List.getLast?_concat]
  rfl

/-- liblzma on files of empty streams. The flags are the type of the check. -/
def emptyStreams : LzmaIndexing where
  Flags := UInt8
  Index := List (StreamEntry Unit UInt8)
  decoder := fieldDecoder emptyIndex
  stream_footer_decode buf := if buf = emptyFooter then .ok 4 else .error .dataError
  backward_size _ := 8
  index_decoder := some []
  decoded _ := [⟨(), none, 0⟩]
  index_file_size idx := UInt64.ofNat (fileSize (fun _ => 32) idx)
  index_stream_flags idx flags := .ok (updateLast (fun e => { e with flags := some flags }) idx)
  index_stream_padding idx pad := .ok (updateLast (fun e => { e with padding := pad.toNat }) idx)
  index_cat dest src :=
    if fileSize (fun _ => 32) (dest ++ src) < 2 ^ 63 then .ok (dest ++ src) else .error .dataError
  Records := Unit
  streamSize _ := 32
  streams idx := idx
  parse buf := if emptyIndex <+: buf then some () else none
  Fits es := fileSize (fun _ => 32) es < 2 ^ 63
  footer_magic {buf flags} h := by
    split at h
    · rw [‹buf = emptyFooter›]
      rfl
    · cases h
  decodes {s} h := by
    cases h
    have hdoc := @fieldDecoder_parses emptyIndex _ (List.cons_ne_nil _ _)
      ([⟨(), none, 0⟩] : List (StreamEntry Unit UInt8))
    have hparse : (fun buf => (if emptyIndex <+: buf then some () else none).map fun r =>
        ([⟨r, none, 0⟩] : List (StreamEntry Unit UInt8))) =
        fun buf => if emptyIndex <+: buf then some [⟨(), none, 0⟩] else none := by
      funext buf
      split <;> rfl
    rw [hparse]
    exact hdoc
  file_size idx h := by
    rw [UInt64.toNat_ofNat', Nat.mod_eq_of_lt (by omega)]
  stream_flags {idx es e buf flags} h _ := ⟨_, rfl, by rw [h, updateLast_concat]⟩
  stream_padding {idx es e pad} h _ _ := ⟨_, rfl, by rw [h, updateLast_concat]⟩
  cat_ok h := ⟨_, if_pos h, rfl⟩
  cat_error h := ⟨_, if_neg h⟩

/-- The stream of an empty file. -/
def emptyStream : XzStream emptyStreams where
  body := [0xfd, 0x37, 0x7a, 0x58, 0x5a, 0x00, 0x00, 0x04, 0xe6, 0xd6, 0xb4, 0x46]
  index := emptyIndex
  footer := emptyFooter
  records := ()
  flags := (4 : UInt8)
  footer_length := rfl
  footer_decode := rfl
  backward_size := rfl
  index_parse behind :=
    show (if emptyIndex <+: emptyIndex ++ behind then some () else none) = some () from
      if_pos (List.prefix_append _ _)
  size := rfl

/-- Two streams, with a word of padding between them and two behind. -/
def twoEmptyStreams : List (XzStream emptyStreams × Nat) := [(emptyStream, 1), (emptyStream, 2)]

theorem readIndex_streams_two :
    ∃ idx, readIndex emptyStreams "a.xz" 100 ⟨"a.xz", fileBytes twoEmptyStreams, 0⟩ =
        some (.ok idx) ∧
      emptyStreams.streams idx = entries twoEmptyStreams := by
  have h := readIndex_streams emptyStreams "a.xz" ⟨"a.xz", fileBytes twoEmptyStreams, 0⟩ 0 100
    twoEmptyStreams [] rfl (List.cons_ne_nil _ _) rfl (by decide) (by decide)
  refine (h.2.1 rfl ?_).2
  rintro front back hsplit -
  have hsize := congrArg (fileSize emptyStreams.streamSize) hsplit
  have happ : fileSize emptyStreams.streamSize (front ++ back) =
      fileSize emptyStreams.streamSize front + fileSize emptyStreams.streamSize back := by
    rw [fileSize, List.map_append, List.sum_append]
    rfl
  rw [happ, fileSize_entries] at hsize
  have hlen : (fileBytes twoEmptyStreams).length = 76 := rfl
  show fileSize emptyStreams.streamSize back < 2 ^ 63
  omega

end PixzFile

end Lzopfs
