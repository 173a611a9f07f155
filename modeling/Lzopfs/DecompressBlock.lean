import Lzopfs.Bzip2Decompress
import Lzopfs.GzipBlockReader
import Lzopfs.PixzFile

/-!
# Decompressing a block

Every format decompresses a block into a buffer that has the size of the block's record. A
payload may decode to less than the record says. The readers of gzip and bzip2 notice; those
of lzop, zstd and xz return the buffer with zeros at its end.
-/

namespace Lzopfs

open Verify

/-- LZO. -/
structure LzoLib where
  /-- `lzo1x_decompress_safe`, with so much room: an error or what it has produced. -/
  decompress_safe : Buffer → Nat → Except Int Buffer
  length_le : ∀ {cbuf room out}, decompress_safe cbuf room = .ok out → out.length ≤ room

/-- Zstandard. A call returns a hint, or the name of an error. -/
structure Zstd where
  decoder : Decoder UInt8 UInt8 (Except String Nat)
  init : decoder.State
  /-- `ZSTD_DStreamInSize`. -/
  dStreamInSize : Nat
  dStreamInSize_pos : 0 < dStreamInSize
  /-- Is this the front of a sequence of frames, and what does it decode to? -/
  valid : Buffer → Prop
  contents : Buffer → Buffer
  documented : decoder.Streams (fun ret => ret.toBool = true) init valid contents

inductive LzmaRet where
  | ok
  | streamEnd
  | formatError
  | dataError
  | optionsError
  | other (code : Nat)
  deriving DecidableEq

/-- liblzma, as far as blocks are decoded with it. -/
structure Lzma where
  Filters : Type
  decoder : Decoder UInt8 UInt8 LzmaRet
  /-- `lzma_block_header_size_decode`: the size that the first byte of a header stands for. -/
  block_header_size_decode : UInt8 → Nat
  /-- `lzma_block_header_decode`, for a check. -/
  block_header_decode : UInt32 → Buffer → Except LzmaRet Filters
  /-- `lzma_block_decoder`. -/
  block_decoder : UInt32 → Filters → Option decoder.State
  /-- What a block decodes to that starts with these bytes. -/
  contents : UInt32 → Filters → Buffer → Option Buffer
  header_size : ∀ first, block_header_size_decode first = (first.toNat + 1) * 4
  documented : ∀ check filters start, block_decoder check filters = some start →
    decoder.Delimits .ok .streamEnd start (contents check filters)

def LzopFile.decompressBlock (lzo : LzoLib) (fh : FileHandle) (b : Block) (ubuf : Buffer) :
    Except Exn Decoded :=
  if b.csize = b.usize then do -- Uncompressed, just read it
    let ubuf ← fh.preadAt (toOff b.coff) b.usize.toNat
    return ⟨ubuf, ubuf⟩
  else do
    let cbuf ← fh.preadAt (toOff b.coff) b.csize.toNat
    match lzo.decompress_safe cbuf b.usize.toNat with
    | .error _ => throw (.runtime "decompression error")
    | .ok out => return .fill ubuf b.usize out

namespace ZstdFile

/-- How many bytes the payload has. -/
def payloadSize (b : Block) : Nat := (b.coff + b.csize.toUInt64).toNat - b.coff.toNat

/-- The loops of `decompressBlock`: calls as long as there is input, in hand or in front of
the end of the payload. -/
def decode (z : Zstd) (fh : FileHandle) :
    Pump z.decoder (fh.payload z.dStreamInSize z.dStreamInSize_pos) where
  enough f := f.hand.isEmpty && f.source.2 = 0
  judge
    | .ok _ => .ok false
    | .error name => .error (.runtime ("zstd error: " ++ name))

def decodeStart (z : Zstd) (fh : FileHandle) (b : Block) :
    Feed z.decoder (fh.payload z.dStreamInSize z.dStreamInSize_pos) :=
  ⟨z.init, [], (toOff b.coff, payloadSize b), b.usize.toNat, []⟩

def decompressBlock (z : Zstd) (fuel : Nat) (fh : FileHandle) (b : Block) (ubuf : Buffer) :
    Option (Except Exn Decoded) :=
  (iterate (decode z fh).body fuel (decodeStart z fh b)).map fun r =>
    r.map fun f => .fill ubuf b.usize f.out

end ZstdFile

namespace PixzFile

/-- Read the header of a block and set up a decoder: the filters and the decoder, and where
the data of the block is. -/
def blockHeader (lz : Lzma) (mPath : String) (fh : FileHandle) (b : PixzBlock) :
    Except Exn (lz.Filters × lz.decoder.State × Int) := do
  let first ← fh.preadAt (toOff b.block.coff) 1
  let header_size := lz.block_header_size_decode (first.headD 0)
  let rest ← fh.preadAt (toOff (b.block.coff + 1)) (header_size - 1)
  match lz.block_header_decode b.check (first ++ rest) with
  | .error .dataError => throw (.format mPath "corrupt block header")
  | .error .optionsError => throw (.format mPath "unsupported options in block header")
  | .error _ => throw (.runtime "unknown error in block header")
  | .ok filters =>
      match lz.block_decoder b.check filters with
      | none => throw (.runtime "error initializing block decoder")
      | some s => return (filters, s, toOff (b.block.coff + UInt64.ofNat header_size))

/-- `code`, with the exception for a return code other than `LZMA_OK`. -/
def code (lz : Lzma) (fh : FileHandle) : Pump lz.decoder (fh.source ChunkSize chunkSize_pos) where
  enough _ := false
  judge
    | .ok => .ok false
    | .streamEnd => .ok true
    | _ => .error (.runtime "error decoding block")

def decompressBlock (lz : Lzma) (mPath : String) (fuel : Nat) (fh : FileHandle) (b : PixzBlock)
    (ubuf : Buffer) : Option (Except Exn Decoded) :=
  match blockHeader lz mPath fh b with
  | .error e => some (.error e)
  | .ok (_, s, off) =>
      (iterate (code lz fh).body fuel ⟨s, [], off, b.block.usize.toNat, []⟩).map fun r =>
        r.map fun f => .fill ubuf b.block.usize f.out

end PixzFile

def Bzip2File.decompressBlock (bz : BzStream) (fuel : Nat) (fh : FileHandle) (b : Bzip2Block)
    (ubuf : Buffer) : Option (Except Exn Decoded) :=
  match createAlignedBlock fh [] b.level b.block.coff.toNat b.bits
    (b.block.coff.toNat + b.block.csize.toNat) b.endbits with
  | .error e => some (.error e)
  | .ok none => none
  | .ok (some input) => (decompress bz fuel input ubuf).map fun r => do
      let d ← r
      if d.ubuf.length ≠ b.block.usize.toNat then
        throw (.runtime "bzip2 block decompresses to wrong size")
      else return d

namespace ZstdFile

variable {z : Zstd} {fh : FileHandle} {b : Block} {ubuf : Buffer}
  {f g : Feed z.decoder (fh.payload z.dStreamInSize z.dStreamInSize_pos)}

/-- What the file has of the payload. -/
def payloadOf (fh : FileHandle) (b : Block) : Buffer :=
  (fh.restAt (toOff b.coff)).take (payloadSize b)

/-- How the loops stand: what was given to the decoder, and how much of the payload is
still to come. -/
structure Decoding (fh : FileHandle) (b : Block) (given : Buffer)
    (f : Feed z.decoder (fh.payload z.dStreamInSize z.dStreamInSize_pos)) : Prop where
  at' : Pump.At (fun ret => ret.toBool = true) z.init (payloadOf fh b) b.usize.toNat given f
  count : given.length + f.hand.length + f.source.2 = payloadSize b
  flushed : 0 < f.room → f.out = z.contents given

theorem decoding_start : Decoding fh b [] (decodeStart z fh b) where
  at' := ⟨.start, rfl, Nat.zero_add _⟩
  count := by
    show 0 + 0 + payloadSize b = payloadSize b
    omega
  flushed _ := z.documented.contents_nil.symm

theorem refill_count (h : f.refill = .ok g) :
    g.hand.length + g.source.2 = f.hand.length + f.source.2 := by
  rw [Feed.refill] at h
  cases hhand : f.hand with
  | nil =>
      rw [hhand] at h
      cases hmore : (fh.payload z.dStreamInSize z.dStreamInSize_pos).more f.source with
      | error e =>
          rw [hmore] at h
          cases h
      | ok p =>
          rw [hmore] at h
          cases h
          obtain ⟨buf, hread, hp⟩ := of_map_ok hmore
          cases hp
          obtain ⟨-, -, htake⟩ := FileHandle.tryPReadAt_ok hread
          have hlen : buf.length ≤ min f.source.2 z.dStreamInSize := by
            rw [htake]
            exact List.length_take_le _ _
          show buf.length + (f.source.2 - buf.length) = 0 + f.source.2
          omega
  | cons a as =>
      rw [hhand] at h
      cases h
      rw [hhand]

theorem judge_eq (fh : FileHandle) (ret : Except String Nat) :
    (decode z fh).judge ret = .ok false ∨ ∃ name, ret = .error name ∧
      (decode z fh).judge ret = .error (.runtime ("zstd error: " ++ name)) := by
  cases ret with
  | ok hint => exact .inl rfl
  | error name => exact .inr ⟨name, rfl, rfl⟩

theorem accepted_of_judge {ret : Except String Nat} {more : Bool}
    (h : (decode z fh).judge ret = .ok more) : ret.toBool = true := by
  cases ret with
  | ok hint => rfl
  | error name => cases h

/-- A call that is accepted keeps the count. -/
theorem Decoding.call {given : Buffer} (h : Decoding fh b given f)
    (hcalls : (decode z fh).Calls f g) (hret : g.answer.ret.toBool = true) :
    Decoding fh b (given ++ g.hand.take g.answer.consumed) g.call := by
  have hat := h.at'.refill hcalls.2
  have hcount := h.count
  have hrefill := refill_count hcalls.2
  refine ⟨hat.call hret, ?_, fun hroom => hat.call_flushed z.documented hret hroom⟩
  have hconsumed := g.answer.consumed_le
  show (given ++ g.hand.take g.answer.consumed).length + (g.hand.drop g.answer.consumed).length +
    g.source.2 = _
  rw [List.length_append, List.length_take, List.length_drop]
  omega

theorem decoding_reaches (h : Reaches (decode z fh).body (decodeStart z fh b) f) :
    ∃ given, Decoding fh b given f := by
  refine Reaches.invariant (P := fun f => ∃ given, Decoding fh b given f) h
    ⟨[], decoding_start⟩ ?_
  rintro t t' ⟨given, ht⟩ hb
  obtain ⟨g, hcalls, hret, rfl⟩ := Pump.of_body_again hb
  exact ⟨_, ht.call hcalls (accepted_of_judge hret)⟩

theorem enough_iff : (decode z fh).enough f = true ↔ f.hand = [] ∧ f.source.2 = 0 := by
  show (f.hand.isEmpty && decide (f.source.2 = 0)) = true ↔ _
  rw [Bool.and_eq_true, List.isEmpty_iff, decide_eq_true_eq]

/-- The payload is all there and valid, and decodes to less than the record says. -/
def DecodesShort (z : Zstd) (fh : FileHandle) (b : Block) : Prop :=
  (payloadOf fh b).length = payloadSize b ∧ z.valid (payloadOf fh b) ∧
    (z.contents (payloadOf fh b)).length < b.usize.toNat

/-- A short result comes from a payload that decodes to it. -/
theorem decodesShort_of_result (h : Reaches (decode z fh).body (decodeStart z fh b) f)
    (henough : (decode z fh).enough f = true) (hshort : f.out.length ≠ b.usize.toNat) :
    DecodesShort z fh b := by
  obtain ⟨given, hat, hcount, hflushed⟩ := decoding_reaches h
  obtain ⟨hhand, hsource⟩ := enough_iff.mp henough
  have hsize := hat.size
  have hout := hflushed (by omega)
  have hleft : f.left = [] := by
    rw [Feed.left, hhand]
    show (fh.restAt f.source.1).take f.source.2 = []
    rw [hsource, List.take_zero]
  have hgiven := hat.input_eq
  rw [hleft, List.append_nil] at hgiven
  rw [hhand, hsource] at hcount
  refine ⟨by rw [← hgiven]; simpa using hcount, ?_, ?_⟩
  · rw [← hgiven]
    exact z.documented.valid_fed hat.fed
  · rw [← hgiven, ← hout]
    omega

/-- The file has everything that is still to come of the payload. -/
def AllThere (f : Feed z.decoder (fh.payload z.dStreamInSize z.dStreamInSize_pos)) : Prop :=
  ((fh.payload z.dStreamInSize z.dStreamInSize_pos).rest f.source).length = f.source.2

theorem AllThere.call {f g : Feed z.decoder (fh.payload z.dStreamInSize z.dStreamInSize_pos)}
    (h : AllThere f) (hcalls : (decode z fh).Calls f g) : AllThere g.call := by
  have hcount := refill_count hcalls.2
  obtain ⟨-, hleft, -⟩ := Feed.refill_ok hcalls.2
  have hlen := congrArg List.length hleft
  rw [Feed.left, Feed.left, List.length_append, List.length_append] at hlen
  show ((fh.payload z.dStreamInSize z.dStreamInSize_pos).rest g.source).length = g.source.2
  rw [AllThere] at h
  omega

theorem AllThere.enough_iff {f : Feed z.decoder (fh.payload z.dStreamInSize z.dStreamInSize_pos)}
    (h : AllThere f) : (decode z fh).enough f = true ↔ f.left = [] := by
  rw [ZstdFile.enough_iff, Feed.left, List.append_eq_nil_iff, ← h, List.length_eq_zero_iff]

/-- Where every call makes progress, the decompression returns what the payload decodes to. -/
theorem decode_result (hall : (payloadOf fh b).length = payloadSize b)
    (hroom : (z.contents (payloadOf fh b)).length ≤ b.usize.toNat)
    (hprogress : ∀ given (g : Feed z.decoder (fh.payload z.dStreamInSize z.dStreamInSize_pos)),
      Pump.At (fun ret => ret.toBool = true) z.init (payloadOf fh b) b.usize.toNat given g →
        g.hand ≠ [] → g.answer.ret.toBool = true ∧
          (0 < g.answer.consumed ∨ g.answer.out ≠ [])) :
    ∃ fuel f, iterate (decode z fh).body fuel (decodeStart z fh b) = some (.ok f) ∧
      f.out = z.contents (payloadOf fh b) := by
  have hjudge : ∀ ret : Except String Nat, ret.toBool = true →
      (decode z fh).judge ret = .ok false := by
    intro ret hret
    cases ret with
    | ok hint => rfl
    | error name => cases hret
  have hstart : @Decoding z fh b [] (decodeStart z fh b) := decoding_start
  exact ⟨_, Pump.At.iterate_streams z.documented hprogress (fun _ _ => AllThere.call)
    (fun _ => AllThere.enough_iff) hall hjudge hroom hstart.at' hstart.flushed (Nat.lt_succ_self _)⟩

/-- The decompression of a payload that decodes to less returns, and its result is short. -/
theorem DecodesShort.result (hshort : DecodesShort z fh b) : ∃ fuel f,
    iterate (decode z fh).body fuel (decodeStart z fh b) = some (.ok f) ∧
      f.out.length ≠ b.usize.toNat := by
  obtain ⟨hall, hvalid, hless⟩ := hshort
  obtain ⟨fuel, f, hrun, hout⟩ := decode_result hall (Nat.le_of_lt hless) (by
    -- What is produced is less than the room, so that there is always some left.
    intro given g hg hne
    apply hg.progress_room z.documented hne hvalid
    have hle := (hg.produced z.documented).length_le
    have hsize := hg.size
    omega)
  refine ⟨fuel, f, hrun, ?_⟩
  rw [hout]
  exact Nat.ne_of_lt hless

theorem decompressBlock_full_iff :
    (∀ fuel d, decompressBlock z fuel fh b ubuf = some (.ok d) → d.Full b.usize) ↔
      ¬ DecodesShort z fh b := by
  constructor
  · intro hfull hshort
    obtain ⟨fuel, f, hrun, hne⟩ := hshort.result
    apply hne
    apply (Decoded.full_fill ubuf).mp
    apply hfull fuel
    rw [decompressBlock, hrun]
    rfl
  · intro hnot fuel d hd
    obtain ⟨r, hrun, hr⟩ := Option.map_eq_some_iff.mp hd
    obtain ⟨f, rfl, rfl⟩ := of_map_ok hr
    rw [Decoded.full_fill]
    by_contra hne
    obtain ⟨t, ht, hdone⟩ := iterate_ok hrun
    obtain ⟨henough, rfl⟩ | ⟨g, -, hret, -⟩ := Pump.of_body_done hdone
    · exact hnot (decodesShort_of_result ht henough hne)
    · rcases judge_eq fh g.answer.ret with h | ⟨name, -, h⟩ <;> rw [h] at hret <;> cases hret

end ZstdFile

namespace PixzFile

variable {lz : Lzma} {mPath : String} {fh : FileHandle} {b : PixzBlock} {ubuf : Buffer}
  {filters : lz.Filters} {start : lz.decoder.State} {off : Int}
  {f g : Feed lz.decoder (fh.source ChunkSize chunkSize_pos)}

def codeStart (fh : FileHandle) (b : PixzBlock) (start : lz.decoder.State) (off : Int) :
    Feed lz.decoder (fh.source ChunkSize chunkSize_pos) :=
  ⟨start, [], off, b.block.usize.toNat, []⟩

theorem judge_again {ret : LzmaRet} (h : (code lz fh).judge ret = .ok false) : ret = .ok := by
  cases ret <;> first | rfl | cases h

theorem judge_done {ret : LzmaRet} (h : (code lz fh).judge ret = .ok true) :
    ret = .streamEnd := by
  cases ret <;> first | rfl | cases h

/-- How the loop stands: what was given to the decoder and what it has made of it. -/
abbrev Coding (fh : FileHandle) (b : PixzBlock) (start : lz.decoder.State) (off : Int)
    (given : Buffer) (f : Feed lz.decoder (fh.source ChunkSize chunkSize_pos)) : Prop :=
  Pump.At (· = .ok) start (fh.restAt off) b.block.usize.toNat given f

theorem coding_start : Coding fh b start off [] (codeStart fh b start off) :=
  ⟨.start, rfl, Nat.zero_add _⟩

theorem coding_reaches (h : Reaches (code lz fh).body (codeStart fh b start off) f) :
    ∃ given, Coding fh b start off given f := by
  refine Reaches.invariant (P := fun f => ∃ given, Coding fh b start off given f) h
    ⟨[], coding_start⟩ ?_
  rintro t t' ⟨given, ht⟩ hb
  obtain ⟨g, hcalls, hret, rfl⟩ := Pump.of_body_again hb
  exact ⟨_, (ht.refill hcalls.2).call (judge_again hret)⟩

theorem block_decoder_of_header (h : blockHeader lz mPath fh b = .ok (filters, start, off)) :
    lz.block_decoder b.check filters = some start := by
  rw [blockHeader] at h
  cases hfirst : fh.preadAt (toOff b.block.coff) 1 with
  | error e =>
      rw [hfirst] at h
      cases h
  | ok first =>
      rw [hfirst] at h
      change (do
        let rest ← fh.preadAt (toOff (b.block.coff + 1))
          (lz.block_header_size_decode (first.headD 0) - 1)
        _) = _ at h
      cases hrest : fh.preadAt (toOff (b.block.coff + 1))
          (lz.block_header_size_decode (first.headD 0) - 1) with
      | error e =>
          rw [hrest] at h
          cases h
      | ok rest =>
          rw [hrest] at h
          dsimp only [bind, Except.bind] at h
          split at h
          · cases h
          · cases h
          · cases h
          · split at h
            · cases h
            · cases h
              assumption

/-- The header is accepted, and the block decodes to less than the record says. -/
def DecodesShort (lz : Lzma) (mPath : String) (fh : FileHandle) (b : PixzBlock) : Prop :=
  ∃ filters start off c, blockHeader lz mPath fh b = .ok (filters, start, off) ∧
    lz.contents b.check filters (fh.restAt off) = some c ∧ c.length < b.block.usize.toNat

section Contents

variable {contents : Buffer → Option Buffer} {given c : Buffer}
  (hdoc : lz.decoder.Delimits .ok .streamEnd start contents)
include hdoc

/-- When the decoder reports the end, its output is what the bytes at the offset decode to. -/
theorem contents_of_streamEnd (h : Coding fh b start off given g)
    (hret : g.answer.ret = .streamEnd) : contents (fh.restAt off) = some g.call.out := by
  have hended := hdoc.ended given g.out g.state g.hand g.room h.fed hret
  have hfront := hdoc.contents_front _ g.call.left _ hended
  have hleft := g.left_call
  have hinput := h.input_eq
  rw [hleft, ← List.append_assoc] at hinput
  rw [← hinput]
  exact hfront

/-- The decoding of a block that decodes to less than the room returns what it decodes to. -/
theorem code_result (hc : contents (fh.restAt off) = some c)
    (hshort : c.length < b.block.usize.toNat) :
    ∃ fuel f, iterate (code lz fh).body fuel (codeStart fh b start off) = some (.ok f) ∧
      f.out = c := by
  refine ⟨_, Pump.At.iterate_delimits hdoc ?_ (fun _ => rfl) rfl rfl hc coding_start
    hdoc.contents_nil (Nat.lt_succ_self _)⟩
  intro given out s input availOut behind hfed hne hwhole hsize
  apply hdoc.inside given out s input availOut behind c hfed hne hwhole
  omega

end Contents

theorem decompressBlock_full_iff :
    (∀ fuel d, decompressBlock lz mPath fuel fh b ubuf = some (.ok d) → d.Full b.block.usize) ↔
      ¬ DecodesShort lz mPath fh b := by
  constructor
  · rintro hfull ⟨filters, start, off, c, hheader, hc, hshort⟩
    have hdoc := lz.documented _ _ _ (block_decoder_of_header hheader)
    obtain ⟨fuel, f, hrun, rfl⟩ := code_result hdoc hc hshort
    have hresult : decompressBlock lz mPath fuel fh b ubuf =
        some (.ok (.fill ubuf b.block.usize f.out)) := by
      rw [decompressBlock, hheader]
      exact congrArg (Option.map _) hrun
    have hlen := (Decoded.full_fill ubuf).mp (hfull fuel _ hresult)
    omega
  · intro hnot fuel d hd
    rw [decompressBlock] at hd
    cases hheader : blockHeader lz mPath fh b with
    | error e =>
        rw [hheader] at hd
        cases hd
    | ok p =>
        obtain ⟨filters, start, off⟩ := p
        rw [hheader] at hd
        have hdoc := lz.documented _ _ _ (block_decoder_of_header hheader)
        obtain ⟨r, hrun, hr⟩ := Option.map_eq_some_iff.mp hd
        obtain ⟨f, rfl, rfl⟩ := of_map_ok hr
        rw [Decoded.full_fill]
        by_contra hne
        obtain ⟨t, ht, hdone⟩ := iterate_ok hrun
        obtain ⟨given, hcoding⟩ := coding_reaches ht
        obtain ⟨henough, -⟩ | ⟨g, hcalls, hret, rfl⟩ := Pump.of_body_done hdone
        · cases henough
        · have hat := hcoding.refill hcalls.2
          have hc := contents_of_streamEnd hdoc hat (judge_done hret)
          have hsize := g.size_call
          rw [hat.size] at hsize
          exact hnot ⟨filters, start, off, _, hheader, hc, by omega⟩

end PixzFile

namespace LzopFile

variable {lzo : LzoLib} {fh : FileHandle} {b : Block} {ubuf : Buffer}

/-- The payload is compressed and all there, and decodes to less than the record says. -/
def DecodesShort (lzo : LzoLib) (fh : FileHandle) (b : Block) : Prop :=
  b.csize ≠ b.usize ∧ ∃ cbuf out, fh.preadAt (toOff b.coff) b.csize.toNat = .ok cbuf ∧
    lzo.decompress_safe cbuf b.usize.toNat = .ok out ∧ out.length < b.usize.toNat

theorem length_preadAt {off : Int} {size : Nat} {bytes : Buffer}
    (h : fh.preadAt off size = .ok bytes) : bytes.length = size := by
  rw [FileHandle.preadAt] at h
  cases hread : fh.tryPReadAt off size with
  | error e =>
      rw [hread] at h
      cases h
  | ok buf =>
      rw [hread] at h
      dsimp only [bind, Except.bind] at h
      split at h
      · cases h
      · cases h
        obtain ⟨-, -, htake⟩ := FileHandle.tryPReadAt_ok hread
        have hle := congrArg List.length htake
        rw [List.length_take] at hle
        omega

theorem decompressBlock_full_iff :
    (∀ d, decompressBlock lzo fh b ubuf = .ok d → d.Full b.usize) ↔ ¬ DecodesShort lzo fh b := by
  rw [decompressBlock]
  by_cases hstored : b.csize = b.usize
  · rw [if_pos hstored]
    refine iff_of_true ?_ fun h => h.1 hstored
    intro d hd
    cases hread : fh.preadAt (toOff b.coff) b.usize.toNat with
    | error e =>
        rw [hread] at hd
        cases hd
    | ok bytes =>
        rw [hread] at hd
        cases hd
        exact ⟨length_preadAt hread, rfl⟩
  · rw [if_neg hstored]
    cases hread : fh.preadAt (toOff b.coff) b.csize.toNat with
    | error e =>
        refine iff_of_true (fun d hd => by cases hd) ?_
        rintro ⟨-, cbuf, out, hcbuf, -⟩
        rw [hread] at hcbuf
        cases hcbuf
    | ok cbuf =>
        cases hdec : lzo.decompress_safe cbuf b.usize.toNat with
        | error code =>
            refine iff_of_true (fun d hd => ?_) ?_
            · dsimp only [bind, Except.bind] at hd
              rw [hdec] at hd
              cases hd
            · rintro ⟨-, cbuf', out, hcbuf, hout, -⟩
              rw [hread] at hcbuf
              cases hcbuf
              rw [hdec] at hout
              cases hout
        | ok out =>
            have hle := lzo.length_le hdec
            constructor
            · rintro hfull ⟨-, cbuf', out', hcbuf, hout, hshort⟩
              rw [hread] at hcbuf
              cases hcbuf
              rw [hdec] at hout
              cases hout
              have hlen := (Decoded.full_fill ubuf).mp (hfull (.fill ubuf b.usize out) (by
                dsimp only [bind, Except.bind]
                rw [hdec]
                rfl))
              omega
            · intro hnot d hd
              dsimp only [bind, Except.bind] at hd
              rw [hdec] at hd
              cases hd
              rw [Decoded.full_fill]
              by_contra hne
              exact hnot ⟨hstored, cbuf, out, hread, hdec, by omega⟩

end LzopFile

/-- The check of the size catches every short result, also with a buffer of 4 GiB. -/
theorem Bzip2File.decompressBlock_full {bz : BzStream} {fuel : Nat} {fh : FileHandle}
    {b : Bzip2Block} {ubuf : Buffer} {d : Decoded}
    (h : decompressBlock bz fuel fh b ubuf = some (.ok d)) : d.Full b.block.usize := by
  rw [decompressBlock] at h
  split at h
  · cases h
  · cases h
  · rename_i input hcreate
    obtain ⟨r, hrun, hr⟩ := Option.map_eq_some_iff.mp h
    cases r with
    | error e => cases hr
    | ok d' =>
        dsimp only [bind, Except.bind] at hr
        split at hr
        · cases hr
        · rename_i hsize
          cases hr
          rw [not_not] at hsize
          cases hinit : bz.init with
          | none =>
              rw [decompress, hinit] at hrun
              cases hrun
          | some start =>
              rw [decompress, hinit] at hrun
              obtain ⟨t, hreach, hdone⟩ := iterate_ok hrun
              obtain ⟨-, -, rfl⟩ := pass_done_iff.mp hdone
              have hstanding := (running_reaches hreach).1.grow.call
              have hlen := hstanding.length_eq
              have hlt := b.block.usize.toNat_lt
              have hresult : t.grow.call.result.ubuf.length =
                  t.grow.call.out.length - t.grow.call.availOut := Buffer.length_resize _ _
              have hzero : lost ubuf = 0 := by
                rw [lost] at hlen ⊢
                omega
              have hsame := hstanding.result_iff.mpr hzero
              exact ⟨by rw [← hsame]; exact hsize, hsame⟩

/-- A record of a block, with the libraries its format decompresses it with. -/
inductive BlockJob where
  | lzop (lzo : LzoLib) (b : Block)
  | gzip (z : BlockZlib) (b : GzipBlock)
  | bzip2 (bz : BzStream) (b : Bzip2Block)
  | pixz (lz : Lzma) (mPath : String) (b : PixzBlock)
  | zstd (z : Zstd) (b : Block)

namespace BlockJob

def usize : BlockJob → UInt32
  | lzop _ b => b.usize
  | gzip _ b => b.block.usize
  | bzip2 _ b => b.block.usize
  | pixz _ _ b => b.block.usize
  | zstd _ b => b.usize

/-- `CompressedFile::decompressBlock`, within so many passes of its loop. -/
def decompressBlock (fuel : Nat) (fh : FileHandle) (ubuf : Buffer) :
    BlockJob → Option (Except Exn Decoded)
  | lzop lzo b => some (LzopFile.decompressBlock lzo fh b ubuf)
  | gzip z b => GzipFile.decompressBlock z fuel fh b ubuf
  | bzip2 bz b => Bzip2File.decompressBlock bz fuel fh b ubuf
  | pixz lz mPath b => PixzFile.decompressBlock lz mPath fuel fh b ubuf
  | zstd z b => ZstdFile.decompressBlock z fuel fh b ubuf

/-- The payload decodes, without an error, to fewer bytes than the record says, and the
format does not check it. -/
def DecodesShort (fh : FileHandle) : BlockJob → Prop
  | lzop lzo b => LzopFile.DecodesShort lzo fh b
  | gzip _ _ => False
  | bzip2 _ _ => False
  | pixz lz mPath b => PixzFile.DecodesShort lz mPath fh b
  | zstd z b => ZstdFile.DecodesShort z fh b

variable {fh : FileHandle} {ubuf : Buffer}

/-- A decompression that returns has filled the buffer with what the codec produced, exactly
if the payload does not decode to less. -/
theorem fills_iff_not_short (job : BlockJob) :
    (∀ fuel d, job.decompressBlock fuel fh ubuf = some (.ok d) → d.Full job.usize) ↔
      ¬ job.DecodesShort fh := by
  cases job with
  | lzop lzo b =>
      refine Iff.trans ?_ (@LzopFile.decompressBlock_full_iff lzo fh b ubuf)
      constructor
      · intro h d hd
        exact h 0 d (congrArg some hd)
      · intro h fuel d hd
        exact h d (Option.some.inj hd)
  | gzip z b =>
      refine iff_of_true ?_ not_false
      intro fuel d hd
      exact GzipBlockReader.full_of_decompressBlock hd
  | bzip2 bz b =>
      refine iff_of_true ?_ not_false
      intro fuel d hd
      exact Bzip2File.decompressBlock_full hd
  | pixz lz mPath b => exact PixzFile.decompressBlock_full_iff
  | zstd z b => exact ZstdFile.decompressBlock_full_iff

/-- An LZO that knows the stream of no bytes, `11 00 00`. -/
def emptyLzo : LzoLib where
  decompress_safe cbuf _ := if cbuf = [0x11, 0, 0] then .ok [] else .error (-6)
  length_le h := by
    split at h
    · cases h
      exact Nat.zero_le _
    · cases h

/-- A block of five bytes whose payload decodes to none is five zeros. -/
theorem zeros_served :
    (lzop emptyLzo ⟨5, 3, 0, 0⟩).decompressBlock 0 ⟨"f.lzo", [0x11, 0, 0], 0⟩ [] =
        some (.ok ⟨[0, 0, 0, 0, 0], []⟩) ∧
      ¬ Decoded.Full ⟨[0, 0, 0, 0, 0], []⟩ (lzop emptyLzo ⟨5, 3, 0, 0⟩).usize := by
  refine ⟨rfl, ?_⟩
  rintro ⟨hlen, -⟩
  cases hlen

/-- A decoder of frames that are stored as they are. -/
def storedDecoder : Decoder UInt8 UInt8 (Except String Nat) where
  State := Unit
  call _ input availOut :=
    { state := (), consumed := min availOut input.length, out := input.take availOut,
      ret := .ok 0, consumed_le := Nat.min_le_right _ _, out_le := List.length_take_le _ _ }

theorem storedDecoder_fed {given out : Buffer} {start s : storedDecoder.State}
    (h : storedDecoder.Fed (fun ret => ret.toBool = true) start given out s) : out = given := by
  induction h with
  | start => rfl
  | call h hret hmade ih =>
      rw [hmade, ih]
      exact congrArg _ List.take_eq_take_min

theorem storedDecoder_streams :
    storedDecoder.Streams (fun ret => ret.toBool = true) () (fun _ => True) id where
  valid_nil := trivial
  valid_front _ _ _ := trivial
  contents_nil := rfl
  contents_front a b := List.prefix_append a b
  accepted _ _ _ _ _ _ _ := trivial
  rejected _ _ _ _ _ _ _ _ hnot := absurd rfl hnot
  produced given out s h := by
    rw [storedDecoder_fed h]
    exact List.prefix_refl _
  flushed given out s input availOut h _ _ := by
    rw [storedDecoder_fed h]
    exact congrArg _ List.take_eq_take_min
  progress given out s input availOut _ hne hpos _ :=
    .inl (lt_min hpos (List.length_pos_iff.mpr hne))

def storedZstd : Zstd where
  decoder := storedDecoder
  init := ()
  dStreamInSize := 131075
  dStreamInSize_pos := by decide
  valid _ := True
  contents := id
  documented := storedDecoder_streams

example : (zstd storedZstd ⟨5, 3, 0, 0⟩).decompressBlock 2 ⟨"f.zst", [1, 2, 3], 0⟩ [] =
    some (.ok ⟨[1, 2, 3, 0, 0], [1, 2, 3]⟩) := rfl

/-- A decoder of blocks of one byte, which decode to nothing. -/
def emptyDecoder : Decoder UInt8 UInt8 LzmaRet where
  State := Unit
  call _ input _ :=
    { state := (), consumed := min 1 input.length, out := [],
      ret := if input = [] then .ok else .streamEnd
      consumed_le := Nat.min_le_right _ _, out_le := Nat.zero_le _ }

theorem emptyDecoder_fed {given out : Buffer} {start s : emptyDecoder.State}
    (h : emptyDecoder.Fed (· = .ok) start given out s) : given = [] ∧ out = [] := by
  induction h with
  | start => exact ⟨rfl, rfl⟩
  | @call given made out s input availOut h hret hmade ih =>
      have hnil : input = [] := by
        by_contra hne
        cases (if_neg hne).symm.trans hret
      rw [hmade, ih.1, ih.2, hnil]
      exact ⟨rfl, rfl⟩

theorem emptyDecoder_delimits : emptyDecoder.Delimits .ok .streamEnd ()
    fun input => input.head?.map fun _ => [] where
  contents_nil := rfl
  contents_front a b c h := by
    cases a with
    | nil => cases h
    | cons x a => exact h
  ended given out s input availOut h hret := by
    obtain ⟨rfl, rfl⟩ := emptyDecoder_fed h
    cases input with
    | nil => cases hret
    | cons x input => rfl
  inside given out s input availOut behind c h hne hwhole hless := .inl (if_neg hne)

def emptyLzma : Lzma where
  Filters := Unit
  decoder := emptyDecoder
  block_header_size_decode first := (first.toNat + 1) * 4
  block_header_decode _ _ := .ok ()
  block_decoder _ _ := some ()
  contents _ _ input := input.head?.map fun _ => []
  header_size _ := rfl
  documented _ _ _ _ := emptyDecoder_delimits

example : (pixz emptyLzma "f.xz" ⟨⟨2, 5, 0, 0⟩, 4⟩).decompressBlock 1
    ⟨"f.xz", [0, 0, 0, 0, 9], 0⟩ [] = some (.ok ⟨[0, 0], []⟩) := rfl

end BlockJob

end Lzopfs
