import Lzopfs.LzopContents
import Lzopfs.ZstdFile

/-!
# What a zstd file is served as

The frames of a seekable zstd file stand one after the other from its start on, and the seek
table tells their sizes. A frame is decompressed into a buffer that is no larger than what
it decodes to, so the decoder has to come to the end of the frame without room.
-/

namespace Lzopfs

open Verify FileHandle BlockListCompFile

namespace ZstdFile

variable {z : Zstd} {params : OpenParams} {path : Str} {fs : FileSystem} {fh : FileHandle}
  {b : Block} {flags : UInt8}

/-- The constructor. There is no index but the seek table. -/
def new (params : OpenParams) (path : Str) (fs : FileSystem) :
    Option (Except Exn (Opened Block) × FileSystem) :=
  initializeFile (checkFileType (String.ofList path))
    (fun _ fs fh => some (((buildIndex []).run fh).map fun r => (r.1, fs)))
    id params.maxBlock (String.ofList path) fs

/-- The decoder needs no room to come to the end of a frame. -/
def TakesRest (z : Zstd) : Prop :=
  z.decoder.TakesRest (fun ret => ret.toBool = true) z.init z.valid z.contents

/-- What reading a block of a file gives. -/
def Gives (z : Zstd) (fh : FileHandle) (b : Block) (plain : Buffer) : Prop :=
  ∀ ubuf, ∃ fuel d, decompressBlock z fuel fh b ubuf = some (.ok d) ∧ d.ubuf = plain ∧
    plain.length = b.usize.toNat

/-- A valid payload that is all there is decompressed to what it decodes to. -/
theorem gives_of_valid (hrest : TakesRest z)
    (hall : (payloadOf fh b).length = payloadSize b) (hvalid : z.valid (payloadOf fh b))
    (hsize : (z.contents (payloadOf fh b)).length = b.usize.toNat) :
    Gives z fh b (z.contents (payloadOf fh b)) := by
  have hroom := Nat.le_of_eq hsize
  obtain ⟨fuel, f, hrun, hout⟩ := decode_result hall hroom fun given g hg hne =>
    hg.progress z.documented hrest hne hvalid hroom
  intro ubuf
  refine ⟨fuel, .fill ubuf b.usize f.out, by rw [decompressBlock, hrun]; rfl, ?_, hsize⟩
  rw [← hout] at hsize ⊢
  exact ((Decoded.full_fill ubuf).mpr hsize).2

/-- A frame, and what its entry in the seek table says besides its size. -/
structure Frame where
  bytes : Buffer
  usize : UInt32
  checksum : UInt32
  bytes_ne_nil : bytes ≠ []
  length_lt : bytes.length < 2 ^ 32

namespace Frame

def entry (f : Frame) : Entry := ⟨UInt32.ofNat f.bytes.length, f.usize, f.checksum⟩

/-- What a frame was made of. -/
def Packs (z : Zstd) (f : Frame) (plain : Buffer) : Prop :=
  z.valid f.bytes ∧ z.contents f.bytes = plain ∧ plain.length = f.usize.toNat

theorem csize_entry (f : Frame) : f.entry.csize.toNat = f.bytes.length := by
  rw [entry, UInt32.toNat_ofNat', Nat.mod_eq_of_lt f.length_lt]

end Frame

/-- Frames from the start of the file on, and a seek table behind them. -/
def serialise (flags : UInt8) (frames : List Frame) : Buffer :=
  frames.flatMap Frame.bytes ++ frame flags (frames.map Frame.entry)

theorem payloadOf_slice {front bytes back : Buffer} (hdata : fh.data = front ++ (bytes ++ back))
    (hcoff : b.coff = UInt64.ofNat front.length) (hcsize : b.csize.toNat = bytes.length)
    (hlt : fh.data.length < 2 ^ 63) : payloadOf fh b = bytes ∧ payloadSize b = bytes.length := by
  have hlen := congrArg List.length hdata
  rw [List.length_append, List.length_append] at hlen
  have hnat : b.coff.toNat = front.length := by
    rw [hcoff, UInt64.toNat_ofNat']
    omega
  have hsize : payloadSize b = bytes.length := by
    rw [payloadSize, UInt64.toNat_add, UInt32.toNat_toUInt64, hnat]
    omega
  refine ⟨?_, hsize⟩
  rw [payloadOf, hsize, toOff_of_lt (by omega), hnat, restAt, if_neg (by omega), Int.toNat_natCast,
    hdata, List.drop_left, List.take_left]

/-- The blocks of the frames give what these were made of. -/
theorem blocksFrom_gives {front back : Buffer} {frames : List Frame} {plains : List Buffer}
    (hrest : TakesRest z) (hpacks : List.Forall₂ (Frame.Packs z) frames plains) (uoff : Nat)
    (hdata : fh.data = front ++ (frames.flatMap Frame.bytes ++ back))
    (hlt : fh.data.length < 2 ^ 63) : List.Forall₂ (Gives z fh)
      (blocksFrom uoff front.length (frames.map Frame.entry)) plains := by
  induction hpacks generalizing front uoff with
  | nil => exact .nil
  | @cons f plain frames plains hf hpacks ih =>
      rw [List.flatMap_cons, List.append_assoc] at hdata
      obtain ⟨hvalid, hcontents, hsize⟩ := hf
      obtain ⟨hpayload, hpayloadSize⟩ := @payloadOf_slice fh
        ⟨f.entry.usize, f.entry.csize, UInt64.ofNat uoff, UInt64.ofNat front.length⟩ _ _ _ hdata rfl
        f.csize_entry hlt
      refine .cons ?_ ?_
      · rw [← hcontents, ← hpayload]
        apply gives_of_valid hrest
        · rw [hpayload, hpayloadSize]
        · rw [hpayload]
          exact hvalid
        · rw [hpayload, hcontents]
          exact hsize
      · have hnext : front.length + f.entry.csize.toNat = (front ++ f.bytes).length := by
          rw [f.csize_entry, List.length_append]
        rw [hnext]
        exact ih _ (by rw [hdata, List.append_assoc])

theorem blocksFrom_contiguous (uoff coff : Nat) (entries : List Entry) :
    Contiguous (UInt64.ofNat uoff) (blocksFrom uoff coff entries) := by
  induction entries generalizing uoff coff with
  | nil => trivial
  | cons e entries ih =>
      refine ⟨rfl, ?_⟩
      rw [ofNat_add_toUInt64]
      exact ih _ _

theorem blocksFrom_ascending (uoff coff : Nat) (frames : List Frame)
    (hlt : coff + (frames.flatMap Frame.bytes).length < 2 ^ 63) :
    Ascending coff (coff + (frames.flatMap Frame.bytes).length)
      (blocksFrom uoff coff (frames.map Frame.entry)) := by
  induction frames generalizing uoff coff with
  | nil => exact ⟨Nat.le_refl _, .nil, fun b hb => (by cases hb)⟩
  | cons f frames ih =>
      rw [List.flatMap_cons, List.length_append, ← Nat.add_assoc] at hlt ⊢
      have hpos := List.length_pos_iff.mpr f.bytes_ne_nil
      have hcoff : (UInt64.ofNat coff).toNat = coff := by
        rw [UInt64.toNat_ofNat']
        omega
      have hfirst : Ascending coff (coff + f.bytes.length)
          [⟨f.usize, f.entry.csize, UInt64.ofNat uoff, UInt64.ofNat coff⟩] := by
        apply Ascending.singleton
        · rw [hcoff]
        · rw [hcoff]
          omega
      have hrest := ih (uoff + f.usize.toNat) _ hlt
      rw [← f.csize_entry] at hfirst hrest ⊢
      exact hfirst.append hrest

/-- The blocks of the entries of a seek table are found. -/
theorem run_buildIndex {front : Buffer} {entries : List Entry} (hlt : fh.data.length < 2 ^ 63)
    (hfit : (table flags entries).length + FooterSize < 2 ^ 32)
    (hdata : fh.data = front ++ frame flags entries) :
    ∃ g, (buildIndex []).run fh = .ok (blocksFrom 0 0 entries, g) := by
  have hcount : (UInt32.ofNat entries.length).toNat = entries.length := by
    rw [UInt32.toNat_ofNat', Nat.mod_eq_of_lt (entries_lt hfit)]
  have hlength := length_frame hdata
  have hnat : (UInt64.ofNat (front.length + 8)).toNat = front.length + 8 := by
    rw [UInt64.toNat_ofNat']
    omega
  have hrest : (FileHandle.mk fh.path fh.data (front.length + 8)).rest =
      entries.flatMap (Entry.serialise (checksums flags)) ++ footer flags entries.length := by
    have hfront : fh.data.drop front.length = frame flags entries := by
      rw [hdata, List.drop_left]
    have height : (leBytes 4 MagicSkippable.toNat ++
        leBytes 4 ((table flags entries).length + FooterSize)).length = 8 := by
      rw [List.length_append, length_leBytes, length_leBytes]
    rw [rest, ← List.drop_drop, hfront, frame, ← List.append_assoc, ← height, List.drop_left]
    rfl
  obtain ⟨g, hblocks⟩ := @run_addBlocks _ _ _ (checksums flags) 0 0 [] hrest
  refine ⟨g, ?_⟩
  have hoff : toOff (UInt64.ofNat (front.length + 8)) = (front.length + 8 : Nat) := by
    rw [toOff_of_lt (by omega), hnat]
  rw [buildIndex, FileM.run_bind_ok (findSeekTable_complete hlt hfit hdata)]
  dsimp only
  rw [hoff, FileM.run_bind_ok (run_seek_set (front.length + 8)), hcount]
  exact hblocks

/-- The type of the file is accepted. -/
theorem run_checkFileType {mPath : String} {front tl : Buffer} {entries : List Entry}
    (hlt : fh.data.length < 2 ^ 63) (hfit : (table flags entries).length + FooterSize < 2 ^ 32)
    (hdata : fh.data = front ++ frame flags entries)
    (hmagic : fh.rest = leBytes 4 ZSTD_MAGICNUMBER.toNat ++ tl) :
    ∃ g, (checkFileType mPath).run fh = .ok ((), g) ∧ g.data = fh.data := by
  have hfind := @findSeekTable_complete (fh.skip 4) _ _ _ hlt hfit hdata
  refine ⟨{ fh.skip 4 with pos := front.length + 8 }, ?_, rfl⟩
  rw [checkFileType, FileM.run_bind_ok (run_readLE32 hmagic).1,
    FileM.run_bind_ok (run_throwIf (not_not.mpr rfl)), FileM.run_bind_ok hfind]
  rfl

theorem usize_blocksFrom (uoff coff : Nat) (frames : List Frame) :
    (blocksFrom uoff coff (frames.map Frame.entry)).map Block.usize = frames.map Frame.usize := by
  induction frames generalizing uoff coff with
  | nil => rfl
  | cons f frames ih => exact congrArg (f.usize :: ·) (ih _ _)

/-- The blocks of the frames of a file serve what these were made of. The lookup would miss
the first frame if there were nothing in it. -/
theorem serves_blocksFrom {f : Frame} {frames : List Frame} {plains : List Buffer} {back : Buffer}
    (hrest : TakesRest z) (hdata : fh.data = (f :: frames).flatMap Frame.bytes ++ back)
    (hfirst : f.usize ≠ 0) (hpacks : List.Forall₂ (Frame.Packs z) (f :: frames) plains)
    (hlt : fh.data.length < 2 ^ 63) (hsize : plains.flatten.length < 2 ^ 63) :
    (CompFile.blockList (blocksFrom 0 0 ((f :: frames).map Frame.entry))).Serves (Gives z fh)
      plains.flatten := by
  have hgives : List.Forall₂ (Gives z fh) (blocksFrom 0 0 ((f :: frames).map Frame.entry)) plains :=
    @blocksFrom_gives _ _ [] _ _ _ hrest hpacks 0 hdata hlt
  have hascending := blocksFrom_ascending 0 0 (f :: frames) (by
    rw [hdata, List.length_append] at hlt
    omega)
  apply CompFile.serves_of_forall₂ (blocksFrom_contiguous 0 0 _) hgives _ hsize _ hascending.nodup
  · intro b plain hb
    obtain ⟨fuel, d, -, -, hlen⟩ := hb []
    exact hlen
  · have hne : f.entry.usize ≠ 0 := hfirst
    rw [List.map_cons, blocksFrom, leadingEmpty, List.takeWhile_cons_of_neg (by simpa using hne)]
    rfl

/-- Opening a seekable file finds its frames and looks at their sizes. Nothing is written. -/
theorem new_serialise {f : Frame} {frames : List Frame} {plains : List Buffer} (hrest : TakesRest z)
    (hfile : fs.contents (String.ofList path) = some (serialise flags (f :: frames)))
    (hmagic : leBytes 4 ZSTD_MAGICNUMBER.toNat <+: f.bytes) (hfirst : f.usize ≠ 0)
    (hpacks : List.Forall₂ (Frame.Packs z) (f :: frames) plains)
    (hfit : (table flags ((f :: frames).map Frame.entry)).length + FooterSize < 2 ^ 32)
    (hlt : (serialise flags (f :: frames)).length < 2 ^ 63)
    (hsize : plains.flatten.length < 2 ^ 63) :
    new params path fs = some (.ok ⟨blocksFrom 0 0 ((f :: frames).map Frame.entry),
      (f :: frames).any fun f => f.usize.toUInt64 > params.maxBlock⟩, fs) := by
  let fh : FileHandle := ⟨String.ofList path, serialise flags (f :: frames), 0⟩
  let blocks := blocksFrom 0 0 ((f :: frames).map Frame.entry)
  obtain ⟨tl, htl⟩ := hmagic
  have hstart : fh.rest = leBytes 4 ZSTD_MAGICNUMBER.toNat ++ (tl ++ (frames.flatMap Frame.bytes ++
      frame flags ((f :: frames).map Frame.entry))) := by
    show serialise flags (f :: frames) = _
    rw [serialise, List.flatMap_cons, ← htl]
    simp only [List.append_assoc]
  obtain ⟨g, hcheck, hg⟩ :=
    @run_checkFileType fh flags (String.ofList path) _ _ _ hlt hfit rfl hstart
  obtain ⟨g', hbuild⟩ := @run_buildIndex g flags _ _ (by rw [hg]; exact hlt) hfit hg
  have hopen : fs.openRead (String.ofList path) = .ok fh := by
    rw [FileSystem.openRead, hfile]
  have hload : (some (((buildIndex []).run g).map fun r => (r.1, fs)) :
      Option (Except Exn (List Block × FileSystem))) = some (.ok (blocks, fs)) := by
    rw [hbuild]
    rfl
  have hnew : new params path fs = _ := initializeFile_eq hopen hcheck hload
  have hwarned : (blocks.map Block.usize).any (fun usize => usize.toUInt64 > params.maxBlock) =
      ((f :: frames).map Frame.usize).any fun usize => usize.toUInt64 > params.maxBlock := by
    rw [usize_blocksFrom]
  rw [List.any_map, List.any_map] at hwarned
  have htotal : 0 < total blocks := by
    have hpos := Nat.pos_of_ne_zero fun hzero => hfirst (UInt32.toNat_inj.mp hzero)
    show 0 < total (blocksFrom 0 0 (f.entry :: frames.map Frame.entry))
    rw [blocksFrom, total_cons]
    exact Nat.add_pos_left hpos _
  have hsizes : (CompFile.blockList (blocks.map id)).checkSizes params.maxBlock =
      .ok ((f :: frames).any fun f => f.usize.toUInt64 > params.maxBlock) := by
    obtain ⟨decompress, -, hholds⟩ :=
      @serves_blocksFrom z fh _ _ _ _ hrest rfl hfirst hpacks hlt hsize
    rw [List.map_id, hholds.regular.checkSizes]
    exact (if_pos htotal).trans (congrArg _ hwarned)
  rw [hsizes] at hnew
  exact hnew

/-- Opening a seekable file finds its frames, and the file is served as what these were made
of. Nothing is written. -/
theorem serves_frames {f : Frame} {frames : List Frame} {plains : List Buffer}
    (hrest : TakesRest z)
    (hfile : fs.contents (String.ofList path) = some (serialise flags (f :: frames)))
    (hmagic : leBytes 4 ZSTD_MAGICNUMBER.toNat <+: f.bytes) (hfirst : f.usize ≠ 0)
    (hpacks : List.Forall₂ (Frame.Packs z) (f :: frames) plains)
    (hfit : (table flags ((f :: frames).map Frame.entry)).length + FooterSize < 2 ^ 32)
    (hlt : (serialise flags (f :: frames)).length < 2 ^ 63)
    (hsize : plains.flatten.length < 2 ^ 63) :
    ∃ o, new params path fs = some (.ok o, fs) ∧
      (CompFile.blockList o.mBlocks).Serves
        (Gives z ⟨String.ofList path, serialise flags (f :: frames), 0⟩) plains.flatten ∧
      o.warned = (f :: frames).any fun f => f.usize.toUInt64 > params.maxBlock :=
  ⟨_, new_serialise hrest hfile hmagic hfirst hpacks hfit hlt hsize,
    serves_blocksFrom hrest rfl hfirst hpacks hlt hsize, rfl⟩

/-- The magic number, the header of a frame of three bytes and that of its only block, which
holds them as they are. -/
def rawFrame : Buffer :=
  [0x28, 0xb5, 0x2f, 0xfd, 0x20, 0x03, 0x19, 0x00, 0x00, 0x61, 0x62, 0x63]

/-- A decoder of this frame. It takes the headers at once, and copies what comes behind them
as far as there is room. -/
def rawDecoder : Decoder UInt8 UInt8 (Except String Nat) where
  State := Buffer
  call given input availOut :=
    let consumed := min input.length (9 - given.length + availOut)
    { state := given ++ input.take consumed
      consumed
      out := (input.drop (9 - given.length)).take availOut
      ret := if given ++ input.take consumed <+: rawFrame then .ok 0 else .error "corrupted"
      consumed_le := Nat.min_le_left _ _
      out_le := List.length_take_le _ _ }

theorem rawDecoder_copies (given input : Buffer) (availOut : Nat) :
    given.drop 9 ++ (rawDecoder.call given input availOut).out =
      (rawDecoder.call given input availOut).state.drop 9 := by
  show given.drop 9 ++ (input.drop (9 - given.length)).take availOut =
    (given ++ input.take (min input.length (9 - given.length + availOut))).drop 9
  have hroom : min input.length (9 - given.length + availOut) - (9 - given.length) =
      min availOut (input.drop (9 - given.length)).length := by
    rw [List.length_drop]
    omega
  rw [List.drop_append, List.drop_take, hroom, ← List.take_eq_take_min]

theorem rawDecoder_accepts {given input : Buffer} {availOut : Nat} :
    (rawDecoder.call given input availOut).ret.toBool = true ↔
      given ++ input.take (rawDecoder.call given input availOut).consumed <+: rawFrame := by
  show (if _ <+: rawFrame then Except.ok 0 else Except.error _ : Except String Nat).toBool = true ↔
    _
  split
  · rename_i h
    exact ⟨fun _ => h, fun _ => rfl⟩
  · rename_i h
    exact ⟨fun htrue => (by cases htrue), fun hpre => absurd hpre h⟩

theorem rawDecoder_fed {given out : Buffer} {s : rawDecoder.State}
    (h : rawDecoder.Fed (fun ret => ret.toBool = true) [] given out s) :
    s = given ∧ out = given.drop 9 := by
  induction h with
  | start => exact ⟨rfl, rfl⟩
  | call h hret hmade ih =>
      obtain ⟨rfl, rfl⟩ := ih
      rw [hmade]
      exact ⟨rfl, rawDecoder_copies _ _ _⟩

theorem rawDecoder_streams : rawDecoder.Streams (fun ret => ret.toBool = true) []
    (· <+: rawFrame) (List.drop 9) where
  valid_nil := List.nil_prefix
  valid_front a b h := (List.prefix_append a b).trans h
  contents_nil := rfl
  contents_front a b := by
    rw [List.drop_append]
    exact List.prefix_append _ _
  accepted given out s input availOut h hret := by
    obtain ⟨rfl, -⟩ := rawDecoder_fed h
    exact rawDecoder_accepts.mp hret
  rejected given out s input availOut h _ _ hnot hvalid := by
    obtain ⟨rfl, -⟩ := rawDecoder_fed h
    apply hnot
    apply rawDecoder_accepts.mpr
    exact ((List.prefix_append_right_inj _).mpr (List.take_prefix _ _)).trans hvalid
  produced given out s h := by
    rw [(rawDecoder_fed h).2]
  flushed given out s input availOut h _ _ := by
    obtain ⟨rfl, rfl⟩ := rawDecoder_fed h
    exact rawDecoder_copies _ _ _
  progress given out s input availOut _ hne hpos _ :=
    .inl (lt_min (List.length_pos_iff.mpr hne) (Nat.add_pos_right _ hpos))

def rawZstd : Zstd where
  decoder := rawDecoder
  init := []
  dStreamInSize := 131075
  dStreamInSize_pos := BlockJob.storedZstd.dStreamInSize_pos
  valid := (· <+: rawFrame)
  contents := List.drop 9
  documented := rawDecoder_streams

/-- Input that decodes to nothing more is still in the headers. -/
theorem inside_headers {given input : Buffer} (hne : input ≠ [])
    (h : given.drop 9 = (given ++ input).drop 9) : given.length + input.length ≤ 9 := by
  have hpos := List.length_pos_iff.mpr hne
  have hlen := congrArg List.length h
  rw [List.length_drop, List.length_drop, List.length_append] at hlen
  omega

theorem rawZstd_takesRest : TakesRest rawZstd := by
  intro given out s input h hne hvalid hout
  obtain ⟨rfl, rfl⟩ := rawDecoder_fed h
  have hpos := List.length_pos_iff.mpr hne
  have hshort : List.length s + input.length ≤ 9 := inside_headers hne hout
  constructor
  · apply rawDecoder_accepts.mpr
    exact ((List.prefix_append_right_inj _).mpr (List.take_prefix _ _)).trans hvalid
  · show 0 < min input.length (9 - List.length s + 0)
    omega

def oneFrame : Frame where
  bytes := rawFrame
  usize := 3
  checksum := 0
  bytes_ne_nil := List.cons_ne_nil _ _
  length_lt := by decide

/-- There is a file of this frame and a seek table. -/
def rawFiles : FileSystem where
  contents path := if path = "/d/abc.zst" then some (serialise 0 [oneFrame]) else none
  writable _ := true

theorem serves_frames_one : ∃ o,
    new ⟨100, [], 32⟩ "/d/abc.zst".toList rawFiles = some (.ok o, rawFiles) ∧
      (CompFile.blockList o.mBlocks).Serves (Gives rawZstd ⟨String.ofList "/d/abc.zst".toList,
        serialise 0 [oneFrame], 0⟩) [[0x61, 0x62, 0x63]].flatten ∧
      o.warned = [oneFrame].any fun f => f.usize.toUInt64 > 100 := by
  have hfile : rawFiles.contents (String.ofList "/d/abc.zst".toList) =
      some (serialise 0 [oneFrame]) := by decide
  have hmagic : leBytes 4 ZSTD_MAGICNUMBER.toNat <+: oneFrame.bytes := by decide
  have hpacks : List.Forall₂ (Frame.Packs rawZstd) [oneFrame] [[0x61, 0x62, 0x63]] :=
    .cons ⟨List.prefix_refl _, rfl, rfl⟩ .nil
  exact serves_frames rawZstd_takesRest hfile hmagic (by decide) hpacks (by decide) (by decide)
    (by decide)

end ZstdFile

end Lzopfs
