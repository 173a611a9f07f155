import Lzopfs.LzopContents
import Lzopfs.PixzOpen

/-!
# What an xz file is served as

The index of an xz file lists its blocks. The first byte of a block tells how long its header
is, and what comes behind that is decoded into a buffer of the size that the index says. The
decoder has to come to the end of the block without more room than this.
-/

namespace Lzopfs

open Verify FileHandle BlockListCompFile

namespace PixzFile

variable {lz : Lzma} {mPath : String} {fh : FileHandle} {idx : LzmaIndex}
  {filters : lz.Filters} {start : lz.decoder.State}

/-- The decoders of blocks need no more room than for what the blocks decode to. -/
def EndsWithin (lz : Lzma) : Prop :=
  ∀ check filters start, lz.block_decoder check filters = some start →
    lz.decoder.EndsWithin .ok .streamEnd start (lz.contents check filters)

/-- What reading a block of a file gives, when an iterator is at it. -/
def Gives (lz : Lzma) (mPath : String) (fh : FileHandle) (idx : LzmaIndex) (b : Block)
    (plain : Buffer) : Prop :=
  ∀ i ∈ nonempty idx.blocks, (makeBlock i).block = b → ∀ ubuf, ∃ fuel d,
    decompressBlock lz mPath fuel fh (makeBlock i) ubuf = some (.ok d) ∧ d.ubuf = plain

/-- A block as the format has it. The size of the header counts words after the first one. -/
structure XzBlock where
  header_size : UInt8
  fields : Buffer
  body : Buffer
  length_fields : fields.length = (header_size.toNat + 1) * 4 - 1

namespace XzBlock

def header (x : XzBlock) : Buffer := x.header_size :: x.fields

def bytes (x : XzBlock) : Buffer := x.header ++ x.body

/-- What a block was made of. -/
def Packs (lz : Lzma) (check : UInt32) (x : XzBlock) (plain : Buffer) : Prop :=
  ∃ filters start, lz.block_header_decode check x.header = .ok filters ∧
    lz.block_decoder check filters = some start ∧ lz.contents check filters x.body = some plain

end XzBlock

/-- A block that was made of `plain` is where the index says. -/
def Placed (lz : Lzma) (fh : FileHandle) (i : IndexBlock) (plain : Buffer) : Prop :=
  ∃ x front back, XzBlock.Packs lz i.check x plain ∧ plain.length = i.uncompressed_size.toNat ∧
    fh.data = front ++ (x.header ++ (x.body ++ back)) ∧
    i.compressed_file_offset = UInt64.ofNat front.length

/-- The header of a block is read, and the decoder starts behind it. -/
theorem run_blockHeader {b : PixzBlock} {x : XzBlock} {front back : Buffer}
    (hdata : fh.data = front ++ (x.header ++ back))
    (hcoff : b.block.coff = UInt64.ofNat front.length) (hlt : fh.data.length < 2 ^ 63)
    (hheader : lz.block_header_decode b.check x.header = .ok filters)
    (hdecoder : lz.block_decoder b.check filters = some start) :
    ∃ off, blockHeader lz mPath fh b = .ok (filters, start, off) ∧ fh.restAt off = back := by
  have hlen := congrArg List.length hdata
  rw [List.length_append, List.length_append, XzBlock.header, List.length_cons] at hlen
  have hfields := x.length_fields
  have hfirst : fh.preadAt (toOff b.block.coff) 1 = .ok [x.header_size] := by
    rw [hcoff]
    exact @preadAt_slice fh front [x.header_size] _ hdata (List.cons_ne_nil _ _) (by omega)
  have hrest : fh.preadAt (toOff (b.block.coff + 1)) ((x.header_size.toNat + 1) * 4 - 1) =
      .ok x.fields := by
    have hfront : b.block.coff + 1 = UInt64.ofNat (front ++ [x.header_size]).length := by
      rw [hcoff, List.length_append, UInt64.ofNat_add]
      rfl
    have hslice : fh.data = (front ++ [x.header_size]) ++ (x.fields ++ back) := by
      rw [hdata, List.append_assoc]
      rfl
    rw [hfront, ← hfields]
    apply preadAt_slice hslice
    · rw [← List.length_pos_iff]
      omega
    · rw [List.length_append, List.length_singleton]
      omega
  have hoff : (b.block.coff + UInt64.ofNat ((x.header_size.toNat + 1) * 4)).toNat =
      (front ++ x.header).length := by
    rw [hcoff, ← UInt64.ofNat_add, UInt64.toNat_ofNat', List.length_append, XzBlock.header,
      List.length_cons]
    omega
  refine ⟨toOff (b.block.coff + UInt64.ofNat ((x.header_size.toNat + 1) * 4)), ?_, ?_⟩
  · rw [blockHeader, hfirst]
    dsimp only [bind, Except.bind, List.headD_cons]
    rw [lz.header_size, hrest]
    dsimp only
    rw [List.singleton_append, ← XzBlock.header, hheader]
    dsimp only
    rw [hdecoder]
    rfl
  · have hinside : (front ++ x.header).length < 2 ^ 63 := by
      rw [List.length_append, XzBlock.header, List.length_cons]
      omega
    rw [toOff_of_lt (by rw [hoff]; exact hinside), hoff, restAt, if_neg (by omega),
      Int.toNat_natCast, hdata, ← List.append_assoc, List.drop_left]

/-- A block is read as what it was made of. -/
theorem Placed.decompressBlock {i : IndexBlock} {plain : Buffer} (hends : EndsWithin lz)
    (hfit : i.uncompressed_size.toNat < 2 ^ 32) (hlt : fh.data.length < 2 ^ 63)
    (h : Placed lz fh i plain) (ubuf : Buffer) : ∃ fuel d,
      decompressBlock lz mPath fuel fh (makeBlock i) ubuf = some (.ok d) ∧ d.ubuf = plain := by
  obtain ⟨x, front, back, ⟨filters, start, hheader, hdecoder, hcontents⟩, hsize, hdata, hcoff⟩ := h
  obtain ⟨off, hread, hoff⟩ := @run_blockHeader lz mPath fh filters start (makeBlock i) x front _
    hdata hcoff hlt hheader hdecoder
  have husize := usize_makeBlock hfit
  have hdoc := lz.documented _ _ _ hdecoder
  have hwhole : lz.contents i.check filters (fh.restAt off) = some plain := by
    rw [hoff]
    exact hdoc.contents_front _ _ _ hcontents
  have hdecodes : ∃ fuel f, iterate (code lz fh).body fuel (codeStart fh (makeBlock i) start off) =
      some (.ok f) ∧ f.out = plain := by
    refine ⟨_, Pump.At.iterate_delimits hdoc ?_ (fun _ => rfl) rfl rfl hwhole coding_start
      hdoc.contents_nil (Nat.lt_succ_self _)⟩
    intro given out s input availOut behind hfed hne hpart hroom
    apply hends _ _ _ hdecoder given out s input availOut behind plain hfed hne hpart
    omega
  obtain ⟨fuel, f, hrun, rfl⟩ := hdecodes
  refine ⟨fuel, .fill ubuf (makeBlock i).block.usize f.out, ?_, ?_⟩
  · rw [PixzFile.decompressBlock, hread]
    exact congrArg (Option.map _) hrun
  · exact ((Decoded.full_fill ubuf).mpr (hsize.trans husize.symm)).2

section Index

variable {plains : List Buffer} (hends : EndsWithin lz) (hfits : Fits idx)
  (hlt : fh.data.length < 2 ^ 63)
  (hplaced : List.Forall₂ (Placed lz fh) (nonempty idx.blocks) plains)

theorem usize_ne_zero (hfits : Fits idx) {b : Block} (hb : b ∈ (CompFile.pixz idx).blocks) :
    b.usize ≠ 0 := by
  obtain ⟨i, hi, rfl⟩ := List.mem_map.mp hb
  obtain ⟨hmem, hne⟩ := List.mem_filter.mp hi
  have husize := usize_makeBlock (hfits i hmem)
  intro hzero
  rw [hzero] at husize
  exact of_decide_eq_true hne (UInt64.toNat_inj.mp husize.symm)

include hends hfits hlt hplaced

/-- Each block of the index gives what it was made of. -/
theorem blocks_gives
    (hdistinct : ((nonempty idx.blocks).map IndexBlock.compressed_file_offset).Nodup) :
    List.Forall₂ (fun b plain => Gives lz mPath fh idx b plain ∧ plain.length = b.usize.toNat)
      (CompFile.pixz idx).blocks plains := by
  have hlisted := (List.forall₂_and_left _ _).mpr ⟨fun i hi => hi, hplaced⟩
  apply List.forall₂_map_left_iff.mpr
  apply hlisted.imp
  rintro i plain ⟨hi, hi'⟩
  have hfit := hfits i (List.mem_of_mem_filter hi)
  constructor
  · intro j hj hsame ubuf
    have hcoff : j.compressed_file_offset = i.compressed_file_offset := congrArg Block.coff hsame
    rw [List.inj_on_of_nodup_map hdistinct hj hi hcoff]
    exact hi'.decompressBlock hends hfit hlt ubuf
  · obtain ⟨-, -, -, -, hsize, -⟩ := hi'
    exact hsize.trans (usize_makeBlock hfit).symm

theorem serves_blocks
    (hdistinct : ((nonempty idx.blocks).map IndexBlock.compressed_file_offset).Nodup) :
    (CompFile.pixz idx).Serves (Gives lz mPath fh idx) plains.flatten := by
  have hcoffs : ((CompFile.pixz idx).blocks.map Block.coff).Nodup := by
    have hmap : (CompFile.pixz idx).blocks.map Block.coff =
        (nonempty idx.blocks).map IndexBlock.compressed_file_offset := List.map_map
    rw [hmap]
    exact hdistinct
  obtain ⟨decompress, hmap, hgives⟩ := CompFile.exists_decompress hcoffs.of_map
    (blocks_gives hends hfits hlt hplaced hdistinct)
  refine ⟨decompress, fun b hb => (hgives b hb).1, hfits, hcoffs, fun b hb => (hgives b hb).2, ?_⟩
  rw [OpenCompressedFile.contents, List.flatMap_def, hmap]

end Index

/-- The constructor's last check: is there something in the file, and does the cache take all
its blocks? -/
theorem checkSizes_blocks {plains : List Buffer} (hfits : Fits idx)
    (hplaced : List.Forall₂ (Placed lz fh) (nonempty idx.blocks) plains) (maxBlock : UInt64) :
    (CompFile.pixz idx).checkSizes maxBlock =
      if plains = [] then .error (.runtime "no blocks in file?")
      else .ok (plains.any fun plain => maxBlock.toNat < plain.length) := by
  have hregular : (CompFile.pixz idx).Regular := hfits
  have hany : ∀ {is plains}, (∀ i ∈ is, i.uncompressed_size.toNat < 2 ^ 32) →
      List.Forall₂ (Placed lz fh) is plains →
        (is.map fun i => (makeBlock i).block).any (fun b => b.usize.toUInt64 > maxBlock) =
          plains.any fun plain => maxBlock.toNat < plain.length := by
    intro is plains hfit h
    induction h with
    | nil => rfl
    | @cons i plain is plains hi h ih =>
        obtain ⟨hfit, hfits⟩ := List.forall_mem_cons.mp hfit
        obtain ⟨-, -, -, -, hsize, -⟩ := hi
        have hlarge : (makeBlock i).block.usize.toUInt64 > maxBlock ↔
            maxBlock.toNat < plain.length := by
          rw [hsize, ← usize_makeBlock hfit, ← UInt32.toNat_toUInt64]
          exact UInt64.lt_iff_toNat_lt
        rw [List.map_cons, List.any_cons, List.any_cons, ih hfits, decide_eq_decide.mpr hlarge]
  rw [hregular.checkSizes]
  by_cases hnil : plains = []
  · subst hnil
    have hblocks : nonempty idx.blocks = [] := List.forall₂_nil_right_iff.mp hplaced
    have htotal : total (CompFile.pixz idx).blocks = 0 := by
      rw [CompFile.blocks, hblocks]
      rfl
    rw [htotal]
    rfl
  · have hblocks : (CompFile.pixz idx).blocks ≠ [] := by
      intro hempty
      rw [List.map_eq_nil_iff.mp hempty] at hplaced
      exact hnil (List.forall₂_nil_left_iff.mp hplaced)
    rw [if_pos (CompFile.total_pos hblocks fun _ => usize_ne_zero hfits), if_neg hnil]
    exact congrArg _ (hany (fun i hi => hfits i (List.mem_of_mem_filter hi)) hplaced)

section Streams

variable {lib : Liblzma}

/-- What an index records of a block. -/
def recordOf (b : XzBlock × Buffer) : IndexRecord :=
  ⟨UInt64.ofNat b.1.bytes.length, UInt64.ofNat b.2.length⟩

/-- A stream of blocks, with what each of them was made of, and so many words of padding behind
it. Its index records the blocks. -/
structure BlockStream (lib : Liblzma) (lz : Lzma) where
  stream : XzStream lib.toLzmaIndexing
  words : Nat
  header : Buffer
  blocks : List (XzBlock × Buffer)
  length_header : header.length = LZMA_STREAM_HEADER_SIZE
  body : stream.body = header ++ blocks.flatMap fun b => b.1.bytes
  records : lib.blockRecords stream.records = blocks.map recordOf
  packs : ∀ b ∈ blocks, b.1.Packs lz (lib.check stream.flags) b.2

namespace BlockStream

def part (s : BlockStream lib lz) : XzStream lib.toLzmaIndexing × Nat := (s.stream, s.words)

/-- The file of these streams. -/
def serialise (ss : List (BlockStream lib lz)) : Buffer := fileBytes (ss.map part)

/-- What was packed. -/
def plains (ss : List (BlockStream lib lz)) : List Buffer :=
  ss.flatMap fun s => s.blocks.map Prod.snd

/-- What the streams are indexed as, from a place on. -/
def listed (lib : Liblzma) (coff uoff : UInt64) (ss : List (BlockStream lib lz)) :
    List IndexBlock := lib.streamBlocks coff uoff (entries (ss.map part))

end BlockStream

/-- Blocks that start in this range, each behind the one before. -/
structure Within (lo hi : Nat) (is : List IndexBlock) : Prop where
  ascending : is.Pairwise fun i j =>
    i.compressed_file_offset.toNat < j.compressed_file_offset.toNat
  inside : ∀ i ∈ is, lo ≤ i.compressed_file_offset.toNat ∧ i.compressed_file_offset.toNat < hi

namespace Within

variable {lo mid hi : Nat} {is js : List IndexBlock}

theorem nil (lo hi : Nat) : Within lo hi [] := ⟨.nil, fun i hi => (by cases hi)⟩

theorem append (his : Within lo mid is) (hjs : Within mid hi js) (hlo : lo ≤ mid)
    (hhi : mid ≤ hi) : Within lo hi (is ++ js) where
  ascending := by
    apply List.pairwise_append.mpr
    refine ⟨his.ascending, hjs.ascending, ?_⟩
    intro i hi j hj
    exact Nat.lt_of_lt_of_le (his.inside i hi).2 (hjs.inside j hj).1
  inside := by
    intro i hi
    cases List.mem_append.mp hi with
    | inl h =>
        have hin := his.inside i h
        omega
    | inr h =>
        have hin := hjs.inside i h
        omega

theorem widen {lo' hi' : Nat} (h : Within lo hi is) (hlo : lo' ≤ lo) (hhi : hi ≤ hi') :
    Within lo' hi' is := by
  refine ⟨h.ascending, ?_⟩
  intro i hi
  have hin := h.inside i hi
  omega

/-- No two of the blocks start at one place. -/
theorem nodup (h : Within lo hi is) (hsub : js.Sublist is) :
    (js.map IndexBlock.compressed_file_offset).Nodup := by
  apply List.pairwise_map.mpr
  apply (h.ascending.sublist hsub).imp
  intro i j hlt heq
  rw [heq] at hlt
  exact Nat.lt_irrefl _ hlt

end Within

theorem XzBlock.length_bytes_pos (x : XzBlock) : 0 < x.bytes.length := by
  rw [bytes, header, List.length_append, List.length_cons]
  omega

/-- The blocks that lie behind each other in a file are placed where their records say. -/
theorem placed_recordBlocks {blocks : List (XzBlock × Buffer)} {check : UInt32}
    {front back : Buffer} (uoff : UInt64)
    (hdata : fh.data = front ++ (blocks.flatMap fun b => b.1.bytes) ++ back)
    (hpacks : ∀ b ∈ blocks, b.1.Packs lz check b.2) (hfit : ∀ b ∈ blocks, b.2.length < 2 ^ 32)
    (hlt : fh.data.length < 2 ^ 63) :
    List.Forall₂ (Placed lz fh)
        (recordBlocks check (UInt64.ofNat front.length) uoff (blocks.map recordOf))
        (blocks.map Prod.snd) ∧
      Within front.length (front ++ blocks.flatMap fun b => b.1.bytes).length
        (recordBlocks check (UInt64.ofNat front.length) uoff (blocks.map recordOf)) := by
  induction blocks generalizing front uoff with
  | nil => exact ⟨.nil, .nil _ _⟩
  | cons b blocks ih =>
      obtain ⟨hpack, hpacks⟩ := List.forall_mem_cons.mp hpacks
      obtain ⟨hsmall, hfit⟩ := List.forall_mem_cons.mp hfit
      have hcons : (List.flatMap (fun b : XzBlock × Buffer => b.1.bytes) (b :: blocks)) =
          b.1.bytes ++ blocks.flatMap fun b => b.1.bytes := List.flatMap_cons
      have hdata' : fh.data =
          (front ++ b.1.bytes) ++ (blocks.flatMap fun b => b.1.bytes) ++ back := by
        rw [hdata, hcons]
        simp only [List.append_assoc]
      obtain ⟨hplaced, hwithin⟩ := ih (uoff + UInt64.ofNat b.2.length) hdata' hpacks hfit
      have hnext : UInt64.ofNat front.length + UInt64.ofNat b.1.bytes.length =
          UInt64.ofNat (front ++ b.1.bytes).length := by
        rw [List.length_append, UInt64.ofNat_add]
      have hlen := congrArg List.length hdata'
      simp only [List.length_append] at hlen
      have hcoff : (UInt64.ofNat front.length).toNat = front.length := by
        rw [UInt64.toNat_ofNat', Nat.mod_eq_of_lt (by omega)]
      have hpos := b.1.length_bytes_pos
      rw [List.map_cons, recordBlocks, recordOf, hnext, hcons, ← List.append_assoc]
      refine ⟨.cons ?_ hplaced, ?_⟩
      · refine ⟨b.1, front, (blocks.flatMap fun b => b.1.bytes) ++ back, hpack, ?_, ?_, rfl⟩
        · show b.2.length = (UInt64.ofNat b.2.length).toNat
          rw [UInt64.toNat_ofNat', Nat.mod_eq_of_lt (by omega)]
        · rw [hdata', XzBlock.bytes]
          simp only [List.append_assoc]
      · have hone : Within front.length (front ++ b.1.bytes).length
            [⟨UInt64.ofNat front.length, uoff, UInt64.ofNat b.1.bytes.length,
              UInt64.ofNat b.2.length, check⟩] := by
          refine ⟨List.pairwise_singleton _ _, ?_⟩
          intro i hi
          rw [List.mem_singleton.mp hi, List.length_append]
          show front.length ≤ (UInt64.ofNat front.length).toNat ∧
            (UInt64.ofNat front.length).toNat < _
          omega
        apply hone.append hwithin
        · rw [List.length_append]
          exact Nat.le_add_right _ _
        · exact (List.sublist_append_left _ _).length_le

/-- So are those of streams that lie behind each other. -/
theorem placed_streams {ss : List (BlockStream lib lz)} {front : Buffer} (uoff : UInt64)
    (hdata : fh.data = front ++ BlockStream.serialise ss)
    (hfit : ∀ plain ∈ BlockStream.plains ss, plain.length < 2 ^ 32)
    (hlt : fh.data.length < 2 ^ 63) :
    List.Forall₂ (Placed lz fh) (BlockStream.listed lib (UInt64.ofNat front.length) uoff ss)
        (BlockStream.plains ss) ∧
      Within front.length fh.data.length
        (BlockStream.listed lib (UInt64.ofNat front.length) uoff ss) := by
  induction ss generalizing front uoff with
  | nil => exact ⟨.nil, .nil _ _⟩
  | cons s ss ih =>
      have hcons : BlockStream.serialise (s :: ss) =
          s.stream.bytes ++ zeros (4 * s.words) ++ BlockStream.serialise ss := rfl
      have hplains : BlockStream.plains (s :: ss) =
          s.blocks.map Prod.snd ++ BlockStream.plains ss := List.flatMap_cons
      have hlisted : BlockStream.listed lib (UInt64.ofNat front.length) uoff (s :: ss) =
          recordBlocks (lib.check s.stream.flags) (UInt64.ofNat front.length +
              UInt64.ofNat LZMA_STREAM_HEADER_SIZE) uoff (lib.blockRecords s.stream.records) ++
            BlockStream.listed lib (UInt64.ofNat front.length + UInt64.ofNat
              (lib.streamSize s.stream.records + 4 * s.words))
              (uoff + ((lib.blockRecords s.stream.records).map
                IndexRecord.uncompressed_size).sum) ss := rfl
      rw [hplains] at hfit ⊢
      obtain ⟨hfit₁, hfit₂⟩ := List.forall_mem_append.mp hfit
      have hblocks : fh.data = (front ++ s.header) ++ (s.blocks.flatMap fun b => b.1.bytes) ++
          (s.stream.index ++ s.stream.footer ++ zeros (4 * s.words) ++
            BlockStream.serialise ss) := by
        rw [hdata, hcons, XzStream.bytes, s.body]
        simp only [List.append_assoc]
      have hrest : fh.data =
          (front ++ (s.stream.bytes ++ zeros (4 * s.words))) ++ BlockStream.serialise ss := by
        rw [hdata, hcons]
        simp only [List.append_assoc]
      have hstart : UInt64.ofNat front.length + UInt64.ofNat LZMA_STREAM_HEADER_SIZE =
          UInt64.ofNat (front ++ s.header).length := by
        rw [List.length_append, s.length_header, UInt64.ofNat_add]
      have hend : UInt64.ofNat front.length +
            UInt64.ofNat (lib.streamSize s.stream.records + 4 * s.words) =
          UInt64.ofNat (front ++ (s.stream.bytes ++ zeros (4 * s.words))).length := by
        rw [s.stream.size_eq, List.length_append, List.length_append, length_zeros,
          ← UInt64.ofNat_add]
      obtain ⟨hplaced₁, hwithin₁⟩ := placed_recordBlocks uoff hblocks s.packs
        (fun b hb => hfit₁ b.2 (List.mem_map_of_mem hb)) hlt
      obtain ⟨hplaced₂, hwithin₂⟩ := ih (uoff + ((lib.blockRecords s.stream.records).map
        IndexRecord.uncompressed_size).sum) hrest hfit₂
      rw [hlisted, hstart, hend, s.records]
      rw [s.records] at hplaced₂ hwithin₂
      refine ⟨List.rel_append hplaced₁ hplaced₂, ?_⟩
      have hmid : (front ++ s.header ++ s.blocks.flatMap fun b => b.1.bytes).length ≤
          (front ++ (s.stream.bytes ++ zeros (4 * s.words))).length := by
        rw [XzStream.bytes, s.body]
        simp only [List.length_append]
        omega
      have hlen := congrArg List.length hrest
      rw [List.length_append] at hlen
      have hhead : front.length ≤ (front ++ s.header).length := by
        rw [List.length_append]
        exact Nat.le_add_right _ _
      exact (hwithin₁.widen hhead hmid).append hwithin₂
        (by rw [List.length_append]; exact Nat.le_add_right _ _) (by omega)

/-- Empty blocks are left out on both sides. -/
theorem placed_nonempty {is : List IndexBlock} {plains : List Buffer}
    (h : List.Forall₂ (Placed lz fh) is plains) :
    List.Forall₂ (Placed lz fh) (nonempty is) (plains.filter (· ≠ [])) := by
  apply List.rel_filter _ h
  rintro i plain ⟨-, -, -, -, hsize, -⟩
  have hempty : plain = [] ↔ i.uncompressed_size = 0 := by
    rw [← List.length_eq_zero_iff, hsize, ← UInt64.toNat_inj]
    rfl
  simp [hempty]

theorem fits_of_placed {is : List IndexBlock} {plains : List Buffer}
    (h : List.Forall₂ (Placed lz fh) is plains) (hfit : ∀ plain ∈ plains, plain.length < 2 ^ 32) :
    ∀ i ∈ is, i.uncompressed_size.toNat < 2 ^ 32 := by
  induction h with
  | nil => exact fun i hi => (by cases hi)
  | cons hi h ih =>
      obtain ⟨hsmall, hfit⟩ := List.forall_mem_cons.mp hfit
      obtain ⟨-, -, -, -, hsize, -⟩ := hi
      exact List.forall_mem_cons.mpr ⟨hsize ▸ hsmall, ih hfit⟩

/-- Nothing is in a file whose blocks are all empty. -/
theorem filter_eq_nil_iff (plains : List Buffer) :
    plains.filter (· ≠ []) = [] ↔ plains.flatten = [] := by
  simp [List.filter_eq_nil_iff, List.flatten_eq_nil_iff]

theorem any_filter (maxBlock : UInt64) (plains : List Buffer) :
    (plains.filter (· ≠ [])).any (fun plain => maxBlock.toNat < plain.length) =
      plains.any fun plain => maxBlock.toNat < plain.length := by
  rw [List.any_filter]
  congr
  funext plain
  cases plain with
  | nil => simp
  | cons a plain => simp

variable {maxBlock : UInt64} {path : Str} {fs : FileSystem} {fuel : Nat} {flags : lib.Flags}
  {start : lib.decoder.State} {s : BlockStream lib lz} {ss : List (BlockStream lib lz)}

/-- The header of the first stream is accepted. -/
theorem run_readHeader (hheader : lib.stream_header_decode s.header = .ok flags) :
    (readHeader lib mPath).run ⟨mPath, BlockStream.serialise (s :: ss), 0⟩ =
      .ok ((), ⟨mPath, BlockStream.serialise (s :: ss), 12⟩) := by
  have hrest : FileHandle.rest ⟨mPath, BlockStream.serialise (s :: ss), 0⟩ = s.header ++
      ((s.blocks.flatMap fun b => b.1.bytes) ++ s.stream.index ++ s.stream.footer ++
        zeros (4 * s.words) ++ BlockStream.serialise ss) := by
    have hcons : BlockStream.serialise (s :: ss) =
        s.stream.bytes ++ zeros (4 * s.words) ++ BlockStream.serialise ss := rfl
    show (BlockStream.serialise (s :: ss)).drop 0 = _
    rw [List.drop_zero, hcons, XzStream.bytes, s.body]
    simp only [List.append_assoc]
  have hne : s.header ≠ [] := by
    apply List.ne_nil_of_length_pos
    rw [s.length_header]
    decide
  have hread := read_ok hne hrest
  rw [s.length_header] at hread
  apply run_catchEOF
  rw [FileM.run_bind_ok hread, hheader]
  rfl

/-- What an iterator shows of the blocks of the streams. -/
theorem listed_placed {mIndex : LzmaIndex}
    (hblocks : mIndex.blocks =
      BlockStream.listed lib (UInt64.ofNat ([] : Buffer).length) 0 (s :: ss))
    (hfit : ∀ plain ∈ BlockStream.plains (s :: ss), plain.length < 2 ^ 32)
    (hlt : (BlockStream.serialise (s :: ss)).length < 2 ^ 63) :
    Fits mIndex ∧
      List.Forall₂ (Placed lz ⟨mPath, BlockStream.serialise (s :: ss), 0⟩)
        (nonempty mIndex.blocks) ((BlockStream.plains (s :: ss)).filter (· ≠ [])) ∧
      ((nonempty mIndex.blocks).map IndexBlock.compressed_file_offset).Nodup := by
  obtain ⟨hplaced, hwithin⟩ := @placed_streams lz
    ⟨mPath, BlockStream.serialise (s :: ss), 0⟩ lib (s :: ss) [] 0 rfl hfit hlt
  rw [← hblocks] at hplaced hwithin
  exact ⟨fits_of_placed hplaced hfit, placed_nonempty hplaced,
    hwithin.nodup List.filter_sublist⟩

/-- A file of streams is opened, unless there is nothing in it. -/
theorem new_serialise (hreports : lib.Reports)
    (hfile : fs.contents (String.ofList path) = some (BlockStream.serialise (s :: ss)))
    (hheader : lib.stream_header_decode s.header = .ok flags)
    (hstart : lib.index_decoder = some start)
    (hcombine : Combine lib.toLzmaIndexing (entries ((s :: ss).map BlockStream.part)))
    (hfit : ∀ plain ∈ BlockStream.plains (s :: ss), plain.length < 2 ^ 32)
    (hlt : (BlockStream.serialise (s :: ss)).length < 2 ^ 63)
    (hfuel : (BlockStream.serialise (s :: ss)).length < fuel) : ∃ idx,
    idx.blocks = BlockStream.listed lib (UInt64.ofNat ([] : Buffer).length) 0 (s :: ss) ∧
      new lib maxBlock path fuel fs = some
        (if (BlockStream.plains (s :: ss)).flatten = [] then
          .error (.runtime "no blocks in file?")
        else .ok (idx, (BlockStream.plains (s :: ss)).any
          fun plain => maxBlock.toNat < plain.length)) := by
  have hopen : fs.openRead (String.ofList path) =
      .ok ⟨String.ofList path, BlockStream.serialise (s :: ss), 0⟩ := by
    rw [FileSystem.openRead, hfile]
  obtain ⟨idx, hread, hstreams⟩ :=
    @readIndex_ok _ (String.ofList path) ⟨String.ofList path, BlockStream.serialise (s :: ss), 12⟩
      _ fuel start hstart (List.cons_ne_nil _ _) rfl hlt hfuel hcombine
  have hblocks : (lib.iterated idx).blocks =
      BlockStream.listed lib (UInt64.ofNat ([] : Buffer).length) 0 (s :: ss) := by
    rw [hreports, hstreams]
    rfl
  obtain ⟨hfits, hplaced, -⟩ := @listed_placed lz "" lib s ss _ hblocks hfit hlt
  refine ⟨lib.iterated idx, hblocks, ?_⟩
  rw [new_eq hopen (openIndex_ok (run_readHeader hheader) hread), checked,
    checkSizes_blocks hfits hplaced, any_filter]
  simp only [filter_eq_nil_iff]
  by_cases hnil : (BlockStream.plains (s :: ss)).flatten = []
  · rw [if_pos hnil, if_pos hnil]
  · rw [if_neg hnil, if_neg hnil]

/-- The blocks of such an index serve what the blocks were made of. -/
theorem serves_listed {mIndex : LzmaIndex} (hends : EndsWithin lz)
    (hblocks : mIndex.blocks =
      BlockStream.listed lib (UInt64.ofNat ([] : Buffer).length) 0 (s :: ss))
    (hfit : ∀ plain ∈ BlockStream.plains (s :: ss), plain.length < 2 ^ 32)
    (hlt : (BlockStream.serialise (s :: ss)).length < 2 ^ 63) :
    (CompFile.pixz mIndex).Serves
      (Gives lz mPath ⟨mPath, BlockStream.serialise (s :: ss), 0⟩ mIndex)
        (BlockStream.plains (s :: ss)).flatten := by
  obtain ⟨hfits, hplaced, hdistinct⟩ := @listed_placed lz mPath lib s ss _ hblocks hfit hlt
  have hserves := @serves_blocks lz mPath _ _ _ hends hfits hlt hplaced hdistinct
  rw [List.flatten_filter_ne_nil] at hserves
  exact hserves

/-- A file of streams of blocks is opened if there is anything in it, with a warning if the
cache does not take all its blocks, and it is served as what the blocks were made of. Empty
blocks are stepped over. -/
theorem serves_streams (hends : EndsWithin lz) (hreports : lib.Reports)
    (hfile : fs.contents (String.ofList path) = some (BlockStream.serialise (s :: ss)))
    (hheader : lib.stream_header_decode s.header = .ok flags)
    (hstart : lib.index_decoder = some start)
    (hcombine : Combine lib.toLzmaIndexing (entries ((s :: ss).map BlockStream.part)))
    (hfit : ∀ plain ∈ BlockStream.plains (s :: ss), plain.length < 2 ^ 32)
    (hlt : (BlockStream.serialise (s :: ss)).length < 2 ^ 63)
    (hfuel : (BlockStream.serialise (s :: ss)).length < fuel) : ∃ idx,
    new lib maxBlock path fuel fs = some
        (if (BlockStream.plains (s :: ss)).flatten = [] then
          .error (.runtime "no blocks in file?")
        else .ok (idx, (BlockStream.plains (s :: ss)).any
          fun plain => maxBlock.toNat < plain.length)) ∧
      (CompFile.pixz idx).Serves (Gives lz (String.ofList path)
        ⟨String.ofList path, BlockStream.serialise (s :: ss), 0⟩ idx)
          (BlockStream.plains (s :: ss)).flatten := by
  obtain ⟨idx, hblocks, hnew⟩ :=
    new_serialise hreports hfile hheader hstart hcombine hfit hlt hfuel
  exact ⟨idx, hnew, serves_listed hends hblocks hfit hlt⟩

end Streams

/-- A decoder that knows one block. It takes its bytes at any time, and hands out what they
decode to when it has all of them and there is room. -/
def wholeDecoder (body plain : Buffer) : Decoder UInt8 UInt8 LzmaRet where
  State := Buffer
  call given input availOut :=
    { state := given ++ input.take (body.length - given.length)
      consumed := min input.length (body.length - given.length)
      out := (if given ++ input.take (body.length - given.length) = body ∧ plain.length ≤ availOut
        then plain else []).take availOut
      ret := if given ++ input.take (body.length - given.length) = body ∧ plain.length ≤ availOut
        then .streamEnd
        else if given ++ input.take (body.length - given.length) <+: body then .ok else .dataError
      consumed_le := Nat.min_le_left _ _
      out_le := List.length_take_le _ _ }

section WholeDecoder

variable {body plain given out input : Buffer} {availOut : Nat}

theorem take_consumed (given input : Buffer) (n : Nat) :
    given ++ input.take (min input.length n) = given ++ input.take n := by
  rw [Nat.min_comm, ← List.take_take, List.take_length]

theorem wholeDecoder_ret (given input : Buffer) (availOut : Nat) :
    ((wholeDecoder body plain).call given input availOut).ret =
      if given ++ input.take (body.length - given.length) = body ∧ plain.length ≤ availOut
      then .streamEnd
      else if given ++ input.take (body.length - given.length) <+: body then .ok
      else .dataError := rfl

theorem wholeDecoder_out (h : given ++ input.take (body.length - given.length) = body ∧
    plain.length ≤ availOut) :
    ((wholeDecoder body plain).call given input availOut).out = plain := by
  show (if _ then plain else []).take availOut = plain
  rw [if_pos h]
  exact List.take_of_length_le h.2

theorem wholeDecoder_fed {s : (wholeDecoder body plain).State}
    (h : (wholeDecoder body plain).Fed (· = .ok) [] given out s) :
    @Eq Buffer given s ∧ given <+: body ∧ out = [] := by
  induction h with
  | start => exact ⟨rfl, List.nil_prefix, rfl⟩
  | @call given made out s input availOut _ hret hmade ih =>
      obtain ⟨rfl, -, rfl⟩ := ih
      have hmade' : made = given ++ input.take (body.length - given.length) :=
        hmade.trans (take_consumed _ _ _)
      rw [wholeDecoder_ret] at hret
      split at hret
      · cases hret
      · rename_i hnot
        split at hret
        · rename_i hprefix
          refine ⟨hmade', hmade' ▸ hprefix, ?_⟩
          show [] ++ (if _ then plain else []).take availOut = []
          rw [if_neg hnot, List.take_nil]
          rfl
        · cases hret

theorem wholeDecoder_endsWithin : (wholeDecoder body plain).EndsWithin .ok .streamEnd []
    fun buf => if body <+: buf then some plain else none := by
  intro given out s input availOut behind c hfed hne hwhole hroom
  obtain ⟨rfl, hprefix, rfl⟩ := wholeDecoder_fed hfed
  dsimp only at hwhole
  have hbody : body <+: given ++ (input ++ behind) := by
    by_contra hnot
    rw [if_neg hnot] at hwhole
    cases hwhole
  rw [if_pos hbody] at hwhole
  cases hwhole
  rw [List.length_nil, Nat.zero_add] at hroom
  have hfront : given ++ input.take (body.length - given.length) <+: given ++ (input ++ behind) :=
    (List.prefix_append_right_inj given).mpr
      ((List.take_prefix _ _).trans (List.prefix_append _ _))
  have hsmall : given ++ input.take (body.length - given.length) <+: body := by
    apply List.prefix_of_prefix_length_le hfront hbody
    have hle := hprefix.length_le
    rw [List.length_append, List.length_take]
    omega
  by_cases hend : given ++ input.take (body.length - given.length) = body
  · exact .inl (if_pos ⟨hend, hroom⟩)
  · refine .inr ⟨?_, .inl ?_, if_neg fun hback => hend ?_⟩
    · rw [wholeDecoder_ret, if_neg fun h => hend h.1, if_pos hsmall]
    · show 0 < min input.length (body.length - given.length)
      have hpos := List.length_pos_iff.mpr hne
      have hless : given.length < body.length := by
        apply Nat.lt_of_not_le
        intro hle
        have hfull := hprefix.eq_of_length_le hle
        apply hend
        rw [hfull, Nat.sub_self, List.take_zero, List.append_nil]
      omega
    · rw [← take_consumed] at hsmall ⊢
      exact hsmall.eq_of_length_le hback.length_le

theorem wholeDecoder_delimits (hne : body ≠ []) :
    (wholeDecoder body plain).Delimits .ok .streamEnd []
      fun buf => if body <+: buf then some plain else none where
  contents_nil := if_neg fun h => hne (List.prefix_nil.mp h)
  contents_front a b c h := by
    split at h
    · rename_i hbody
      cases h
      exact if_pos (hbody.trans (List.prefix_append _ _))
    · cases h
  ended given out s input availOut hfed hret := by
    obtain ⟨rfl, -, rfl⟩ := wholeDecoder_fed hfed
    rw [wholeDecoder_ret] at hret
    have hend : given ++ input.take (body.length - given.length) = body ∧
        plain.length ≤ availOut := by
      by_contra hnot
      rw [if_neg hnot] at hret
      split at hret <;> cases hret
    rw [wholeDecoder_out hend]
    apply if_pos
    show body <+: given ++ input.take (min input.length (body.length - given.length))
    rw [take_consumed, hend.1]
  inside given out s input availOut behind c hfed hinput hwhole hless :=
    wholeDecoder_endsWithin given out s input availOut behind c hfed hinput hwhole
      (Nat.le_of_lt hless)

end WholeDecoder

/-- The header of a block with the filter LZMA2, and a chunk of three bytes as they are, with the
padding and the CRC64 behind it. -/
def letterBlock : XzBlock where
  header_size := 0x02
  fields := [0x00, 0x21, 0x01, 0x16, 0x00, 0x00, 0x00, 0x74, 0x2f, 0xe5, 0xa3]
  body := [0x01, 0x00, 0x02, 0x61, 0x62, 0x63, 0x00, 0x00,
    0x27, 0x76, 0x27, 0x1a, 0x4a, 0x09, 0xd8, 0x2c]
  length_fields := rfl

/-- liblzma, on this block. -/
def letterLzma : Lzma where
  Filters := Unit
  decoder := wholeDecoder letterBlock.body [0x61, 0x62, 0x63]
  block_header_size_decode first := (first.toNat + 1) * 4
  block_header_decode _ header :=
    if header = letterBlock.header then .ok () else .error .dataError
  block_decoder _ _ := some []
  contents _ _ buf := if letterBlock.body <+: buf then some [0x61, 0x62, 0x63] else none
  header_size := BlockJob.emptyLzma.header_size
  documented _ _ _ h := by
    cases h
    exact wholeDecoder_delimits (List.cons_ne_nil _ _)

theorem letterLzma_endsWithin : EndsWithin letterLzma := by
  intro check filters start h
  cases h
  exact wholeDecoder_endsWithin

/-- The index of a stream with this block twice, and the footer behind it. -/
def lettersIndex : Buffer :=
  [0x00, 0x02, 0x1b, 0x03, 0x1b, 0x03, 0x00, 0x00, 0x0f, 0x28, 0x52, 0x59]

def lettersFooter : Buffer :=
  [0xb1, 0xc4, 0x67, 0xfb, 0x02, 0x00, 0x00, 0x00, 0x00, 0x04, 0x59, 0x5a]

/-- liblzma, on this index. -/
def lettersLib : Liblzma :=
  knownField lettersIndex lettersFooter rfl (List.cons_ne_nil _ _) [⟨28, 3⟩, ⟨28, 3⟩] (by decide)

theorem lettersLib_parse (behind : Buffer) :
    lettersLib.parse (lettersIndex ++ behind) = some () := by
  show (if lettersIndex <+: lettersIndex ++ behind then some () else none) = some ()
  rw [if_pos (List.prefix_append _ _)]

/-- The stream. -/
def lettersStream : BlockStream lettersLib letterLzma where
  stream :=
    { body := [0xfd, 0x37, 0x7a, 0x58, 0x5a, 0x00, 0x00, 0x04, 0xe6, 0xd6, 0xb4, 0x46] ++
        (letterBlock.bytes ++ letterBlock.bytes)
      index := lettersIndex
      footer := lettersFooter
      records := ()
      flags := (4 : UInt8)
      footer_length := rfl
      footer_decode := rfl
      backward_size := rfl
      index_parse := lettersLib_parse
      size := rfl }
  words := 0
  header := [0xfd, 0x37, 0x7a, 0x58, 0x5a, 0x00, 0x00, 0x04, 0xe6, 0xd6, 0xb4, 0x46]
  blocks := [(letterBlock, [0x61, 0x62, 0x63]), (letterBlock, [0x61, 0x62, 0x63])]
  length_header := rfl
  body := rfl
  records := rfl
  packs b hb := by
    have hone : b = (letterBlock, [0x61, 0x62, 0x63]) := by simpa using hb
    rw [hone]
    exact ⟨(), [], rfl, rfl, rfl⟩

theorem lettersStream_combine :
    Combine lettersLib.toLzmaIndexing (entries ([lettersStream].map BlockStream.part)) := by
  intro front back hsplit hlen
  have hone := congrArg List.length hsplit
  rw [List.length_append, length_entries] at hone
  change 1 = _ at hone
  omega

/-- There is the file of this stream. -/
def lettersFiles : FileSystem where
  contents path :=
    if path = "/d/abc.xz" then some (BlockStream.serialise [lettersStream]) else none
  writable _ := true

theorem serves_streams_letters : ∃ idx,
    new lettersLib 2 "/d/abc.xz".toList 100 lettersFiles = some
        (if (BlockStream.plains [lettersStream]).flatten = [] then
          .error (.runtime "no blocks in file?")
        else .ok (idx, (BlockStream.plains [lettersStream]).any
          fun plain => (2 : UInt64).toNat < plain.length)) ∧
      (CompFile.pixz idx).Serves (Gives letterLzma (String.ofList "/d/abc.xz".toList)
        ⟨String.ofList "/d/abc.xz".toList, BlockStream.serialise [lettersStream], 0⟩ idx)
          (BlockStream.plains [lettersStream]).flatten := by
  have hfile : lettersFiles.contents (String.ofList "/d/abc.xz".toList) =
      some (BlockStream.serialise [lettersStream]) := by decide
  exact serves_streams letterLzma_endsWithin (knownField_reports _ _ _) hfile rfl rfl
    lettersStream_combine (by decide) (by decide) (by decide)

end PixzFile

end Lzopfs
