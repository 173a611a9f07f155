import Lzopfs.LzopFile
import Mathlib.Data.List.Forall2

/-!
# The lzop format and its index

`Part` is what one lzop run writes: a header with any file name and any flags
the reader supports, and a list of blocks. `serialise` writes a part out, and
`index_serialise` shows that indexing a sequence of parts yields their blocks in
file order. On a file cut short the indexer follows the same path until it needs
a byte behind the cut, so it fails unless the cut is at a part's end marker.
-/

namespace Lzopfs

open Verify FileHandle

namespace LzopFile

/-- A block of a part, with all the checksums its header may hold. -/
structure PartBlock where
  usize : UInt32
  csize : UInt32
  decAdler : UInt32
  decCRC : UInt32
  compAdler : UInt32
  compCRC : UInt32
  payload : Buffer
  usize_ne_zero : usize ≠ 0
  payload_length : payload.length = csize.toNat

/-- One part of a file. `times` is the mode and the two halves of the mtime. -/
structure Part where
  lzopEncVers : UInt16
  lzoVers : UInt16
  lzopMinVers : UInt16
  method : UInt8
  level : UInt8
  flags : UInt32
  times : Buffer
  filename : Buffer
  extra : Buffer
  extraSum : UInt32
  blocks : List PartBlock
  minVers_le : lzopMinVers ≤ LzopDecodeVersion
  no_filter : flags &&& Filter = 0
  times_length : times.length = 12
  filename_length : filename.length < 2 ^ 8
  extra_length : extra.length < 2 ^ 32

/-- A checksum that is present if a flag is set. -/
def storedIf (flags flag sum : UInt32) : Buffer :=
  if flags &&& flag ≠ 0 then beBytes 4 sum.toNat else []

namespace PartBlock

/-- The checksums before the payload; a stored block has none of compressed data. -/
def sums (flags : UInt32) (b : PartBlock) : Buffer :=
  storedIf flags AdlerDec b.decAdler ++ storedIf flags CRCDec b.decCRC ++
    if b.usize ≠ b.csize then
      storedIf flags AdlerComp b.compAdler ++ storedIf flags CRCComp b.compCRC
    else []

def header (flags : UInt32) (b : PartBlock) : Buffer :=
  beBytes 4 b.usize.toNat ++ (beBytes 4 b.csize.toNat ++ b.sums flags)

def serialise (flags : UInt32) (b : PartBlock) : Buffer :=
  b.header flags ++ b.payload

theorem length_sums (flags : UInt32) (b : PartBlock) :
    (b.sums flags).length = blockSums flags b.usize b.csize := by
  have hstored : ∀ flag sum, (storedIf flags flag sum).length =
      (if flags &&& flag ≠ 0 then 1 else 0) * 4 := by
    intro flag sum
    rw [storedIf]
    split <;> simp
  rw [sums, blockSums, usums, csums]
  split <;> simp only [List.length_append, hstored, List.length_nil] <;> omega

theorem length_header (flags : UInt32) (b : PartBlock) :
    (b.header flags).length = 8 + blockSums flags b.usize b.csize := by
  simp only [header, List.length_append, length_beBytes, length_sums]
  omega

theorem length_serialise (flags : UInt32) (b : PartBlock) :
    (b.serialise flags).length = blockSums flags b.usize b.csize + b.csize.toNat + 8 := by
  rw [serialise, List.length_append, length_header, b.payload_length]
  omega

end PartBlock

namespace Part

/-- The header fields the header checksum covers. -/
def fields (p : Part) : Buffer :=
  beBytes 2 p.lzopEncVers.toNat ++ (beBytes 2 p.lzoVers.toNat ++ (beBytes 2 p.lzopMinVers.toNat ++
    (beBytes 1 p.method.toNat ++ (beBytes 1 p.level.toNat ++ (beBytes 4 p.flags.toNat ++
      (p.times ++ (beBytes 1 p.filename.length ++ p.filename)))))))

def extraField (p : Part) : Buffer :=
  if p.flags &&& ExtraField ≠ 0 then
    beBytes 4 p.extra.length ++ (p.extra ++ beBytes 4 p.extraSum.toNat)
  else []

def header (lzo : Lzo) (p : Part) : Buffer :=
  Magic ++ (p.fields ++ (beBytes 4 (checksum lzo (checksumType p.flags) p.fields).toNat ++
    p.extraField))

/-- The blocks and the end marker. -/
def body (p : Part) : Buffer :=
  p.blocks.flatMap (PartBlock.serialise p.flags) ++ beBytes 4 0

def serialise (lzo : Lzo) (p : Part) : Buffer :=
  p.header lzo ++ p.body

/-- The uncompressed size of a part. -/
def usize (p : Part) : Nat := (p.blocks.map fun b => b.usize.toNat).sum

end Part

/-- A whole file. -/
def serialise (lzo : Lzo) (parts : List Part) : Buffer :=
  parts.flatMap (Part.serialise lzo)

/-- The index entries of blocks that start at file offset `coff` and uncompressed
offset `uoff`: an entry points behind the header of its block. -/
def blocksFrom (flags : UInt32) : Nat → Nat → List PartBlock → List Block
  | _, _, [] => []
  | coff, uoff, b :: bs =>
      ⟨b.usize, b.csize, UInt64.ofNat uoff, UInt64.ofNat (coff + (b.header flags).length)⟩ ::
        blocksFrom flags (coff + (b.serialise flags).length) (uoff + b.usize.toNat) bs

/-- The index entries of a sequence of parts from file offset `coff` and
uncompressed offset `uoff` on. -/
def partsFrom (lzo : Lzo) : Nat → Nat → List Part → List Block
  | _, _, [] => []
  | coff, uoff, p :: ps =>
      blocksFrom p.flags (coff + (p.header lzo).length) uoff p.blocks ++
        partsFrom lzo (coff + (p.serialise lzo).length) (uoff + p.usize) ps

section Headers

variable {lzo : Lzo} {mPath : String} {p : Part} {fh : FileHandle} {tl : Buffer}

theorem run_doIf_seekBy (n : Nat) {c : Prop} [Decidable c] (hc : ¬ c → n = 0) :
    (doIf c (seekBy n)).run fh = .ok ((), fh.skip n) := by
  rw [doIf]
  split
  · exact run_seekBy n
  · rw [hc ‹_›]
    rfl

theorem run_readFields (hr : fh.rest = p.fields ++ tl) :
    (readFields mPath).run fh = .ok (p.flags, fh.skip p.fields.length) := by
  have hname : (UInt8.ofNat p.filename.length).toNat = p.filename.length := by
    rw [UInt8.toNat_ofNat']
    exact Nat.mod_eq_of_lt p.filename_length
  have hlen : p.fields.length = 25 + p.filename.length := by
    simp only [Part.fields, List.length_append, length_beBytes, p.times_length]
    omega
  have hvers : ¬ p.lzopMinVers > LzopDecodeVersion := by
    rw [gt_iff_lt, UInt16.not_lt]
    exact p.minVers_le
  simp only [Part.fields, List.append_assoc] at hr
  rw [← hname] at hr
  have h1 := rest_skip_append hr (length_beBytes _ _)
  have h2 := rest_skip_append h1 (length_beBytes _ _)
  have h3 := rest_skip_append h2 (length_beBytes _ _)
  have h4 := rest_skip_append h3 (length_beBytes _ _)
  have h5 := rest_skip_append h4 (length_beBytes _ _)
  have h6 := rest_skip_append h5 (length_beBytes _ _)
  have h7 := rest_skip_append h6 p.times_length
  have hzero : ¬ UInt8.ofNat p.filename.length > 0 → (UInt8.ofNat p.filename.length).toNat = 0 := by
    intro h
    rw [gt_iff_lt, UInt8.not_lt] at h
    exact Nat.le_zero.mp (UInt8.le_iff_toNat_le.mp h)
  rw [readFields, FileM.run_bind_ok (run_readBE16 hr), FileM.run_bind_ok (run_readBE16 h1),
    FileM.run_bind_ok (run_readBE16 h2), FileM.run_bind_ok (run_throwIf hvers),
    FileM.run_bind_ok (run_readBE8 h3), FileM.run_bind_ok (run_readBE8 h4),
    FileM.run_bind_ok (run_readBE32 h5), FileM.run_bind_ok (run_throwIf (by simp [p.no_filter])),
    FileM.run_bind_ok (run_seekBy _), FileM.run_bind_ok (run_readBE8 h7),
    FileM.run_bind_ok (run_doIf_seekBy _ hzero)]
  simp only [skip_skip, hname, hlen]
  rfl

theorem run_checkHeader (mPath : String)
    (hr : fh.rest = p.fields ++
      (beBytes 4 (checksum lzo (checksumType p.flags) p.fields).toNat ++ tl)) :
    (checkHeader lzo mPath p.flags fh.pos).run (fh.skip p.fields.length) =
      .ok ((), fh.skip (p.fields.length + 4)) := by
  have hne : p.fields ≠ [] := by
    apply List.ne_nil_of_length_pos
    simp [Part.fields]
  have hsize : (fh.skip p.fields.length).pos - fh.pos = p.fields.length := by
    rw [skip_pos]
    omega
  have h1 := rest_skip_append hr rfl
  have hck : ¬ checksum lzo (checksumType p.flags) p.fields ≠
      checksum lzo (checksumType p.flags) p.fields := by simp
  rw [checkHeader, FileM.run_bind_ok run_tell, FileM.run_bind_ok (run_seek_set fh.pos), hsize]
  change StateT.run _ fh = _
  rw [FileM.run_bind_ok (read_ok hne hr), FileM.run_bind_ok (run_readBE32 h1), run_throwIf hck,
    skip_skip]

theorem run_skipExtra (hr : fh.rest = p.extraField ++ tl) :
    (skipExtra p.flags).run fh = .ok ((), fh.skip p.extraField.length) := by
  rw [skipExtra, doIf]
  rw [Part.extraField] at hr ⊢
  split
  · rename_i hflag
    have hsize : (UInt32.ofNat p.extra.length).toNat = p.extra.length := by
      rw [UInt32.toNat_ofNat']
      exact Nat.mod_eq_of_lt p.extra_length
    rw [if_pos hflag, List.append_assoc, ← hsize] at hr
    rw [FileM.run_bind_ok (run_readBE32 hr), run_seekBy, skip_skip, hsize]
    simp only [List.length_append, length_beBytes]
  · rfl

theorem run_readHeaders (fh : FileHandle) (hr : fh.rest = p.header lzo ++ tl) :
    (readHeaders lzo mPath).run fh = .ok (p.flags, fh.skip (p.header lzo).length) := by
  have hlen : (p.header lzo).length =
      Magic.length + (p.fields.length + 4 + p.extraField.length) := by
    simp only [Part.header, List.length_append, length_beBytes]
    omega
  simp only [Part.header, List.append_assoc] at hr
  have h1 := rest_skip_append hr rfl
  have h2 : (fh.skip (Magic.length + (p.fields.length + 4))).rest = p.extraField ++ tl := by
    rw [← skip_skip, ← skip_skip]
    exact rest_skip_append (rest_skip_append h1 rfl) (length_beBytes _ _)
  have hcheck := run_checkHeader mPath h1
  rw [readHeaders]
  apply run_catchEOF
  rw [FileM.run_bind_ok (read_ok (by decide) hr), FileM.run_bind_ok (run_throwIf (by simp)),
    FileM.run_bind_ok run_tell, FileM.run_bind_ok (run_readFields h1), FileM.run_bind_ok hcheck,
    skip_skip, FileM.run_bind_ok (run_skipExtra h2), skip_skip, hlen, Nat.add_assoc,
    Nat.add_assoc]
  rfl

end Headers

section Blocks

variable {flags : UInt32} {fh : FileHandle} {tl : Buffer} {uoff : Nat} {mBlocks : List Block}

/-- One pass follows the header of one block and seeks over its payload. -/
theorem findBlocksLoop_block {b : PartBlock} (hr : fh.rest = b.serialise flags ++ tl) :
    ((findBlocksLoop flags).body (fh.pos, uoff, mBlocks)).run fh =
      .ok (.again ((fh.skip (b.serialise flags).length).pos, uoff + b.usize.toNat,
        mBlocks ++ [⟨b.usize, b.csize, UInt64.ofNat uoff,
          UInt64.ofNat (fh.pos + (b.header flags).length)⟩]),
        fh.skip (b.serialise flags).length) := by
  have hlen := b.length_serialise flags
  simp only [PartBlock.serialise, PartBlock.header, List.append_assoc] at hr
  have h1 := rest_skip_append hr (length_beBytes _ _)
  simp only [findBlocksLoop]
  rw [FileM.run_bind_ok (run_readBE32 hr), if_neg b.usize_ne_zero,
    FileM.run_bind_ok (run_readBE32 h1), FileM.run_bind_ok (run_seekBy _)]
  have hskip : 4 + (4 + (blockSums flags b.usize b.csize + b.csize.toNat)) =
      (b.serialise flags).length := by omega
  have hcoff : fh.pos + 8 + blockSums flags b.usize b.csize =
      fh.pos + (b.header flags).length := by
    rw [b.length_header]
    omega
  rw [skip_skip, skip_skip, hskip, hcoff, ← hlen]
  rfl

/-- The end marker of a part ends the loop. -/
theorem findBlocksLoop_end {coff : Nat} (hr : fh.rest = beBytes 4 0 ++ tl) :
    ((findBlocksLoop flags).body (coff, uoff, mBlocks)).run fh =
      .ok (.done (uoff, mBlocks), fh.skip 4) := by
  have hzero : fh.rest = beBytes 4 (0 : UInt32).toNat ++ tl := hr
  simp only [findBlocksLoop]
  rw [FileM.run_bind_ok (run_readBE32 hzero), if_pos rfl]
  rfl

/-- The blocks of a part are added in order, up to the end marker. -/
theorem findBlocksLoop_run (bs : List PartBlock)
    (hr : fh.rest = bs.flatMap (PartBlock.serialise flags) ++ (beBytes 4 0 ++ tl)) :
    ((findBlocksLoop flags).run (fh.pos, uoff, mBlocks)).run fh =
      .ok ((uoff + (bs.map fun b => b.usize.toNat).sum, mBlocks ++ blocksFrom flags fh.pos uoff bs),
        fh.skip ((bs.flatMap (PartBlock.serialise flags)).length + 4)) := by
  induction bs generalizing fh uoff mBlocks with
  | nil =>
      rw [FileLoop.run_done (findBlocksLoop_end hr)]
      simp [blocksFrom]
  | cons b bs ih =>
      rw [List.flatMap_cons, List.append_assoc] at hr
      rw [FileLoop.run_again (findBlocksLoop_block hr), ih (rest_skip_append hr rfl)]
      simp only [skip_skip, skip_pos, blocksFrom, List.flatMap_cons, List.length_append,
        List.map_cons, List.sum_cons, List.append_assoc, List.singleton_append, Nat.add_assoc]

theorem run_findBlocks {p : Part} (hf : p.flags = flags) (hr : fh.rest = p.body ++ tl) :
    (findBlocks flags uoff mBlocks).run fh =
      .ok ((uoff + p.usize, mBlocks ++ blocksFrom flags fh.pos uoff p.blocks),
        fh.skip p.body.length) := by
  subst hf
  rw [Part.body, List.append_assoc] at hr
  rw [findBlocks, FileM.run_bind_ok run_tell, findBlocksLoop_run p.blocks hr]
  simp [Part.usize, Part.body]

/-- A part that has been scanned ends inside the file: its end marker was read. -/
theorem findBlocks_inside (flags : UInt32) (uoff : Nat) (mBlocks : List Block) :
    Inside (findBlocks flags uoff mBlocks) := by
  refine Inside.bind fun coff => FileLoop.inside ?_ _
  intro s fh r g hb
  obtain ⟨usize, m, hread, hrest⟩ := FileM.of_run_bind_ok hb
  split at hrest
  · cases hrest
    exact Inside.readBE32 hread
  · obtain ⟨csize, m', hread', hseek⟩ := FileM.of_run_bind_ok hrest
    rw [FileM.run_bind_ok (run_seekBy _)] at hseek
    cases hseek

end Blocks

section Cuts

theorem readFields_cutStable (mPath : String) : CutStable (readFields mPath) :=
  CutStable.readBE16.bind fun _ => CutStable.readBE16.bind fun _ => CutStable.readBE16.bind fun _ =>
  (CutStable.throwIf _ _).bind fun _ => CutStable.readBE8.bind fun _ =>
  CutStable.readBE8.bind fun _ => CutStable.readBE32.bind fun _ =>
  (CutStable.throwIf _ _).bind fun _ => (CutStable.seekBy _).bind fun _ =>
  CutStable.readBE8.bind fun _ => (CutStable.doIf _ (CutStable.seekBy _)).bind fun _ =>
  CutStable.pure _

theorem checkHeader_cutStable (lzo : Lzo) (mPath : String) (flags : UInt32) (headerStart : Nat) :
    CutStable (checkHeader lzo mPath flags headerStart) :=
  CutStable.tell.bind fun _ => (CutStable.seek_set _).bind fun _ => (CutStable.read _).bind fun _ =>
  CutStable.readBE32.bind fun _ => CutStable.throwIf _ _

theorem skipExtra_cutStable (flags : UInt32) : CutStable (skipExtra flags) :=
  CutStable.doIf _ (CutStable.readBE32.bind fun _ => CutStable.seekBy _)

theorem readHeaders_cutStable (lzo : Lzo) (mPath : String) : CutStable (readHeaders lzo mPath) :=
  CutStable.catchEOF ((CutStable.read _).bind fun _ => (CutStable.throwIf _ _).bind fun _ =>
    CutStable.tell.bind fun _ => (readFields_cutStable mPath).bind fun _ =>
    (checkHeader_cutStable _ _ _ _).bind fun _ => (skipExtra_cutStable _).bind fun _ =>
    CutStable.pure _) _

theorem findBlocks_cutStable (flags : UInt32) (uoff : Nat) (mBlocks : List Block) :
    CutStable (findBlocks flags uoff mBlocks) :=
  CutStable.tell.bind fun _ => FileLoop.cutStable (fun _ =>
    CutStable.readBE32.bind fun _ => CutStable.ite (CutStable.pure _)
      (CutStable.readBE32.bind fun _ => (CutStable.seekBy _).bind fun _ => CutStable.pure _)) _

end Cuts

section Index

variable {lzo : Lzo} {mPath : String} {fh : FileHandle} {uoff k : Nat} {mBlocks : List Block}

/-- From the blocks of a part on, the index collects the blocks of all the parts
that follow. -/
theorem buildIndexLoop_run (mPath : String) (uoff : Nat) (mBlocks : List Block) (p : Part)
    (ps : List Part)
    (hr : fh.rest = p.body ++ serialise lzo ps) :
    ((buildIndexLoop lzo mPath fh.data.length).run (p.flags, uoff, mBlocks)).run fh =
      .ok (mBlocks ++ blocksFrom p.flags fh.pos uoff p.blocks ++
        partsFrom lzo (fh.pos + p.body.length) (uoff + p.usize) ps,
        fh.skip (p.body ++ serialise lzo ps).length) := by
  induction ps generalizing fh uoff mBlocks p with
  | nil =>
      have hend : fh.pos + p.body.length ≥ fh.data.length := by
        have := congrArg List.length hr
        rw [length_rest, remaining] at this
        simp only [serialise, List.flatMap_nil, List.append_nil] at this
        omega
      have hbody :
        ((buildIndexLoop lzo mPath fh.data.length).body (p.flags, uoff, mBlocks)).run fh =
          .ok (.done (mBlocks ++ blocksFrom p.flags fh.pos uoff p.blocks),
            fh.skip p.body.length) := by
        simp only [buildIndexLoop]
        rw [FileM.run_bind_ok (run_findBlocks rfl hr), FileM.run_bind_ok run_tell, skip_pos,
          if_pos hend]
        rfl
      rw [FileLoop.run_done hbody]
      simp [partsFrom, serialise]
  | cons q qs ih =>
      have hnext := rest_skip_append hr rfl
      rw [serialise, List.flatMap_cons, Part.serialise, List.append_assoc] at hnext
      have hmore : ¬ fh.pos + p.body.length ≥ fh.data.length := by
        have := congrArg List.length hr
        rw [length_rest, remaining] at this
        simp only [serialise, List.flatMap_cons, Part.serialise, Part.header, List.length_append,
          Magic, List.length_cons] at this
        omega
      have hbody :
        ((buildIndexLoop lzo mPath fh.data.length).body (p.flags, uoff, mBlocks)).run fh =
          .ok (.again (q.flags, uoff + p.usize,
            mBlocks ++ blocksFrom p.flags fh.pos uoff p.blocks),
            (fh.skip p.body.length).skip (q.header lzo).length) := by
        simp only [buildIndexLoop]
        rw [FileM.run_bind_ok (run_findBlocks rfl hr), FileM.run_bind_ok run_tell, skip_pos,
          if_neg hmore, FileM.run_bind_ok (run_readHeaders _ hnext)]
        rfl
      have hrest := ih (uoff + p.usize) (mBlocks ++ blocksFrom p.flags fh.pos uoff p.blocks) q
        (rest_skip_append hnext rfl)
      rw [FileLoop.run_again hbody]
      simp only [skip_data] at hrest
      rw [hrest]
      simp only [skip_skip, skip_pos, partsFrom, Part.serialise, serialise, List.flatMap_cons,
        List.length_append, List.append_assoc, Nat.add_assoc]

/-- On a file cut inside one of the parts the loop does not return. -/
theorem buildIndexLoop_cut (mPath : String) (uoff : Nat) (mBlocks : List Block) (p : Part)
    (ps : List Part)
    (hr : fh.rest = p.body ++ serialise lzo ps) (hk : k < fh.data.length)
    (hcut : ∀ j, k ≠ fh.pos + (p.body ++ serialise lzo (ps.take j)).length) :
    ∃ e, ((buildIndexLoop lzo mPath k).run (p.flags, uoff, mBlocks)).run (fh.cut k) =
      .error e := by
  induction ps generalizing fh uoff mBlocks p with
  | nil =>
      obtain hok | ⟨e, he⟩ := findBlocks_cutStable _ _ _ (run_findBlocks rfl hr) k
      · have hle := findBlocks_inside _ _ _ hok
        rw [length_cut_data] at hle
        have := congrArg List.length hr
        rw [length_rest, remaining] at this
        simp only [serialise, List.flatMap_nil, List.append_nil, cut_pos, skip_pos] at this hle
        omega
      · exact ⟨e, FileLoop.run_error (FileM.run_bind_error he)⟩
  | cons q qs ih =>
      obtain hok | ⟨e, he⟩ := findBlocks_cutStable _ _ _ (run_findBlocks rfl hr) k
      · have hle := findBlocks_inside _ _ _ hok
        rw [length_cut_data] at hle
        have hne := hcut 0
        simp only [List.take_zero, serialise, List.flatMap_nil, List.append_nil, cut_pos,
          skip_pos] at hle hne
        have hmore : ¬ ((fh.skip p.body.length).cut k).pos ≥ k := by
          rw [cut_pos, skip_pos]
          omega
        have hnext := rest_skip_append hr rfl
        rw [serialise, List.flatMap_cons, Part.serialise, List.append_assoc] at hnext
        obtain hok' | ⟨e, he⟩ := readHeaders_cutStable lzo mPath (run_readHeaders _ hnext) k
        · have hbody : ((buildIndexLoop lzo mPath k).body (p.flags, uoff, mBlocks)).run (fh.cut k) =
              .ok (.again (q.flags, uoff + p.usize,
                mBlocks ++ blocksFrom p.flags fh.pos uoff p.blocks),
                ((fh.skip p.body.length).skip (q.header lzo).length).cut k) := by
            simp only [buildIndexLoop]
            rw [FileM.run_bind_ok hok, FileM.run_bind_ok run_tell, if_neg hmore,
              FileM.run_bind_ok hok']
            rfl
          rw [FileLoop.run_again hbody]
          refine ih _ _ q (rest_skip_append hnext rfl) hk ?_
          intro j
          have := hcut (j + 1)
          simp only [List.take_succ_cons, serialise, List.flatMap_cons, Part.serialise,
            List.length_append, skip_pos] at this ⊢
          omega
        · refine ⟨e, FileLoop.run_error ?_⟩
          simp only [buildIndexLoop]
          rw [FileM.run_bind_ok hok, FileM.run_bind_ok run_tell, if_neg hmore,
            FileM.run_bind_error he]
      · exact ⟨e, FileLoop.run_error (FileM.run_bind_error he)⟩

end Index

section Entries

open BlockListCompFile

/-- An index entry describes a block of the file: it has its sizes, and `coff`
is the offset of its payload. -/
def Describes (data : Buffer) (e : Block) (b : PartBlock) : Prop :=
  e.usize = b.usize ∧ e.csize = b.csize ∧
    ∃ front back, data = front ++ (b.payload ++ back) ∧ e.coff = UInt64.ofNat front.length

theorem blocksFrom_describes {flags : UInt32} {data front : Buffer} {uoff : Nat}
    (back : Buffer) (bs : List PartBlock)
    (hd : data = front ++ (bs.flatMap (PartBlock.serialise flags) ++ back)) :
    List.Forall₂ (Describes data) (blocksFrom flags front.length uoff bs) bs := by
  induction bs generalizing front uoff with
  | nil => exact .nil
  | cons b bs ih =>
      simp only [List.flatMap_cons, List.append_assoc] at hd
      refine .cons ⟨rfl, rfl, front ++ b.header flags,
        bs.flatMap (PartBlock.serialise flags) ++ back, ?_, ?_⟩ ?_
      · rw [hd]
        simp only [PartBlock.serialise, List.append_assoc]
      · rw [List.length_append]
      · rw [← List.length_append]
        exact ih (by rw [hd, List.append_assoc])

theorem partsFrom_describes {lzo : Lzo} {data : Buffer} {uoff : Nat} (front : Buffer)
    (ps : List Part)
    (hd : data = front ++ serialise lzo ps) :
    List.Forall₂ (Describes data) (partsFrom lzo front.length uoff ps)
      (ps.flatMap Part.blocks) := by
  induction ps generalizing front uoff with
  | nil => exact .nil
  | cons p ps ih =>
      simp only [serialise, List.flatMap_cons] at hd
      refine List.rel_append ?_ ?_
      · rw [← List.length_append]
        refine blocksFrom_describes (beBytes 4 0 ++ serialise lzo ps) p.blocks ?_
        rw [hd]
        simp only [Part.serialise, Part.body, serialise, List.append_assoc]
      · rw [← List.length_append]
        exact ih _ (by rw [hd, List.append_assoc]; rfl)

theorem blocksFrom_contiguous (flags : UInt32) (coff uoff : Nat) (bs : List PartBlock) :
    Contiguous (UInt64.ofNat uoff) (blocksFrom flags coff uoff bs) := by
  induction bs generalizing coff uoff with
  | nil => trivial
  | cons b bs ih =>
      refine ⟨rfl, ?_⟩
      have := ih (coff + (b.serialise flags).length) (uoff + b.usize.toNat)
      rwa [UInt64.ofNat_add, UInt64.ofNat_uInt32ToNat] at this

theorem blocksFrom_usize (flags : UInt32) (coff uoff : Nat) (bs : List PartBlock) :
    ((blocksFrom flags coff uoff bs).map fun b => b.usize.toUInt64).sum =
      UInt64.ofNat (bs.map fun b => b.usize.toNat).sum := by
  induction bs generalizing coff uoff with
  | nil => rfl
  | cons b bs ih =>
      simp only [blocksFrom, List.map_cons, List.sum_cons, ih, UInt64.ofNat_add,
        UInt64.ofNat_uInt32ToNat]

theorem partsFrom_contiguous (lzo : Lzo) (coff uoff : Nat) (ps : List Part) :
    Contiguous (UInt64.ofNat uoff) (partsFrom lzo coff uoff ps) := by
  induction ps generalizing coff uoff with
  | nil => trivial
  | cons p ps ih =>
      refine contiguous_append.mpr ⟨blocksFrom_contiguous _ _ _ _, ?_⟩
      rw [blocksFrom_usize, ← UInt64.ofNat_add]
      exact ih _ _

/-- Indexing a file of one or more parts yields exactly their blocks in file order,
each with its sizes, with `uoff` the sum of the sizes before it and with `coff`
the offset of its payload, which the entries of the parts say exactly. A file that ends
before the last part's end marker, and not at the end marker of another part, is not
indexed at all. -/
theorem index_serialise (lzo : Lzo) (mPath : String) (p : Part) (ps : List Part) :
    let data := serialise lzo (p :: ps)
    (∃ blocks fh, (index lzo mPath).run ⟨mPath, data, 0⟩ = .ok (blocks, fh) ∧
      blocks = partsFrom lzo 0 0 (p :: ps) ∧
      List.Forall₂ (Describes data) blocks ((p :: ps).flatMap Part.blocks) ∧
      Contiguous 0 blocks) ∧
    ∀ k < data.length, (∀ j, k ≠ (serialise lzo ((p :: ps).take (j + 1))).length) →
      ∃ e, (index lzo mPath).run ⟨mPath, data.take k, 0⟩ = .error e := by
  intro data
  have hdata : data = p.header lzo ++ (p.body ++ serialise lzo ps) := by
    simp only [data, serialise, List.flatMap_cons, Part.serialise, List.append_assoc]
  have hhead : (checkFileType lzo mPath).run ⟨mPath, data, 0⟩ =
      .ok (p.flags, (FileHandle.mk mPath data 0).skip (p.header lzo).length) :=
    run_readHeaders ⟨mPath, data, 0⟩ hdata
  have hbody : ((FileHandle.mk mPath data 0).skip (p.header lzo).length).rest =
      p.body ++ serialise lzo ps := rest_skip_append (n := (p.header lzo).length) hdata rfl
  have hloop := buildIndexLoop_run mPath 0 [] p ps hbody
  have hlast : ((FileHandle.mk mPath data 0).skip (p.header lzo).length).skip
      (p.body ++ serialise lzo ps).length = ⟨mPath, data, data.length⟩ := by
    simp only [hdata, skip, List.length_append, Nat.zero_add]
  refine ⟨⟨partsFrom lzo 0 0 (p :: ps), ⟨mPath, data, data.length⟩, ?_, rfl, ?_, ?_⟩, ?_⟩
  · rw [← hlast, index, FileM.run_bind_ok hhead, buildIndex, FileM.run_bind_ok run_size, hloop]
    simp only [List.nil_append, skip_pos, partsFrom, Nat.zero_add, Part.serialise,
      List.length_append]
  · exact partsFrom_describes [] (p :: ps) rfl
  · exact partsFrom_contiguous lzo 0 0 (p :: ps)
  · intro k hk hcut
    obtain hok | ⟨e, he⟩ := readHeaders_cutStable lzo mPath hhead k
    · have hsize : ((FileHandle.mk mPath data 0).skip (p.header lzo).length |>.cut k).data.length
          = k := by
        rw [length_cut_data]
        exact Nat.min_eq_left (Nat.le_of_lt hk)
      obtain ⟨e, he⟩ := buildIndexLoop_cut mPath 0 []
        p ps hbody hk (by
          intro j
          have := hcut j
          simp only [List.take_succ_cons, serialise, List.flatMap_cons, Part.serialise,
            List.length_append, skip_pos] at this ⊢
          omega)
      refine ⟨e, ?_⟩
      change (index lzo mPath).run ((FileHandle.mk mPath data 0).cut k) = _
      rw [index, checkFileType, FileM.run_bind_ok hok, buildIndex, FileM.run_bind_ok run_size,
        hsize, he]
    · exact ⟨e, FileM.run_bind_error he⟩

/-- A part without a name that stores the two bytes of one block with an Adler
checksum of them. -/
def storedPart : Part where
  lzopEncVers := 0x1030
  lzoVers := 0x2060
  lzopMinVers := 0x0940
  method := 1
  level := 5
  flags := AdlerDec
  times := List.replicate 12 0
  filename := []
  extra := []
  extraSum := 0
  blocks := [⟨2, 2, 0x013b00d2, 0, 0, 0, [0x68, 0x69], by decide, by decide⟩]
  minVers_le := by decide
  no_filter := by decide
  times_length := by decide
  filename_length := by decide
  extra_length := by decide

/-- A file that ends inside the payload of its only block. -/
theorem index_storedPart_cut :
    ∃ e, (index ⟨fun _ _ => 0, fun _ _ => 0⟩ "hi.lzo").run ⟨"hi.lzo",
      (serialise ⟨fun _ _ => 0, fun _ _ => 0⟩ [storedPart]).take 51, 0⟩ = .error e := by
  refine (index_serialise ⟨fun _ _ => 0, fun _ _ => 0⟩ "hi.lzo" storedPart []).2 51 (by decide) ?_
  intro j
  rw [List.take_succ_cons, List.take_nil]
  decide

end Entries

end LzopFile

end Lzopfs
