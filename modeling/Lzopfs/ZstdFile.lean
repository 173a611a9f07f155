import Lzopfs.CompressedFile
import Mathlib.Algebra.Group.Action.Defs
import Mathlib.Algebra.Order.BigOperators.Group.List

/-!
# Zstd files

The sizes of the frames of a seekable zstd file stand in a seek table, itself a skippable
frame at the end of the file. Its footer comes last and holds the number of entries and
a flag that tells how long an entry is: the start of the table is computed backwards
from there, in unsigned arithmetic, and the frame header in front of it has to agree.
-/

namespace Lzopfs

open Verify FileHandle

namespace ZstdFile

def MagicSkippable : UInt32 := 0x184D2A5E
def MagicSeekTable : UInt32 := 0x8F92EAB1
def FooterSize : Nat := 9
def TableOverhead : UInt64 := 8
def ChecksumFlag : UInt8 := (1 : UInt8) <<< 7

/-- `ZSTD_MAGICNUMBER` -/
def ZSTD_MAGICNUMBER : UInt32 := 0xFD2FB528

structure SeekTableInfo where
  start : UInt64
  hasChecksums : Bool
  count : UInt32

namespace SeekTableInfo

def entrySize (info : SeekTableInfo) : UInt64 := 8 + if info.hasChecksums then 4 else 0

def totalSize (info : SeekTableInfo) : UInt64 := info.entrySize * info.count.toUInt64

end SeekTableInfo

def findSeekTable : FileM SeekTableInfo := do
  let footerOffset ← seek (-FooterSize) .end
  let count ← readLE32
  let flags ← readLE8
  let magic ← readLE32
  throwIf (magic ≠ MagicSeekTable) (.runtime "no seek table")
  let info : SeekTableInfo := ⟨0, flags &&& ChecksumFlag ≠ 0, count⟩
  let info := { info with start := UInt64.ofNat footerOffset - info.totalSize }
  let _ ← seek (toOff (info.start - TableOverhead)) .set
  let tableMagic ← readLE32
  let frameSize ← readLE32
  throwIf (tableMagic ≠ MagicSkippable) (.runtime "bad skippable table magic")
  throwIf (frameSize.toUInt64 ≠ info.totalSize + UInt64.ofNat FooterSize)
    (.runtime "bad frame size")
  return info

def checkFileType (mPath : String) : FileM Unit := do
  let magic ← readLE32
  throwIf (magic ≠ ZSTD_MAGICNUMBER) (.format mPath "magic mismatch")
  let _ ← findSeekTable

/-- Read that many entries of the table. -/
def addBlocks (hasChecksums : Bool) : Nat → UInt64 → UInt64 → List Block → FileM (List Block)
  | 0, _, _, mBlocks => return mBlocks
  | n + 1, uoff, coff, mBlocks => do
      let csize ← readLE32
      let usize ← readLE32
      doIf hasChecksums do
        let _checksum ← readLE32
      addBlocks hasChecksums n (uoff + usize.toUInt64) (coff + csize.toUInt64)
        (mBlocks ++ [⟨usize, csize, uoff, coff⟩])

def buildIndex (mBlocks : List Block) : FileM (List Block) := do
  let info ← findSeekTable
  let _ ← seek (toOff info.start) .set
  addBlocks info.hasChecksums info.count.toNat 0 0 mBlocks

/-- An entry; the checksum counts only in tables with checksums. -/
structure Entry where
  csize : UInt32
  usize : UInt32
  checksum : UInt32

def Entry.serialise (hasChecksums : Bool) (e : Entry) : Buffer :=
  leBytes 4 e.csize.toNat ++ (leBytes 4 e.usize.toNat ++
    if hasChecksums then leBytes 4 e.checksum.toNat else [])

/-- The flag of a footer that tells of checksums. -/
def checksums (flags : UInt8) : Bool := flags &&& ChecksumFlag ≠ 0

def table (flags : UInt8) (entries : List Entry) : Buffer :=
  entries.flatMap (Entry.serialise (checksums flags))

def footer (flags : UInt8) (count : Nat) : Buffer :=
  leBytes 4 count ++ (leBytes 1 flags.toNat ++ leBytes 4 MagicSeekTable.toNat)

/-- The skippable frame that holds a seek table. -/
def frame (flags : UInt8) (entries : List Entry) : Buffer :=
  leBytes 4 MagicSkippable.toNat ++ (leBytes 4 ((table flags entries).length + FooterSize) ++
    (table flags entries ++ footer flags entries.length))

variable {fh g : FileHandle} {flags : UInt8} {entries : List Entry} {tl : Buffer}

theorem length_serialise (hasChecksums : Bool) (e : Entry) :
    (e.serialise hasChecksums).length = 8 + if hasChecksums then 4 else 0 := by
  cases hasChecksums <;> simp [Entry.serialise]

theorem length_table (flags : UInt8) (entries : List Entry) :
    (table flags entries).length = (8 + if checksums flags then 4 else 0) * entries.length := by
  induction entries with
  | nil => rfl
  | cons e entries ih =>
      rw [table, List.flatMap_cons, List.length_append, length_serialise, List.length_cons,
        Nat.mul_succ, Nat.add_comm]
      rw [table] at ih
      rw [ih]

theorem length_footer (flags : UInt8) (count : Nat) : (footer flags count).length = FooterSize := by
  simp [footer, FooterSize]

theorem entries_lt (hfit : (table flags entries).length + FooterSize < 2 ^ 32) :
    entries.length < 2 ^ 32 := by
  have htable := length_table flags entries
  split at htable <;> omega

theorem length_frame {front data : Buffer} (h : data = front ++ frame flags entries) :
    data.length = front.length + 8 + (table flags entries).length + FooterSize := by
  rw [h, frame]
  simp only [List.length_append, length_leBytes, length_footer]
  omega

/-- Any bytes of the right number are entries. -/
theorem exists_entries (flags : UInt8) (n : Nat) {bs : Buffer}
    (h : bs.length = (8 + if checksums flags then 4 else 0) * n) :
    ∃ entries : List Entry, entries.length = n ∧ bs = table flags entries := by
  have hword : ∀ bs : Buffer, 4 ≤ bs.length →
      ∃ (w : UInt32) (rest : Buffer),
        bs = leBytes 4 w.toNat ++ rest ∧ rest.length + 4 = bs.length := by
    intro bs hle
    have hlen : (bs.take 4).length = 4 := by
      rw [List.length_take]
      omega
    have hlt := ofLE_lt (bs.take 4)
    have hback := leBytes_ofLE (bs.take 4)
    rw [hlen] at hlt hback
    refine ⟨UInt32.ofNat (ofLE (bs.take 4)), bs.drop 4, ?_, ?_⟩
    · have hmod : ofLE (bs.take 4) % 2 ^ 32 = ofLE (bs.take 4) := by omega
      rw [UInt32.toNat_ofNat', hmod, hback, List.take_append_drop]
    · rw [List.length_drop]
      omega
  induction n generalizing bs with
  | zero =>
      refine ⟨[], rfl, ?_⟩
      exact List.eq_nil_of_length_eq_zero (by simpa using h)
  | succ n ih =>
      rw [Nat.mul_succ] at h
      obtain ⟨csize, bs₁, rfl, h₁⟩ := hword bs (by omega)
      obtain ⟨usize, bs₂, rfl, h₂⟩ := hword bs₁ (by omega)
      by_cases hc : checksums flags = true
      · rw [if_pos hc] at h ih
        obtain ⟨checksum, bs₃, rfl, h₃⟩ := hword bs₂ (by omega)
        obtain ⟨entries, rfl, rfl⟩ := ih (show bs₃.length = _ by omega)
        refine ⟨⟨csize, usize, checksum⟩ :: entries, rfl, ?_⟩
        simp only [table, List.flatMap_cons, Entry.serialise, if_pos hc, List.append_assoc]
      · rw [if_neg hc] at h ih
        obtain ⟨entries, rfl, rfl⟩ := ih (show bs₂.length = _ by omega)
        refine ⟨⟨csize, usize, 0⟩ :: entries, rfl, ?_⟩
        simp only [table, List.flatMap_cons, Entry.serialise, if_neg hc, List.append_assoc,
          List.nil_append]

/-- The size of a table is computed without overflow. -/
theorem toNat_totalSize (info : SeekTableInfo) : info.totalSize.toNat =
    (8 + if info.hasChecksums then 4 else 0) * info.count.toNat := by
  have hcount := info.count.toNat_lt
  rw [SeekTableInfo.totalSize, UInt64.toNat_mul, UInt32.toNat_toUInt64]
  cases hc : info.hasChecksums with
  | false =>
      have hentry : info.entrySize.toNat = 8 := by
        rw [SeekTableInfo.entrySize, hc]
        rfl
      rw [hentry]
      simp only [Bool.false_eq_true, if_false]
      omega
  | true =>
      have hentry : info.entrySize.toNat = 12 := by
        rw [SeekTableInfo.entrySize, hc]
        rfl
      rw [hentry]
      simp only [if_true]
      omega

/-- A seek to a difference of unsigned numbers only succeeds where nothing wraps around:
a wrapped difference is negative as an `off_t`. -/
theorem seek_difference {footerOffset p : Nat} {total : UInt64} (hfoot : footerOffset < 2 ^ 63)
    (htotal : total.toNat < 2 ^ 62)
    (h : toOff (UInt64.ofNat footerOffset - total - TableOverhead) = (p : Int)) :
    footerOffset = p + 8 + total.toNat := by
  have hover : TableOverhead.toNat = 8 := rfl
  have hof : (UInt64.ofNat footerOffset).toNat = footerOffset := by
    rw [UInt64.toNat_ofNat']
    omega
  rw [toOff, UInt64.toNat_sub, UInt64.toNat_sub, hof, hover] at h
  split at h <;> omega

/-- The size of the table as the footer tells it. -/
def footerTotal (flags : UInt8) (count : UInt32) : UInt64 :=
  SeekTableInfo.totalSize ⟨0, checksums flags, count⟩

/-- What is read and checked before a seek table is accepted. -/
theorem findSeekTable_ok {info : SeekTableInfo} (h : findSeekTable.run fh = .ok (info, g)) :
    ∃ footerOffset count flags p frameSize, footerOffset + FooterSize = fh.data.length ∧
      fh.data.drop footerOffset = footer flags (UInt32.toNat count) ∧
      toOff (UInt64.ofNat footerOffset - footerTotal flags count - TableOverhead) =
        ((p : Nat) : Int) ∧
      fh.data.drop p = leBytes 4 MagicSkippable.toNat ++
        (leBytes 4 (UInt32.toNat frameSize) ++ fh.data.drop (p + 8)) ∧
      frameSize.toUInt64 = footerTotal flags count + UInt64.ofNat FooterSize ∧
      info = ⟨UInt64.ofNat footerOffset - footerTotal flags count, checksums flags, count⟩ := by
  obtain ⟨footerOffset, f₁, hseek, h⟩ := FileM.of_run_bind_ok h
  obtain ⟨count, f₂, hcount, h⟩ := FileM.of_run_bind_ok h
  obtain ⟨flags, f₃, hflags, h⟩ := FileM.of_run_bind_ok h
  obtain ⟨magic, f₄, hmagic, h⟩ := FileM.of_run_bind_ok h
  obtain ⟨_, f₅, hthrow, h⟩ := FileM.of_run_bind_ok h
  obtain ⟨p, f₆, hseek', h⟩ := FileM.of_run_bind_ok h
  obtain ⟨tableMagic, f₇, htable, h⟩ := FileM.of_run_bind_ok h
  obtain ⟨frameSize, f₈, hframe, h⟩ := FileM.of_run_bind_ok h
  obtain ⟨_, f₉, hthrow', h⟩ := FileM.of_run_bind_ok h
  obtain ⟨_, f₁₀, hthrow'', h⟩ := FileM.of_run_bind_ok h
  cases h
  obtain ⟨hend, rfl⟩ := (run_seek_iff rfl).mp hseek
  obtain ⟨hr₁, rfl⟩ := run_readLE32_iff.mp hcount
  obtain ⟨hr₂, rfl⟩ := run_readLE8_iff.mp hflags
  obtain ⟨hr₃, rfl⟩ := run_readLE32_iff.mp hmagic
  obtain ⟨hmagic_eq, rfl⟩ := of_throwIf_ok hthrow
  obtain ⟨hstart, rfl⟩ := (run_seek_iff rfl).mp hseek'
  obtain ⟨hr₄, rfl⟩ := run_readLE32_iff.mp htable
  obtain ⟨hr₅, rfl⟩ := run_readLE32_iff.mp hframe
  obtain ⟨htable_eq, rfl⟩ := of_throwIf_ok hthrow'
  obtain ⟨hsize_eq, -⟩ := of_throwIf_ok hthrow''
  have hlength : footerOffset + FooterSize = fh.data.length := by
    simp only at hend
    omega
  refine ⟨footerOffset, count, flags, p, frameSize, hlength, ?_, ?_, ?_, ?_, rfl⟩
  · have hnone : (((FileHandle.mk fh.path fh.data footerOffset).skip 4).skip 1 |>.skip 4).rest =
        [] := by
      show fh.data.drop (footerOffset + FooterSize) = []
      rw [hlength, List.drop_length]
    rw [not_not.mp hmagic_eq, hnone, List.append_nil] at hr₃
    rw [hr₂, hr₃] at hr₁
    exact hr₁
  · rw [Int.zero_add] at hstart
    exact hstart
  · rw [not_not.mp htable_eq] at hr₄
    rw [hr₅] at hr₄
    exact hr₄
  · exact not_not.mp hsize_eq

theorem toNat_footerTotal (flags : UInt8) (count : UInt32) :
    (footerTotal flags count).toNat = (8 + if checksums flags then 4 else 0) * count.toNat :=
  toNat_totalSize _

theorem footerTotal_lt (flags : UInt8) (count : UInt32) :
    (footerTotal flags count).toNat < 2 ^ 62 := by
  have hcount := count.toNat_lt
  rw [toNat_footerTotal]
  split <;> omega

/-- A seek table that is found is a frame at the end of the file. -/
theorem findSeekTable_sound {info : SeekTableInfo} (hlen : fh.data.length < 2 ^ 63)
    (h : findSeekTable.run fh = .ok (info, g)) : ∃ front flags entries,
      fh.data = front ++ frame flags entries ∧
        (table flags entries).length + FooterSize < 2 ^ 32 ∧
        info = ⟨UInt64.ofNat (front.length + 8), checksums flags, UInt32.ofNat entries.length⟩ := by
  obtain
      ⟨footerOffset, count, flags, p, frameSize, hlength, hfooter, hstart, hheader, hsize, rfl⟩ :=
    findSeekTable_ok h
  have hnine : FooterSize = 9 := rfl
  have hpos := seek_difference (by omega) (footerTotal_lt flags count) hstart
  have htotal := toNat_footerTotal flags count
  have hlt := frameSize.toNat_lt
  have hframe : frameSize.toNat = (footerTotal flags count).toNat + FooterSize := by
    have hnat := congrArg UInt64.toNat hsize
    have hfit := footerTotal_lt flags count
    rw [UInt32.toNat_toUInt64, UInt64.toNat_add, hnine] at hnat
    have hof : (UInt64.ofNat 9).toNat = 9 := rfl
    omega
  -- The table lies between the header of the frame and the footer.
  have htable : ((fh.data.drop (p + 8)).take (footerTotal flags count).toNat).length =
      (footerTotal flags count).toNat := by
    rw [List.length_take, List.length_drop]
    omega
  obtain ⟨entries, hentries, heq⟩ := exists_entries flags count.toNat (htable.trans htotal)
  have hrest : fh.data.drop (p + 8) = table flags entries ++ footer flags entries.length := by
    have hdrop : fh.data.drop footerOffset =
        (fh.data.drop (p + 8)).drop (footerTotal flags count).toNat := by
      rw [List.drop_drop, hpos]
    rw [← heq, hentries, ← hfooter, hdrop, List.take_append_drop]
  have hlentable : (table flags entries).length = (footerTotal flags count).toNat := by
    rw [← heq, htable]
  refine ⟨fh.data.take p, flags, entries, ?_, by omega, ?_⟩
  · rw [frame, hlentable, ← hframe, ← hrest, ← hheader, List.take_append_drop]
  · have hfront : (fh.data.take p).length = p := by
      rw [List.length_take]
      omega
    rw [hfront, hentries, UInt32.ofNat_toNat]
    congr 1
    apply UInt64.toNat_inj.mp
    have hfit := footerTotal_lt flags count
    rw [UInt64.toNat_sub, UInt64.toNat_ofNat', UInt64.toNat_ofNat']
    omega

theorem run_readLE32 {v : UInt32} (hr : fh.rest = leBytes 4 v.toNat ++ tl) :
    readLE32.run fh = .ok (v, fh.skip 4) ∧ (fh.skip 4).rest = tl := by
  have hrest := rest_skip_append hr (length_leBytes _ _)
  exact ⟨run_readLE32_iff.mpr ⟨by rw [hrest, hr], rfl⟩, hrest⟩

theorem run_readLE8 {v : UInt8} (hr : fh.rest = leBytes 1 v.toNat ++ tl) :
    readLE8.run fh = .ok (v, fh.skip 1) ∧ (fh.skip 1).rest = tl := by
  have hrest := rest_skip_append hr (length_leBytes _ _)
  exact ⟨run_readLE8_iff.mpr ⟨by rw [hrest, hr], rfl⟩, hrest⟩

/-- A frame at the end of the file is found. -/
theorem findSeekTable_complete {front : Buffer} (hlen : fh.data.length < 2 ^ 63)
    (hfit : (table flags entries).length + FooterSize < 2 ^ 32)
    (hdata : fh.data = front ++ frame flags entries) :
    findSeekTable.run fh = .ok (⟨UInt64.ofNat (front.length + 8), checksums flags,
      UInt32.ofNat entries.length⟩, { fh with pos := front.length + 8 }) := by
  have hnine : FooterSize = 9 := rfl
  have htable := length_table flags entries
  have hentries := entries_lt hfit
  have hcount : (UInt32.ofNat entries.length).toNat = entries.length := by
    rw [UInt32.toNat_ofNat', Nat.mod_eq_of_lt hentries]
  have htotal : (footerTotal flags (UInt32.ofNat entries.length)).toNat =
      (table flags entries).length := by
    rw [toNat_footerTotal, hcount, htable]
  have hsizes := length_frame hdata
  -- The footer.
  have hseek : (seek (-FooterSize) .end).run fh =
      .ok (front.length + 8 + (table flags entries).length,
        { fh with pos := front.length + 8 + (table flags entries).length }) :=
    (run_seek_iff rfl).mpr ⟨by simp only; omega, rfl⟩
  have hfooter : (FileHandle.mk fh.path fh.data
      (front.length + 8 + (table flags entries).length)).rest =
        leBytes 4 (UInt32.ofNat entries.length).toNat ++ (leBytes 1 flags.toNat ++
          (leBytes 4 MagicSeekTable.toNat ++ [])) := by
    have hsplit : fh.data = (front ++ (leBytes 4 MagicSkippable.toNat ++
        (leBytes 4 ((table flags entries).length + FooterSize) ++ table flags entries))) ++
          footer flags entries.length := by
      rw [hdata, frame]
      simp only [List.append_assoc]
    rw [hcount, List.append_nil]
    show fh.data.drop (front.length + 8 + (table flags entries).length) =
      footer flags entries.length
    rw [hsplit, List.drop_left']
    simp only [List.length_append, length_leBytes]
    omega
  obtain ⟨hread₁, hrest₁⟩ := run_readLE32 hfooter
  obtain ⟨hread₂, hrest₂⟩ := run_readLE8 hrest₁
  obtain ⟨hread₃, -⟩ := run_readLE32 hrest₂
  -- The header of the frame.
  have hstart : UInt64.ofNat (front.length + 8 + (table flags entries).length) -
      footerTotal flags (UInt32.ofNat entries.length) = UInt64.ofNat (front.length + 8) := by
    apply UInt64.toNat_inj.mp
    rw [UInt64.toNat_sub, UInt64.toNat_ofNat', UInt64.toNat_ofNat', htotal]
    omega
  have hoff : toOff (UInt64.ofNat (front.length + 8) - TableOverhead) = (front.length : Int) := by
    have hover : TableOverhead.toNat = 8 := rfl
    have hnat : (UInt64.ofNat (front.length + 8) - TableOverhead).toNat = front.length := by
      rw [UInt64.toNat_sub, UInt64.toNat_ofNat', hover]
      omega
    rw [toOff_of_lt (by omega), hnat]
  have hheader : (FileHandle.mk fh.path fh.data front.length).rest =
      leBytes 4 MagicSkippable.toNat ++
        (leBytes 4 (UInt32.ofNat ((table flags entries).length + FooterSize)).toNat ++
          (table flags entries ++ footer flags entries.length)) := by
    rw [UInt32.toNat_ofNat', Nat.mod_eq_of_lt hfit]
    show fh.data.drop front.length = frame flags entries
    rw [hdata, List.drop_left]
  obtain ⟨hread₄, hrest₄⟩ := run_readLE32 hheader
  obtain ⟨hread₅, -⟩ := run_readLE32 hrest₄
  have hsize : (UInt32.ofNat ((table flags entries).length + FooterSize)).toUInt64 =
      footerTotal flags (UInt32.ofNat entries.length) + UInt64.ofNat FooterSize := by
    have hof : (UInt64.ofNat FooterSize).toNat = FooterSize := rfl
    apply UInt64.toNat_inj.mp
    rw [UInt32.toNat_toUInt64, UInt64.toNat_add, UInt32.toNat_ofNat', htotal, hof]
    omega
  rw [findSeekTable, FileM.run_bind_ok hseek, FileM.run_bind_ok hread₁, FileM.run_bind_ok hread₂,
    FileM.run_bind_ok hread₃, FileM.run_bind_ok (run_throwIf (not_not.mpr rfl))]
  have hseek' : (seek (toOff (UInt64.ofNat (front.length + 8 + (table flags entries).length) -
      footerTotal flags (UInt32.ofNat entries.length) - TableOverhead)) .set).run
        ((((FileHandle.mk fh.path fh.data (front.length + 8 + (table flags entries).length)).skip
          4).skip 1).skip 4) = .ok (front.length, ⟨fh.path, fh.data, front.length⟩) := by
    rw [hstart, hoff]
    exact run_seek_set front.length
  refine (FileM.run_bind_ok hseek').trans ?_
  rw [FileM.run_bind_ok hread₄, FileM.run_bind_ok hread₅,
    FileM.run_bind_ok (run_throwIf (not_not.mpr rfl))]
  refine (FileM.run_bind_ok (run_throwIf (not_not.mpr hsize))).trans ?_
  rw [← hstart]
  rfl

/-- The blocks of entries, from an uncompressed and a compressed offset on. -/
def blocksFrom : Nat → Nat → List Entry → List Block
  | _, _, [] => []
  | uoff, coff, e :: es =>
      ⟨e.usize, e.csize, UInt64.ofNat uoff, UInt64.ofNat coff⟩ ::
        blocksFrom (uoff + e.usize.toNat) (coff + e.csize.toNat) es

theorem ofNat_add_toUInt64 (n : Nat) (v : UInt32) :
    UInt64.ofNat n + v.toUInt64 = UInt64.ofNat (n + v.toNat) := by
  apply UInt64.toNat_inj.mp
  rw [UInt64.toNat_add, UInt64.toNat_ofNat', UInt64.toNat_ofNat', UInt32.toNat_toUInt64]
  omega

theorem run_addBlocks {hasChecksums : Bool} {uoff coff : Nat} {mBlocks : List Block}
    (hr : fh.rest = entries.flatMap (Entry.serialise hasChecksums) ++ tl) :
    ∃ g, (addBlocks hasChecksums entries.length (UInt64.ofNat uoff) (UInt64.ofNat coff)
      mBlocks).run fh = .ok (mBlocks ++ blocksFrom uoff coff entries, g) := by
  induction entries generalizing fh uoff coff mBlocks with
  | nil =>
      refine ⟨fh, ?_⟩
      rw [blocksFrom, List.append_nil]
      rfl
  | cons e es ih =>
      rw [List.flatMap_cons, Entry.serialise, List.append_assoc, List.append_assoc,
        List.append_assoc] at hr
      obtain ⟨hread₁, hrest₁⟩ := run_readLE32 hr
      obtain ⟨hread₂, hrest₂⟩ := run_readLE32 hrest₁
      have hchecksum : ∃ g, (doIf (hasChecksums = true) do let _checksum ← readLE32).run
          ((fh.skip 4).skip 4) = .ok ((), g) ∧
            g.rest = es.flatMap (Entry.serialise hasChecksums) ++ tl := by
        cases hasChecksums with
        | false => exact ⟨_, rfl, hrest₂⟩
        | true =>
            obtain ⟨hread₃, hrest₃⟩ := run_readLE32 hrest₂
            refine ⟨_, ?_, hrest₃⟩
            rw [doIf, if_pos rfl, FileM.run_bind_ok hread₃]
            rfl
      obtain ⟨g, hdo, hrest⟩ := hchecksum
      obtain ⟨g', hrun⟩ := ih hrest
      refine ⟨g', ?_⟩
      rw [List.length_cons, addBlocks, FileM.run_bind_ok hread₁, FileM.run_bind_ok hread₂,
        FileM.run_bind_ok hdo, ofNat_add_toUInt64, ofNat_add_toUInt64, hrun, List.append_assoc,
        blocksFrom]
      rfl

theorem length_blocksFrom (uoff coff : Nat) (es : List Entry) :
    (blocksFrom uoff coff es).length = es.length := by
  induction es generalizing uoff coff with
  | nil => rfl
  | cons e es ih => rw [blocksFrom, List.length_cons, List.length_cons, ih]

/-- A block is at the sums of the sizes in front of it. -/
theorem blocksFrom_getElem? (uoff coff : Nat) (es : List Entry) (i : Nat) :
    (blocksFrom uoff coff es)[i]? = es[i]?.map fun e => ⟨e.usize, e.csize,
      UInt64.ofNat (uoff + ((es.take i).map fun e => e.usize.toNat).sum),
      UInt64.ofNat (coff + ((es.take i).map fun e => e.csize.toNat).sum)⟩ := by
  induction es generalizing uoff coff i with
  | nil => rfl
  | cons e es ih =>
      cases i with
      | zero => rfl
      | succ i =>
          rw [blocksFrom, List.getElem?_cons_succ, List.getElem?_cons_succ, ih, List.take_succ_cons,
            List.map_cons, List.map_cons, List.sum_cons, List.sum_cons, Nat.add_assoc,
              Nat.add_assoc]

theorem sum_take_lt (f : Entry → UInt32) (hentries : entries.length < 2 ^ 32) (i : Nat) :
    ((entries.take i).map fun e => (f e).toNat).sum < 2 ^ 64 := by
  have hle := List.sum_le_card_nsmul ((entries.take i).map fun e => (f e).toNat) (2 ^ 32 - 1) (by
    intro n hn
    obtain ⟨e, -, rfl⟩ := List.mem_map.mp hn
    have hlt := (f e).toNat_lt
    omega)
  rw [List.length_map, List.length_take, smul_eq_mul] at hle
  have hmin : min i entries.length ≤ 2 ^ 32 - 1 := by omega
  have hmul := Nat.mul_le_mul_right (2 ^ 32 - 1) hmin
  omega

/-- A seek table at the end of a file is found and its entries become the blocks; and
whatever is found is the frame of a seek table that ends with the file. -/
theorem buildIndex_frame (fh : FileHandle) (hlen : fh.data.length < 2 ^ 63) :
    (∀ front flags entries, fh.data = front ++ frame flags entries →
      (table flags entries).length + FooterSize < 2 ^ 32 →
        ∃ info g blocks g', findSeekTable.run fh = .ok (info, g) ∧
          (buildIndex []).run fh = .ok (blocks, g') ∧ blocks.length = entries.length ∧
          ∀ i e, entries[i]? = some e → ∃ b, blocks[i]? = some b ∧
            b.usize = e.usize ∧ b.csize = e.csize ∧
            b.uoff.toNat = ((entries.take i).map fun e => e.usize.toNat).sum ∧
            b.coff.toNat = ((entries.take i).map fun e => e.csize.toNat).sum) ∧
      ∀ info g, findSeekTable.run fh = .ok (info, g) → ∃ flags entries,
        8 ≤ info.start.toNat ∧ fh.data.drop (info.start.toNat - 8) = frame flags entries ∧
          (table flags entries).length + FooterSize < 2 ^ 32 ∧
          info.hasChecksums = checksums flags ∧ info.count.toNat = entries.length := by
  constructor
  · intro front flags entries hdata hfit
    have hentries := entries_lt hfit
    have hfind := findSeekTable_complete hlen hfit hdata
    have hcount : (UInt32.ofNat entries.length).toNat = entries.length := by
      rw [UInt32.toNat_ofNat', Nat.mod_eq_of_lt hentries]
    have hlength := length_frame hdata
    have hseek : (seek (toOff (UInt64.ofNat (front.length + 8))) .set).run
        ⟨fh.path, fh.data, front.length + 8⟩ =
          .ok (front.length + 8, ⟨fh.path, fh.data, front.length + 8⟩) := by
      have hnat : (UInt64.ofNat (front.length + 8)).toNat = front.length + 8 := by
        rw [UInt64.toNat_ofNat']
        omega
      rw [toOff_of_lt (by omega), hnat]
      exact run_seek_set _
    have hrest : (FileHandle.mk fh.path fh.data (front.length + 8)).rest =
        entries.flatMap (Entry.serialise (checksums flags)) ++ footer flags entries.length := by
      show fh.data.drop (front.length + 8) = _
      have hsplit : fh.data = (front ++ (leBytes 4 MagicSkippable.toNat ++
          leBytes 4 ((table flags entries).length + FooterSize))) ++
            (table flags entries ++ footer flags entries.length) := by
        rw [hdata, frame]
        simp only [List.append_assoc]
      rw [hsplit, List.drop_left']
      · rfl
      · simp only [List.length_append, length_leBytes]
    have hrun : ∃ g, (addBlocks (checksums flags) entries.length (UInt64.ofNat 0) (UInt64.ofNat 0)
        []).run _ = .ok ([] ++ blocksFrom 0 0 entries, g) := run_addBlocks hrest
    obtain ⟨g, hblocks⟩ := hrun
    refine ⟨_, _, blocksFrom 0 0 entries, g, hfind, ?_, length_blocksFrom 0 0 entries, ?_⟩
    · rw [buildIndex, FileM.run_bind_ok hfind, FileM.run_bind_ok hseek, hcount]
      exact hblocks
    · intro i e he
      refine ⟨_, by rw [blocksFrom_getElem?, he]; rfl, rfl, rfl, ?_, ?_⟩
      · rw [UInt64.toNat_ofNat', Nat.zero_add, Nat.mod_eq_of_lt]
        exact sum_take_lt Entry.usize hentries i
      · rw [UInt64.toNat_ofNat', Nat.zero_add, Nat.mod_eq_of_lt]
        exact sum_take_lt Entry.csize hentries i
  · intro info g h
    obtain ⟨front, flags, entries, hdata, hfit, rfl⟩ := findSeekTable_sound hlen h
    have hentries := entries_lt hfit
    have hlength := length_frame hdata
    have hstart : (UInt64.ofNat (front.length + 8)).toNat = front.length + 8 := by
      rw [UInt64.toNat_ofNat']
      omega
    refine ⟨flags, entries, ?_, ?_, hfit, rfl, ?_⟩
    · rw [hstart]
      exact Nat.le_add_left _ _
    · rw [hstart, Nat.add_sub_cancel, hdata, List.drop_left]
    · rw [UInt32.toNat_ofNat', Nat.mod_eq_of_lt hentries]

/-- A file of one frame of nine bytes, that holds four. -/
theorem buildIndex_one : ∃ blocks g,
    (buildIndex []).run ⟨"x.zst", List.replicate 9 0 ++ frame 0x80 [⟨9, 4, 7⟩], 0⟩ =
      .ok (blocks, g) ∧ blocks.length = 1 := by
  obtain ⟨info, g, blocks, g', -, hrun, hlength, -⟩ :=
    (buildIndex_frame ⟨"x.zst", List.replicate 9 0 ++ frame 0x80 [⟨9, 4, 7⟩], 0⟩ (by decide)).1
      (List.replicate 9 0) 0x80 [⟨9, 4, 7⟩] rfl (by decide)
  exact ⟨blocks, g', hrun, hlength⟩

end ZstdFile

end Lzopfs
