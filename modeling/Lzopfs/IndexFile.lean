import Lzopfs.CompressedFile
import Mathlib.Data.List.TakeWhile

/-!
# The index file

An index file is the records of the blocks in order and four zero bytes. A
record starts with its `usize`, so a record of no bytes looks like the end: what
is read back is the list up to the first such record, with `uoff` counted again.
`Codec` is what a format owes about its records for this to hold.
-/

namespace Lzopfs

open Verify FileHandle BlockListCompFile

namespace IndexedCompFile

section Base

/-- The fields every record starts with. -/
def encodeBase (b : Block) : Buffer :=
  beBytes 4 b.usize.toNat ++ (beBytes 4 b.csize.toNat ++ beBytes 8 b.coff.toNat)

variable {fh : FileHandle} {b new : Block} {tl : Buffer}

theorem length_encodeBase (b : Block) : (encodeBase b).length = 16 := by
  simp [encodeBase]

theorem run_writeBlockBase (b : Block) (h : fh.AtEnd) :
    (writeBlockBase b).run fh = .ok ((), fh.append (encodeBase b)) := by
  rw [writeBlockBase, writeBE32, writeBE32, writeBE64, FileM.run_bind_ok (run_writeBE h _ _),
    FileM.run_bind_ok (run_writeBE (atEnd_append _ _) _ _), run_writeBE (atEnd_append _ _),
    append_append, append_append]
  rfl

theorem run_readBlockBase (hb : b.usize ≠ 0) (hr : fh.rest = encodeBase b ++ tl) :
    (readBlockBase new).run fh =
      .ok ((true, { new with usize := b.usize, csize := b.csize, coff := b.coff }),
        fh.skip 16) := by
  rw [encodeBase, List.append_assoc, List.append_assoc] at hr
  have h1 := rest_skip_append hr (length_beBytes _ _)
  have h2 := rest_skip_append h1 (length_beBytes _ _)
  rw [readBlockBase, FileM.run_bind_ok (run_readBE32 hr), if_neg hb,
    FileM.run_bind_ok (run_readBE32 h1), FileM.run_bind_ok (run_readBE64 h2), skip_skip, skip_skip]
  rfl

theorem run_readBlockBase_end (hr : fh.rest = beBytes 4 0 ++ tl) :
    (readBlockBase new).run fh = .ok ((false, { new with usize := 0 }), fh.skip 4) := by
  have hzero : fh.rest = beBytes 4 (0 : UInt32).toNat ++ tl := hr
  rw [readBlockBase, FileM.run_bind_ok (run_readBE32 hzero), if_pos rfl]
  rfl

theorem encodeBase_zero (hb : b.usize = 0) : ∃ tl, encodeBase b = beBytes 4 0 ++ tl := by
  rw [encodeBase, hb]
  exact ⟨_, rfl⟩

theorem readBlockBase_cutStable (new : Block) : CutStable (readBlockBase new) :=
  CutStable.readBE32.bind fun _ => CutStable.ite (CutStable.pure _)
    (CutStable.readBE32.bind fun _ => CutStable.readBE64.bind fun _ => CutStable.pure _)

theorem readBlockBase_inside (new : Block) : Inside (readBlockBase new) := by
  intro fh r g h
  obtain ⟨usize, m, hread, hrest⟩ := FileM.of_run_bind_ok h
  split at hrest
  · cases hrest
    exact Inside.readBE32 hread
  · exact (Inside.bind fun _ => Inside.readBE64.map _) hrest

/-- A record that does not end the index has been read from the file. -/
theorem readBlockBase_consumes {fh g : FileHandle} {r : Block}
    (h : (readBlockBase new).run fh = .ok ((true, r), g)) : g.remaining < fh.remaining ∧
      g.data = fh.data := by
  obtain ⟨usize, m, hread, hrest⟩ := FileM.of_run_bind_ok h
  obtain ⟨hle, rfl⟩ := run_readBE32_inv hread
  split at hrest
  · cases hrest
  · have hfwd := (Forward.readBE32.bind fun _ => Forward.readBE64.bind fun _ =>
      Forward.pure _) hrest
    refine ⟨?_, hfwd.1⟩
    simp only [length_rest, remaining, skip_pos, hfwd.1, skip_data] at hle hfwd ⊢
    omega

end Base

variable {β : Type}

/-- How the records of a format are laid out. Reading a record gives back all of
its fields but `uoff`. -/
structure Codec (file : IndexedCompFile β) where
  encode : β → Buffer
  run_writeBlock : ∀ {fh : FileHandle} (b : β), fh.AtEnd →
    (file.writeBlock b).run fh = .ok ((), fh.append (encode b))
  run_readBlock : ∀ {fh : FileHandle} {b : β} {tl : Buffer}, (file.block b).usize ≠ 0 →
    fh.rest = encode b ++ tl →
    ∃ b', (file.readBlock file.newBlock).run fh = .ok ((true, b'), fh.skip (encode b).length) ∧
      (file.block b').usize = (file.block b).usize ∧
      ∀ uoff, file.setUoff b' uoff = file.setUoff b uoff
  encode_zero : ∀ {b : β}, (file.block b).usize = 0 → ∃ tl, encode b = beBytes 4 0 ++ tl
  run_readBlock_end : ∀ {fh : FileHandle} {tl : Buffer}, fh.rest = beBytes 4 0 ++ tl →
    ∃ b', (file.readBlock file.newBlock).run fh = .ok ((false, b'), fh.skip 4)
  readBlock_cutStable : CutStable (file.readBlock file.newBlock)
  readBlock_inside : Inside (file.readBlock file.newBlock)
  setUoff_self : ∀ b, file.setUoff b (file.block b).uoff = b
  uoff_setUoff : ∀ b uoff, (file.block (file.setUoff b uoff)).uoff = uoff

variable (file : IndexedCompFile β)

/-- The records that do not end the index. -/
def IsStored (b : β) : Bool := (file.block b).usize ≠ 0

/-- Count the offsets again from the sizes. -/
def withUoffs : UInt64 → List β → List β
  | _, [] => []
  | uoff, b :: bs => file.setUoff b uoff :: withUoffs (uoff + (file.block b).usize.toUInt64) bs

@[simp] theorem length_withUoffs (uoff : UInt64) (bs : List β) :
    (file.withUoffs uoff bs).length = bs.length := by
  induction bs generalizing uoff with
  | nil => rfl
  | cons b bs ih => simp only [withUoffs, List.length_cons, ih]

variable {file}

section Records

variable (c : file.Codec)

theorem Codec.withUoffs_eq_iff (c : file.Codec) {uoff : UInt64} {bs : List β} :
    file.withUoffs uoff bs = bs ↔ Contiguous uoff (bs.map file.block) := by
  induction bs generalizing uoff with
  | nil => simp [withUoffs, Contiguous]
  | cons b bs ih =>
      rw [withUoffs, List.cons.injEq, List.map_cons, Contiguous, ih]
      refine and_congr_left fun _ => ⟨fun h => ?_, fun h => ?_⟩
      · rw [← c.uoff_setUoff b uoff, h]
      · rw [← h, c.setUoff_self]

/-- The bytes of an index file. -/
def Codec.encodeIndex (bs : List β) : Buffer := bs.flatMap c.encode ++ beBytes 4 0

theorem Codec.run_forM_writeBlock {fh : FileHandle} (bs : List β) (h : fh.AtEnd) :
    (bs.forM file.writeBlock).run fh = .ok ((), fh.append (bs.flatMap c.encode)) := by
  induction bs generalizing fh with
  | nil =>
      rw [List.flatMap_nil, append_nil h]
      rfl
  | cons b bs ih =>
      rw [List.forM_eq_forM, List.forM_cons, FileM.run_bind_ok (c.run_writeBlock b h),
        ← List.forM_eq_forM,
        ih (atEnd_append _ _), append_append, List.flatMap_cons]

theorem Codec.run_writeIndex {path : String} (bs : List β) :
    (file.writeIndex bs).run ⟨path, [], 0⟩ =
      .ok ((), (FileHandle.mk path [] 0).append (c.encodeIndex bs)) := by
  have hstart : (FileHandle.mk path [] 0).AtEnd := rfl
  rw [writeIndex, FileM.run_bind_ok (c.run_forM_writeBlock bs hstart), writeBE32,
    run_writeBE (atEnd_append _ _), append_append]
  rfl

/-- Reading an index stops at the first record of no bytes. -/
theorem Codec.run_readIndexLoop {fh : FileHandle} {t : Buffer} {uoff : UInt64} {mBlocks : List β}
    (bs : List β) (hr : fh.rest = c.encodeIndex bs ++ t) :
    (file.readIndexLoop.run (uoff, mBlocks)).run fh =
      .ok ((true, mBlocks ++ file.withUoffs uoff (bs.takeWhile file.IsStored)),
        fh.skip (((bs.takeWhile file.IsStored).flatMap c.encode).length + 4)) := by
  have hstop : ∀ {fh : FileHandle} {tl : Buffer} {uoff : UInt64} {mBlocks : List β},
      fh.rest = beBytes 4 0 ++ tl →
      (file.readIndexLoop.body (uoff, mBlocks)).run fh =
        .ok (.done (true, mBlocks), fh.skip 4) := by
    intro fh tl uoff mBlocks hr
    obtain ⟨b', hread⟩ := c.run_readBlock_end hr
    simp only [readIndexLoop]
    rw [FileM.run_bind_ok hread]
    rfl
  induction bs generalizing fh uoff mBlocks with
  | nil =>
      rw [FileLoop.run_done (hstop hr)]
      simp [withUoffs]
  | cons b bs ih =>
      rw [encodeIndex, List.flatMap_cons, List.append_assoc, List.append_assoc] at hr
      by_cases hb : (file.block b).usize = 0
      · obtain ⟨tl', henc⟩ := c.encode_zero hb
        rw [henc, List.append_assoc] at hr
        rw [FileLoop.run_done (hstop hr), List.takeWhile_cons_of_neg (by simp [IsStored, hb])]
        simp [withUoffs]
      · obtain ⟨b', hread, husize, hset⟩ := c.run_readBlock hb hr
        have hbody : (file.readIndexLoop.body (uoff, mBlocks)).run fh =
            .ok (.again (uoff + (file.block b).usize.toUInt64, mBlocks ++ [file.setUoff b uoff]),
              fh.skip (c.encode b).length) := by
          simp only [readIndexLoop]
          rw [FileM.run_bind_ok hread, if_pos rfl, husize, hset]
          rfl
        have hnext := rest_skip_append hr rfl
        rw [← List.append_assoc] at hnext
        rw [FileLoop.run_again hbody, ih hnext,
          List.takeWhile_cons_of_pos (by simpa [IsStored] using hb)]
        simp only [withUoffs, List.append_assoc, List.singleton_append, skip_skip,
          List.flatMap_cons, List.length_append, Nat.add_assoc]

theorem Codec.readIndexLoop_cutStable (c : file.Codec) (s : UInt64 × List β) :
    CutStable (file.readIndexLoop.run s) :=
  FileLoop.cutStable (fun _ => c.readBlock_cutStable.bind fun _ =>
    CutStable.ite (CutStable.pure _) (CutStable.pure _)) s

theorem Codec.readIndexLoop_inside (c : file.Codec) (s : UInt64 × List β) :
    Inside (file.readIndexLoop.run s) := by
  refine FileLoop.inside ?_ s
  intro s fh r g hb
  obtain ⟨⟨more, b⟩, m, hread, hret⟩ := FileM.of_run_bind_ok hb
  cases more with
  | false =>
      cases hret
      exact c.readBlock_inside hread
  | true => cases hret

end Records

/-- The index that `writeIndex` leaves on an empty file gives back every block of
nonzero size, in every field, and the same uncompressed size. -/
def RoundTrips (file : IndexedCompFile β) (bs : List β) : Prop :=
  ∃ fh fh', (file.writeIndex bs).run ⟨file.indexPath, [], 0⟩ = .ok ((), fh) ∧
    (file.readIndex []).run { fh with pos := 0 } = .ok ((true, bs.filter file.IsStored), fh') ∧
    uncompressedSize ((bs.filter file.IsStored).map file.block) =
      uncompressedSize (bs.map file.block)

/-- Where the last block ends, or `uoff` when there is none. -/
def endOf : UInt64 → List Block → UInt64
  | uoff, [] => uoff
  | _, b :: bs => endOf (b.uoff + b.usize.toUInt64) bs

theorem uncompressedSize_eq (bs : List Block) : uncompressedSize bs = toOff (endOf 0 bs) := by
  have hlast : ∀ uoff, endOf uoff bs =
      (bs.getLast?.map fun b => b.uoff + b.usize.toUInt64).getD uoff := by
    induction bs with
    | nil => exact fun _ => rfl
    | cons b bs ih =>
        intro uoff
        rw [endOf, ih]
        cases bs with
        | nil => rfl
        | cons c cs =>
            rw [List.getLast?_cons_cons, List.getLast?_cons]
            rfl
  rw [hlast, uncompressedSize]
  cases bs.getLast? <;> rfl

theorem toOff_injective : Function.Injective toOff := by
  intro x y h
  have hx := x.toNat_lt
  have hy := y.toNat_lt
  rw [← UInt64.toNat_inj]
  simp only [toOff] at h
  split at h <;> split at h <;> omega

/-- A list of blocks that reads back as it was: up to its first empty block it is
contiguous, and after it there are only empty blocks and not a byte more. -/
def ReadsBack (uoff : UInt64) (bs : List Block) : Prop :=
  Contiguous uoff (bs.takeWhile fun b => b.usize ≠ 0) ∧
    (∀ b ∈ bs.dropWhile fun b => b.usize ≠ 0, b.usize = 0) ∧
    endOf uoff (bs.takeWhile fun b => b.usize ≠ 0) = endOf uoff bs

theorem Codec.roundTrips_iff (c : file.Codec) {bs : List β} :
    RoundTrips file bs ↔ ReadsBack 0 (bs.map file.block) := by
  let start : FileHandle := ⟨file.indexPath, [], 0⟩
  have hread : (file.readIndex []).run { start.append (c.encodeIndex bs) with pos := 0 } =
      .ok ((true, file.withUoffs 0 (bs.takeWhile file.IsStored)), _) :=
    c.run_readIndexLoop bs (t := []) (by rw [List.append_nil]; rfl)
  have hsplit : bs.filter file.IsStored =
      bs.takeWhile file.IsStored ++ (bs.dropWhile file.IsStored).filter file.IsStored := by
    conv => lhs; rw [← List.takeWhile_append_dropWhile (p := file.IsStored) (l := bs)]
    rw [List.filter_append, List.filter_eq_self.mpr fun b hb => List.mem_takeWhile_imp hb]
  have hmap : (bs.takeWhile file.IsStored).map file.block =
      (bs.map file.block).takeWhile fun b => b.usize ≠ 0 := by
    rw [List.takeWhile_map]
    rfl
  have hrest : (bs.dropWhile file.IsStored).filter file.IsStored = [] ↔
      ∀ b ∈ (bs.map file.block).dropWhile fun b => b.usize ≠ 0, b.usize = 0 := by
    have hdrop : (bs.map file.block).dropWhile (fun b => b.usize ≠ 0) =
        (bs.dropWhile file.IsStored).map file.block := List.dropWhile_map
    rw [hdrop, List.filter_eq_nil_iff]
    simp [IsStored]
  rw [ReadsBack, ← hmap, ← c.withUoffs_eq_iff, ← hrest]
  constructor
  · rintro ⟨fh, fh', hwrite, hback, hsize⟩
    rw [c.run_writeIndex] at hwrite
    cases hwrite
    rw [hread] at hback
    simp only [Except.ok.injEq, Prod.mk.injEq, true_and] at hback
    have hlen := congrArg List.length hback.1
    rw [hsplit, length_withUoffs, List.length_append] at hlen
    have hnil := List.eq_nil_of_length_eq_zero (Nat.left_eq_add.mp hlen)
    rw [hsplit, hnil, List.append_nil] at hback hsize
    rw [uncompressedSize_eq, uncompressedSize_eq] at hsize
    exact ⟨hback.1, hnil, toOff_injective hsize⟩
  · rintro ⟨hcont, hnil, hsize⟩
    rw [hcont] at hread
    rw [RoundTrips, hsplit, hnil, List.append_nil, uncompressedSize_eq, uncompressedSize_eq, hsize]
    exact ⟨_, _, c.run_writeIndex bs, hread, rfl⟩

/-- A block whose size is filled in when the next one is recorded. -/
def Follows (a b : Block) : Prop :=
  a.uoff.toNat ≤ b.uoff.toNat ∧ a.usize = UInt32.ofNat (b.uoff.toNat - a.uoff.toNat)

/-- Each block is recorded less than 4 GiB behind the one before it, and behind an
offset recorded twice there is not a byte more. -/
def Apart : List Block → Prop
  | a :: b :: bs => b.uoff.toNat < a.uoff.toNat + 2 ^ 32 ∧
      (b.uoff = a.uoff → ∀ c ∈ b :: bs, c.usize = 0) ∧ Apart (b :: bs)
  | _ => True

theorem readsBack_cons {uoff : UInt64} {a : Block} {bs : List Block} (h : a.usize ≠ 0) :
    ReadsBack uoff (a :: bs) ↔
      a.uoff = uoff ∧ ReadsBack (a.uoff + a.usize.toUInt64) bs := by
  rw [ReadsBack, ReadsBack, List.takeWhile_cons_of_pos (by simpa using h),
    List.dropWhile_cons_of_pos (by simpa using h), Contiguous, endOf, endOf, and_assoc]
  refine and_congr_right fun huoff => ?_
  rw [huoff]

theorem readsBack_zero {uoff : UInt64} {a : Block} {bs : List Block} (h : a.usize = 0) :
    ReadsBack uoff (a :: bs) ↔
      (∀ b ∈ a :: bs, b.usize = 0) ∧ uoff = endOf uoff (a :: bs) := by
  rw [ReadsBack, List.takeWhile_cons_of_neg (by simp [h]),
    List.dropWhile_cons_of_neg (by simp [h]), Contiguous, true_and]
  rfl

theorem Follows.toNat_add_usize {a b : Block} (h : Follows a b) :
    (a.uoff + a.usize.toUInt64).toNat =
      a.uoff.toNat + (b.uoff.toNat - a.uoff.toNat) % 2 ^ 32 := by
  have hle := h.1
  have hb := b.uoff.toNat_lt
  rw [UInt64.toNat_add, UInt32.toNat_toUInt64, h.2, UInt32.toNat_ofNat']
  omega

/-- The size filled in covers the gap exactly when the gap is below 4 GiB. -/
theorem Follows.uoff_eq_iff {a b : Block} (h : Follows a b) :
    b.uoff = a.uoff + a.usize.toUInt64 ↔ b.uoff.toNat < a.uoff.toNat + 2 ^ 32 := by
  have hle := h.1
  rw [← UInt64.toNat_inj, h.toNat_add_usize]
  omega

theorem Follows.usize_eq_zero {a b : Block} (h : Follows a b) (hu : b.uoff = a.uoff) :
    a.usize = 0 := by
  rw [h.2, hu, Nat.sub_self]
  rfl

theorem uoff_add_usize {a : Block} (hz : a.usize = 0) : a.uoff + a.usize.toUInt64 = a.uoff := by
  rw [hz]
  exact UInt64.add_zero _

/-- Empty blocks less than 4 GiB apart are all at one offset. -/
theorem Follows.uoff_eq {a b : Block} (h : Follows a b) (hz : a.usize = 0)
    (hlt : b.uoff.toNat < a.uoff.toNat + 2 ^ 32) : b.uoff = a.uoff := by
  rw [h.uoff_eq_iff.mpr hlt, uoff_add_usize hz]

/-- Recorded blocks that are all empty end where they start exactly if they are apart. -/
theorem endOf_of_usize_zero (uoff : UInt64) {a : Block} {bs : List Block}
    (hchain : (a :: bs).IsChain Follows) (hz : ∀ b ∈ a :: bs, b.usize = 0) :
    a.uoff.toNat ≤ (endOf uoff (a :: bs)).toNat ∧
      ((endOf uoff (a :: bs)).toNat = a.uoff.toNat ↔ Apart (a :: bs)) := by
  rw [endOf, uoff_add_usize (hz a List.mem_cons_self)]
  induction bs generalizing a with
  | nil => simp [endOf, Apart]
  | cons b bs ih =>
      rw [List.isChain_cons_cons] at hchain
      have hzb : ∀ c ∈ b :: bs, c.usize = 0 := fun c hc => hz c (List.mem_cons_of_mem _ hc)
      have hrest := ih hchain.2 hzb
      have hle := hchain.1.1
      rw [endOf, uoff_add_usize (hzb b List.mem_cons_self), Apart, ← hrest.2]
      refine ⟨Nat.le_trans hle hrest.1, fun heq => ?_, fun ⟨hlt, _, heq⟩ => ?_⟩
      · exact ⟨by omega, fun _ => hzb, by omega⟩
      · rw [heq, hchain.1.uoff_eq (hz a List.mem_cons_self) hlt]

theorem apart_usize_zero {a b : Block} {bs : List Block} (hf : Follows a b)
    (h : Apart (a :: b :: bs)) (hz : a.usize = 0) : ∀ c ∈ a :: b :: bs, c.usize = 0 := by
  rw [List.forall_mem_cons]
  exact ⟨hz, h.2.1 (hf.uoff_eq hz h.1)⟩

/-- A list of recorded blocks reads back exactly if it starts where it should and
its offsets are apart. -/
theorem readsBack_iff {uoff : UInt64} {bs : List Block} (hchain : bs.IsChain Follows)
    (hle : ∀ b ∈ bs.head?, uoff.toNat ≤ b.uoff.toNat) :
    ReadsBack uoff bs ↔ (∀ b ∈ bs.head?, b.uoff = uoff) ∧ Apart bs := by
  induction bs generalizing uoff with
  | nil => simp [ReadsBack, Contiguous, Apart]
  | cons a bs ih =>
      have hua := hle a rfl
      simp only [List.head?_cons, Option.mem_some_iff, forall_eq']
      by_cases hz : a.usize = 0
      · rw [readsBack_zero hz]
        constructor
        · rintro ⟨hall, hend⟩
          obtain ⟨hge, hiff⟩ := endOf_of_usize_zero uoff hchain hall
          rw [← hend] at hge hiff
          have heq := UInt64.toNat_inj.mp (Nat.le_antisymm hge hua)
          exact ⟨heq, hiff.mp (by rw [heq])⟩
        · rintro ⟨heq, hap⟩
          have hall : ∀ c ∈ a :: bs, c.usize = 0 := by
            cases bs with
            | nil => simpa using hz
            | cons b bs =>
                rw [List.isChain_cons_cons] at hchain
                exact apart_usize_zero hchain.1 hap hz
          obtain ⟨-, hiff⟩ := endOf_of_usize_zero uoff hchain hall
          exact ⟨hall, (UInt64.toNat_inj.mp (by rw [hiff.mpr hap, heq])).symm⟩
      · rw [readsBack_cons hz]
        refine and_congr_right fun heq => ?_
        cases bs with
        | nil => simp [ReadsBack, Contiguous, Apart, endOf]
        | cons b bs =>
            rw [List.isChain_cons_cons] at hchain
            have hf := hchain.1
            have hsize : (a.uoff + a.usize.toUInt64).toNat ≤ b.uoff.toNat := by
              have hab := hf.1
              rw [hf.toNat_add_usize]
              omega
            rw [ih hchain.2 (by simpa using hsize), Apart]
            simp only [List.head?_cons, Option.mem_some_iff, forall_eq']
            rw [hf.uoff_eq_iff]
            refine and_congr_right fun hlt => ⟨fun hap => ⟨fun hu => ?_, hap⟩, fun hap => hap.2⟩
            exact absurd (hf.usize_eq_zero hu) hz

/-- With a strict prefix of an index file in place, `loadIndex` never comes to the
list the index was written for. It fails at the end of the prefix, or stops early
at a record of no bytes. -/
theorem Codec.tryIndex_prefix (c : file.Codec) {fs : FileSystem} {bs : List β} {k : Nat}
    (hk : k < (c.encodeIndex bs).length)
    (hfs : fs.contents file.indexPath = some ((c.encodeIndex bs).take k)) :
    (∃ e, file.tryIndex fs = .error e) ∨
      ∃ bs', file.tryIndex fs = .ok (true, bs') ∧ bs'.length < bs.length := by
  let fh : FileHandle := ⟨file.indexPath, c.encodeIndex bs, 0⟩
  have hfull : (file.readIndex []).run fh =
    .ok ((true, file.withUoffs 0 (bs.takeWhile file.IsStored)),
      fh.skip (((bs.takeWhile file.IsStored).flatMap c.encode).length + 4)) :=
    c.run_readIndexLoop bs (t := []) (by rw [List.append_nil]; rfl)
  have htry : file.tryIndex fs = ((file.readIndex []).run (fh.cut k)).map Prod.fst := by
    rw [tryIndex, hfs]
    rfl
  obtain hcut | ⟨e, he⟩ := c.readIndexLoop_cutStable _ hfull k
  · right
    have hinside := c.readIndexLoop_inside _ hcut
    simp only [cut_pos, skip_pos, length_cut_data] at hinside
    refine ⟨file.withUoffs 0 (bs.takeWhile file.IsStored), by rw [htry, readIndex, hcut]; rfl, ?_⟩
    rw [length_withUoffs]
    refine Nat.lt_of_le_of_ne (List.takeWhile_prefix _).length_le fun hlen => ?_
    have hall := (List.takeWhile_prefix file.IsStored (l := bs)).eq_of_length hlen
    rw [hall] at hinside
    simp only [encodeIndex, List.length_append, length_beBytes] at hk
    simp only [fh] at hinside
    omega
  · exact .inl ⟨e, by rw [htry, readIndex, he]; rfl⟩

end IndexedCompFile

end Lzopfs
