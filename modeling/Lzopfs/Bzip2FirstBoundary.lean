import Lzopfs.Bzip2Scan

/-!
# The first boundary of a bzip2 file

A file is taken for one of bzip2 if the magic number of a block is behind its header. The
search needs eight bytes behind each byte that it looks at, so it finds that magic number
only in a file that goes on for a while behind it.
-/

namespace Lzopfs

open Verify FileHandle

namespace Bzip2File

variable {mPath : String} {before : Nat → UInt8} {fh g : FileHandle} {data : Buffer}

/-- The front of a file that is accepted. -/
def Accepted (data : Buffer) : Prop :=
  ∃ (level : UInt8) (tl : Buffer), 0x31 ≤ level ∧ level ≤ 0x39 ∧
    data = Magic ++ (level :: (beBytes BlockMagicBytes BlockMagic.toNat ++ tl))

/-- Eight bytes whose masked number is the magic number end in its bytes. -/
theorem drop_of_mask {bs : Buffer} (hlen : bs.length = 8)
    (h : UInt64.ofNat (ofBE bs) &&& BlockMagicMask = BlockMagic) :
    bs.drop 2 = beBytes BlockMagicBytes BlockMagic.toNat := by
  have hmask : BlockMagicMask.toNat = 2 ^ 48 - 1 := by decide
  have hlt : ofBE bs < 2 ^ 64 := by
    have hlt := ofBE_lt bs
    rwa [hlen] at hlt
  have hlt' := ofBE_lt (bs.drop 2)
  have hsplit := ofBE_append (bs.take 2) (bs.drop 2)
  have hdrop : (bs.drop 2).length = 6 := by
    rw [List.length_drop, hlen]
  have hnum := congrArg UInt64.toNat h
  rw [hdrop] at hlt' hsplit
  rw [UInt64.toNat_and, hmask, Nat.and_two_pow_sub_one_eq_mod, UInt64.toNat_ofNat',
    Nat.mod_eq_of_lt hlt] at hnum
  rw [List.take_append_drop] at hsplit
  have hlow : ofBE (bs.drop 2) = BlockMagic.toNat := by
    rw [← hnum, hsplit]
    omega
  rw [← hlow, show BlockMagicBytes = (bs.drop 2).length from hdrop.symm, beBytes_ofBE]

theorem accepted_of_checkFileType (hpos : fh.pos = 0)
    (h : (checkFileType mPath).run fh = .ok ((), g)) : g.data = fh.data ∧ Accepted fh.data := by
  obtain ⟨buf, g₁, hread, h⟩ := FileM.of_run_bind_ok (run_catchEOF_ok h)
  obtain ⟨hlen₁, rfl, rfl⟩ := (read_ok_iff (by decide)).mp hread
  obtain ⟨hmagic, h⟩ := of_throwIf_bind_ok h
  obtain ⟨level, g₁, hlevel, h⟩ := FileM.of_run_bind_ok h
  obtain ⟨n, g₂, hbyte, hret⟩ := FileM.of_run_bind_ok hlevel
  obtain ⟨hlen₂, rfl, rfl⟩ := (run_readBE_iff Nat.one_pos).mp hbyte
  cases hret
  obtain ⟨hdigit, h⟩ := of_throwIf_bind_ok h
  obtain ⟨p, g₃, hseek, h⟩ := FileM.of_run_bind_ok h
  obtain ⟨hp, rfl⟩ := (@run_seek_iff _ _ .cur _ _ _ rfl).mp hseek
  obtain ⟨bm, g₄, hword, h⟩ := FileM.of_run_bind_ok h
  obtain ⟨m, g₅, hbytes, hret⟩ := FileM.of_run_bind_ok hword
  obtain ⟨hlen₃, rfl, rfl⟩ := (run_readBE_iff (by decide)).mp hbytes
  cases hret
  obtain ⟨hblock, rfl⟩ := of_throwIf_ok h
  have hmagicLen : Magic.length = 3 := rfl
  have hrest : fh.rest = fh.data := by
    rw [rest, hpos, List.drop_zero]
  obtain rfl : p = 2 := by
    simp only [skip_pos, hpos, hmagicLen] at hp
    omega
  rw [hrest, hmagicLen] at hmagic
  rw [rest_skip, hrest, hmagicLen] at hdigit
  simp only [rest, skip_data] at hlen₃ hblock
  rw [List.length_drop] at hlen₃
  have hcons : fh.data.drop 3 = fh.data.getD 3 0 :: fh.data.drop 4 := (drop_cons (by omega)).symm
  have hlevel : UInt8.ofNat (ofBE ((fh.data.drop 3).take 1)) = fh.data.getD 3 0 := by
    rw [hcons]
    show UInt8.ofNat (0 * 256 + (fh.data.getD 3 0).toNat) = _
    rw [Nat.zero_mul, Nat.zero_add, UInt8.ofNat_toNat]
  rw [hlevel, not_or] at hdigit
  have hbytes : (fh.data.drop 4).take 6 = beBytes BlockMagicBytes BlockMagic.toNat := by
    have hlen : ((fh.data.drop 2).take 8).length = 8 := by
      rw [List.length_take, List.length_drop]
      omega
    have hdrop := drop_of_mask hlen (Decidable.not_not.mp hblock)
    rw [List.drop_take, List.drop_drop] at hdrop
    exact hdrop
  refine ⟨rfl, fh.data.getD 3 0, (fh.data.drop 4).drop 6, UInt8.not_lt.mp hdigit.1,
    UInt8.not_lt.mp hdigit.2, ?_⟩
  rw [← hbytes, List.take_append_drop, ← hcons, ← Decidable.not_not.mp hmagic,
    List.take_append_drop]

theorem backBits_digit {level : UInt8} {b : Fin 8} (hlo : 0x31 ≤ level) (hhi : level ≤ 0x39)
    (h : (backBits[level.toNat]?).join = some b) : b = 0 := by
  have hall : ∀ (n : Fin 256) (b : Fin 8), 0x31 ≤ UInt8.ofNat n → UInt8.ofNat n ≤ 0x39 →
      (backBits[n.val]?).join = some b → b = 0 := by
    decide +kernel
  have hlevel := hall ⟨level.toNat, level.toNat_lt⟩ b
  rw [UInt8.ofNat_toNat] at hlevel
  exact hlevel hlo hhi h

/-- The magic number of the header and a level are not the start of a magic number. -/
theorem hit_header (h : Accepted data) {prev : UInt8} {pos : Nat} (hpos : pos ≤ 3)
    (hlen : pos + 8 ≤ data.length) : hit data ⟨prev, pos⟩ = none := by
  obtain ⟨level, tl, hlo, hhi, hdata⟩ := h
  have hget : data.getD 3 0 = level := by rw [hdata]; rfl
  match pos with
  | 0 => rw [hdata]; rfl
  | 1 => rw [hdata]; rfl
  | 2 => rw [hdata]; rfl
  | 3 =>
      apply Option.eq_none_iff_forall_ne_some.mpr
      rintro ⟨v, b⟩ hhit
      obtain ⟨hmagic, hbits⟩ := (hit_iff hlen).mp hhit
      have hfront : ((byteBits prev).drop (8 - b)).length = b.val := by
        rw [List.length_drop, length_byteBits]
        omega
      have hcons := hbits
      rw [toBits_drop_cons (show 3 < data.length by omega), hget] at hcons
      obtain rfl := backBits_digit hlo hhi (backBits_of_bits hfront hmagic hcons)
      have hsix : (data.drop 3).take BlockMagicBytes = [level, 0x31, 0x41, 0x59, 0x26, 0x53] := by
        rw [hdata]
        rfl
      have hnum : ofBE [level, 0x31, 0x41, 0x59, 0x26, 0x53] = v.toNat := by
        rw [← hsix, ← ofBits_toBits, ← bitsAt_aligned, ← bits_aligned prev, hbits,
          ofBits_magicBits hmagic]
      have hsplit : ofBE [level, 0x31, 0x41, 0x59, 0x26, 0x53] =
          ofBE [level] * 256 ^ 5 + 0x3141592653 :=
            ofBE_append [level] [0x31, 0x41, 0x59, 0x26, 0x53]
      have hblock : BlockMagic.toNat = 0x314159265359 := rfl
      have heos : EOSMagic.toNat = 0x177245385090 := rfl
      obtain rfl | rfl := hmagic
      · omega
      · omega

/-- Behind the header the magic number of a block is found. -/
theorem hit_first (h : Accepted data) {prev : UInt8} (hlen : 12 ≤ data.length) :
    hit data ⟨prev, 4⟩ = some (BlockMagic, 0) := by
  obtain ⟨level, tl, -, -, hdata⟩ := h
  have hsix : (data.drop 4).take BlockMagicBytes = beBytes BlockMagicBytes BlockMagic.toNat := by
    rw [hdata]
    rfl
  refine (hit_iff hlen).mpr ⟨.inl rfl, ?_⟩
  rw [bits_aligned, bitsAt_aligned, hsix]
  rfl

theorem length_of_accepted (h : Accepted data) : 10 ≤ data.length := by
  obtain ⟨level, tl, -, -, rfl⟩ := h
  simp only [List.length_append, List.length_cons, length_beBytes]
  show 10 ≤ 3 + (6 + tl.length + 1)
  omega

/-- The search of an accepted file finds something exactly if the file has three bytes behind
the first magic number. -/
theorem finds_iff (before : Nat → UInt8) (h : Accepted data) :
    (∃ l ∈ looks before data, ∃ p, hit data l = some p) ↔ 13 ≤ data.length := by
  have hten := length_of_accepted h
  have hsize : ChunkSize = 4096 := rfl
  constructor
  · rintro ⟨⟨prev, pos⟩, hl, p, hhit⟩
    apply Nat.le_of_not_lt
    intro hshort
    have hin := look_inFile hl
    dsimp only at hin
    rw [hit_header h (by omega) (by omega)] at hhit
    cases hhit
  · intro hlen
    refine ⟨⟨data.getD 3 0, 4⟩, mem_looks.mpr ⟨0, Nat.zero_le _, mem_chunkLooks.mpr ?_⟩, _,
      hit_first h (by omega)⟩
    have hfour : ¬ (4 = fresh * 0) := by decide
    rw [chunkStop]
    exact ⟨Nat.zero_le _, by dsimp only; omega, (if_neg hfour).symm⟩

theorem bl_ne_nil_iff (looks : List Look) :
    (looks.foldl (look data) scanStart).bl ≠ [] ↔ ∃ l ∈ looks, ∃ p, hit data l = some p := by
  have hmap := @foldl_look_bl data looks scanStart
  have hstart : scanStart.bl.map triple = [] := rfl
  rw [hstart, List.nil_append] at hmap
  have hnil : (looks.foldl (look data) scanStart).bl = [] ↔ ∀ l ∈ looks, hit data l = none := by
    rw [← @List.map_eq_nil_iff _ _ triple, hmap, List.filterMap_eq_nil_iff]
    simp only [found, Option.map_eq_none_iff]
  rw [ne_eq, hnil]
  simp only [not_forall, exists_prop, ← ne_eq, Option.ne_none_iff_exists']

/-- A refill keeps nine bytes. -/
theorem refill_keeps {n : Nat} {p p' : (Buffer × Nat × Scan) × FileHandle}
    (hlen : 9 ≤ p.1.1.length)
    (h : (scanLoop before n).toLoop.body p = .ok (.again p')) : 9 ≤ p'.1.1.length := by
  obtain ⟨⟨buf, rpos, s⟩, fh⟩ := p
  obtain ⟨s', g⟩ := p'
  have hbody := onFile_again.mp h
  simp only [scanLoop] at hbody
  split at hbody
  · cases hbody
  · obtain ⟨r, m, -, hret⟩ := FileM.of_run_bind_ok hbody
    cases hret
    rw [List.length_append, List.length_drop]
    dsimp only at hlen
    omega

/-- No scan of a file of ten bytes or more ends before it starts. -/
theorem range_of_reaches {n : Nat} {buf : Buffer} {p : (Buffer × Nat × Scan) × FileHandle}
    {s : Scan} (hlen : 10 ≤ fh.data.length)
    (hread : (tryRead ChunkSize).run { fh with pos := 0 } = .ok (buf, g))
    (h : Reaches (scanLoop before n).toLoop.body ((buf, buf.length, s), g) p) :
    8 ≤ p.1.1.length := by
  have hsize : ChunkSize = 4096 := rfl
  have hstart : 9 ≤ buf.length := by
    simp only [tryRead, StateT.run, List.drop_zero] at hread
    split at hread
    · cases hread
    · cases hread
      rw [List.length_take]
      omega
  have hnine : 9 ≤ p.1.1.length :=
    h.invariant (P := fun p => 9 ≤ p.1.1.length) hstart fun _ _ => refill_keeps
  omega

/-- In an accepted file the scans are in range, but they find the first boundary exactly if
three more bytes are behind its magic number. -/
theorem findBlockBoundaryCandidates_nonempty (before : Nat → UInt8) (mPath : String)
    (fh g : FileHandle) (hpos : fh.pos = 0)
    (hok : (checkFileType mPath).run fh = .ok ((), g)) :
    ((∀ buf g₁, (tryRead ChunkSize).run { g with pos := 0 } = .ok (buf, g₁) →
        ∀ p, Reaches (scanLoop before g.data.length).toLoop.body
          ((buf, buf.length, scanStart), g₁) p →
          8 ≤ p.1.1.length) ∧
      ∃ i bl g₂, (findBlockBoundaryCandidates before).run g = .ok (i :: bl, g₂)) ↔
      13 ≤ fh.data.length := by
  obtain ⟨hdata, haccepted⟩ := accepted_of_checkFileType hpos hok
  have hten := length_of_accepted haccepted
  have hne : g.data ≠ [] := by
    apply List.ne_nil_of_length_pos
    rw [hdata]
    omega
  have hrun := run_findBlockBoundaryCandidates before hne
  rw [← finds_iff before haccepted, ← bl_ne_nil_iff]
  rw [hdata] at hrun
  constructor
  · rintro ⟨-, i, bl, g₂, hlist⟩
    rw [hlist] at hrun
    have hbl : i :: bl = ((looks before fh.data).foldl (look fh.data) scanStart).bl :=
      congrArg Prod.fst (Except.ok.inj hrun)
    rw [← hbl]
    exact List.cons_ne_nil i bl
  · intro hbl
    constructor
    · intro buf g₁ hread p hp
      apply range_of_reaches _ hread hp
      rw [hdata]
      exact hten
    · obtain ⟨i, bl, hcons⟩ := List.exists_cons_of_ne_nil hbl
      rw [hcons] at hrun
      exact ⟨i, bl, _, hrun⟩

/-- A file that ends with its first magic number, and one that goes on for three bytes. -/
def cutFile : FileHandle where
  path := "a.bz2"
  data := Magic ++ (0x39 :: beBytes BlockMagicBytes BlockMagic.toNat)
  pos := 0

def shortFile : FileHandle where
  path := "a.bz2"
  data := Magic ++ (0x39 :: (beBytes BlockMagicBytes BlockMagic.toNat ++ [1, 2, 3]))
  pos := 0

theorem findBlockBoundaryCandidates_nonempty_short :
    (∀ buf g₁, (tryRead ChunkSize).run shortFile = .ok (buf, g₁) →
        ∀ p, Reaches (scanLoop (fun _ => 0) 13).toLoop.body ((buf, buf.length, scanStart), g₁) p →
          8 ≤ p.1.1.length) ∧
      ∃ i bl g₂, (findBlockBoundaryCandidates fun _ => 0).run { shortFile with pos := 10 } =
        .ok (i :: bl, g₂) :=
  (findBlockBoundaryCandidates_nonempty (fun _ => 0) "a.bz2" shortFile
    { shortFile with pos := 10 } rfl rfl).mpr (by decide)

theorem run_cutFile (before : Nat → UInt8) :
    (findBlockBoundaryCandidates before).run { cutFile with pos := 10 } =
      .ok ([], { cutFile with pos := 10 }) := by
  have hok : (checkFileType "a.bz2").run cutFile = .ok ((), { cutFile with pos := 10 }) := rfl
  obtain ⟨-, haccepted⟩ := accepted_of_checkFileType rfl hok
  have hrun := @run_findBlockBoundaryCandidates { cutFile with pos := 10 } before
    (List.cons_ne_nil _ _)
  have hempty : ((looks before cutFile.data).foldl (look cutFile.data) scanStart).bl = [] := by
    apply Decidable.not_not.mp
    rw [← ne_eq, bl_ne_nil_iff, finds_iff before haccepted]
    decide
  refine hrun.trans ?_
  show Except.ok (((looks before cutFile.data).foldl (look cutFile.data) scanStart).bl, _) = _
  rw [hempty]
  rfl

/-- The file that ends with the magic number is accepted, and nothing is found in it. -/
theorem cutFile_empty :
    (checkFileType "a.bz2").run cutFile = .ok ((), { cutFile with pos := 10 }) ∧
      (∀ before, (findBlockBoundaryCandidates before).run { cutFile with pos := 10 } =
        .ok ([], { cutFile with pos := 10 })) ∧
      ∀ bz before, buildIndex bz before 0 [] { cutFile with pos := 10 } = none := by
  refine ⟨rfl, run_cutFile, ?_⟩
  intro bz before
  rw [buildIndex, run_cutFile]

end Bzip2File

end Lzopfs
