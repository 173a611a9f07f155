import Lzopfs.Basic
import Lzopfs.Lib.Endian
import Lzopfs.Lib.Loop

/-!
# File handles

A handle is the contents of an open file and the read/write position. A read
returns all the bytes there are, up to the number asked for; a seek may leave
the position past the end of the file, and the next read then meets the end.

A reader of an index or of a compressed file is a sequence of reads and seeks.
On a file cut short such a reader does what it does on the whole file until it
meets the cut, and then fails: `CutStable` says so, and is closed under
sequencing and looping.
-/

namespace Lzopfs

open Verify

structure FileHandle where
  path : String
  data : Buffer
  pos : Nat

/-- A computation on an open file that may throw. -/
abbrev FileM := StateT FileHandle (Except Exn)

section Run

variable {α β : Type} {x : FileM α} {f : α → FileM β} {fh g : FileHandle} {a : α} {e : Exn}

theorem FileM.run_bind_ok (h : x.run fh = .ok (a, g)) : (x >>= f).run fh = (f a).run g := by
  rw [StateT.run_bind, h]
  rfl

theorem FileM.run_bind_error (h : x.run fh = .error e) : (x >>= f).run fh = .error e := by
  rw [StateT.run_bind, h]
  rfl

/-- A sequence that returns has returned from both of its parts. -/
theorem FileM.of_run_bind_ok {out : β × FileHandle} (h : (x >>= f).run fh = .ok out) :
    ∃ a g, x.run fh = .ok (a, g) ∧ (f a).run g = .ok out := by
  cases hx : x.run fh with
  | error e => rw [FileM.run_bind_error hx] at h; cases h
  | ok p => exact ⟨p.1, p.2, rfl, by rwa [FileM.run_bind_ok hx] at h⟩

end Run

namespace FileHandle

inductive Whence where
  | set
  | cur
  | end

/-- `EINVAL`, the error of a seek to before the start of the file. -/
def EINVAL : Nat := 22

def throwEx {α : Type} (call : String) (err : Nat) : FileM α := fun fh =>
  .error (.sys (call ++ " error for file " ++ fh.path) err)

/-- Throw when a check fails. -/
def throwIf (c : Prop) [Decidable c] (e : Exn) : FileM Unit :=
  if c then throw e else pure ()

/-- Run a computation only if a condition holds. -/
def doIf (c : Prop) [Decidable c] (x : FileM Unit) : FileM Unit :=
  if c then x else pure ()

def path' : FileM String := fun fh => .ok (fh.path, fh)

/-- At the end of the file, or when no byte is asked for, there is nothing to
return and the source throws. -/
def tryRead (size : Nat) : FileM Buffer := fun fh =>
  let bytes := (fh.data.drop fh.pos).take size
  if bytes = [] then .error (.eof fh.path)
  else .ok (bytes, { fh with pos := fh.pos + bytes.length })

def read (size : Nat) : FileM Buffer := do
  let path ← path'
  let bytes ← tryRead size
  if bytes.length < size then throw (.eof path) else return bytes

/-- Positioned reads leave the handle as it is. -/
def tryPRead (fh : FileHandle) (off size : Nat) : Except Exn Buffer :=
  let bytes := (fh.data.drop off).take size
  if bytes = [] then .error (.eof fh.path) else .ok bytes

def pread (fh : FileHandle) (off size : Nat) : Except Exn Buffer := do
  let bytes ← fh.tryPRead off size
  if bytes.length < size then throw (.eof fh.path) else return bytes

/-- A positioned read at an `off_t`, which may be negative. -/
def tryPReadAt (fh : FileHandle) (off : Int) (size : Nat) : Except Exn Buffer :=
  if off < 0 then .error (.sys ("pread error for file " ++ fh.path) EINVAL)
  else fh.tryPRead off.toNat size

def preadAt (fh : FileHandle) (off : Int) (size : Nat) : Except Exn Buffer := do
  let bytes ← fh.tryPReadAt off size
  if bytes.length < size then throw (.eof fh.path) else return bytes

/-- What can be read from an offset on. -/
def restAt (fh : FileHandle) (off : Int) : Buffer :=
  if off < 0 then [] else fh.data.drop off.toNat

theorem tryPReadAt_sub (fh : FileHandle) {m n : Nat} (h : n ≤ m) (size : Nat) :
    fh.tryPReadAt ((m : Int) - n) size = fh.tryPRead (m - n) size := by
  rw [← Int.ofNat_sub h]
  exact if_neg (Int.not_lt.mpr (Int.natCast_nonneg _))

/-- A positioned read gives the first bytes of what is there, at least one. -/
theorem tryPReadAt_ok {fh : FileHandle} {off : Int} {size : Nat} {bytes : Buffer}
    (h : fh.tryPReadAt off size = .ok bytes) :
    bytes ≠ [] ∧ fh.restAt off = bytes ++ fh.restAt (off + bytes.length) ∧
      bytes = (fh.restAt off).take size := by
  rw [tryPReadAt] at h
  by_cases hneg : off < 0
  · rw [if_pos hneg] at h
    cases h
  · rw [if_neg hneg, tryPRead] at h
    split at h
    · cases h
    · rename_i hne
      cases h
      have hnat : (off + ((fh.data.drop off.toNat).take size).length).toNat =
          off.toNat + ((fh.data.drop off.toNat).take size).length := by omega
      have htake : ((fh.data.drop off.toNat).take size).length ≤ size := List.length_take_le _ _
      refine ⟨hne, ?_, ?_⟩
      · rw [restAt, restAt, if_neg hneg, if_neg (by omega), hnat, ← List.drop_drop,
          List.length_take]
        conv_lhs => rw [← List.take_append_drop size (fh.data.drop off.toNat)]
        congr 1
        obtain hle | hle := Nat.le_total size (fh.data.drop off.toNat).length
        · rw [Nat.min_eq_left hle]
        · rw [Nat.min_eq_right hle, List.drop_length, List.drop_eq_nil_of_le hle]
      · rw [restAt, if_neg hneg]

/-- It fails where nothing is left. -/
theorem tryPReadAt_error {fh : FileHandle} {off : Int} {size : Nat} {e : Exn} (hsize : 0 < size)
    (h : fh.tryPReadAt off size = .error e) : fh.restAt off = [] := by
  rw [tryPReadAt] at h
  by_cases hneg : off < 0
  · rw [restAt, if_pos hneg]
  · rw [if_neg hneg, tryPRead] at h
    split at h
    · rename_i hnil
      rw [restAt, if_neg hneg]
      obtain h0 | h0 := List.take_eq_nil_iff.mp hnil
      · omega
      · exact h0
    · cases h

def write (buf : Buffer) : FileM Unit := fun fh =>
  .ok ((),
    { fh with data := Buffer.blit (Buffer.resize fh.data (max fh.data.length fh.pos)) fh.pos buf,
                     pos := fh.pos + buf.length })

def seek (offset : Int) (whence : Whence) : FileM Nat := fun fh =>
  let base : Int := match whence with
    | .set => 0
    | .cur => fh.pos
    | .end => fh.data.length
  if base + offset < 0 then throwEx "seek" EINVAL fh
  else .ok ((base + offset).toNat, { fh with pos := (base + offset).toNat })

/-- A relative seek whose result is not used. -/
def seekBy (offset : Nat) : FileM Unit := do
  let _ ← seek offset .cur

def tell : FileM Nat := seek 0 .cur

def size : FileM Nat := do
  let cur ← tell
  let _ ← seek 0 .end
  let size ← tell
  let _ ← seek cur .set
  return size

/-- `readBE` of a `size`-byte number. -/
def readBE (size : Nat) : FileM Nat := do
  let bytes ← read size
  return ofBE bytes

def readBE8 : FileM UInt8 := do return UInt8.ofNat (← readBE 1)
def readBE16 : FileM UInt16 := do return UInt16.ofNat (← readBE 2)
def readBE32 : FileM UInt32 := do return UInt32.ofNat (← readBE 4)
def readBE64 : FileM UInt64 := do return UInt64.ofNat (← readBE 8)

/-- `readLE` of a `size`-byte number. -/
def readLE (size : Nat) : FileM Nat := do
  let bytes ← read size
  return ofLE bytes

def readLE8 : FileM UInt8 := do return UInt8.ofNat (← readLE 1)
def readLE32 : FileM UInt32 := do return UInt32.ofNat (← readLE 4)

/-- `writeBE` of a `size`-byte number. -/
def writeBE (size v : Nat) : FileM Unit := write (beBytes size v)

def writeBE8 (v : UInt8) : FileM Unit := writeBE 1 v.toNat
def writeBE32 (v : UInt32) : FileM Unit := writeBE 4 v.toNat
def writeBE64 (v : UInt64) : FileM Unit := writeBE 8 v.toNat

/-- `catch (FileHandle::EOFException&)` around a computation. -/
def catchEOF {α : Type} (x : FileM α) (e : Exn) : FileM α := fun fh =>
  match x.run fh with
  | .error (.eof _) => .error e
  | out => out

/-- The bytes from the position to the end of the file. -/
def rest (fh : FileHandle) : Buffer := fh.data.drop fh.pos

/-- The number of bytes from the position to the end of the file. -/
def remaining (fh : FileHandle) : Nat := fh.data.length - fh.pos

/-- Move the position forward. -/
def skip (fh : FileHandle) (n : Nat) : FileHandle := { fh with pos := fh.pos + n }

section Skip

variable (fh : FileHandle) (m n : Nat)

@[simp] theorem skip_pos : (fh.skip n).pos = fh.pos + n := rfl
@[simp] theorem skip_data : (fh.skip n).data = fh.data := rfl
@[simp] theorem skip_path : (fh.skip n).path = fh.path := rfl
@[simp] theorem skip_zero : fh.skip 0 = fh := rfl

@[simp] theorem skip_skip : (fh.skip m).skip n = fh.skip (m + n) := by
  simp [skip, Nat.add_assoc]

@[simp] theorem rest_skip : (fh.skip n).rest = fh.rest.drop n := by
  simp [rest, skip]

theorem length_rest : fh.rest.length = fh.remaining := by
  simp [rest, remaining]

end Skip

variable {fh : FileHandle}

theorem rest_of_append {front back : Buffer} (hd : fh.data = front ++ back)
    (hp : fh.pos = front.length) : fh.rest = back := by
  simp [rest, hd, hp]

theorem run_tryRead {n : Nat} (hne : fh.rest.take n ≠ []) :
    (tryRead n).run fh = .ok (fh.rest.take n, fh.skip (fh.rest.take n).length) :=
  if_neg hne

theorem rest_skip_append {as tl : Buffer} {n : Nat} (hr : fh.rest = as ++ tl)
    (hn : as.length = n) : (fh.skip n).rest = tl := by
  rw [rest_skip, hr, ← hn, List.drop_left]

/-- A read of a positive number of bytes returns them all or meets the end. -/
theorem run_read {n : Nat} (hn : 0 < n) :
    (read n).run fh =
      if n ≤ fh.rest.length then .ok (fh.rest.take n, fh.skip n) else .error (.eof fh.path) := by
  have hpath : path'.run fh = .ok (fh.path, fh) := rfl
  rw [read, FileM.run_bind_ok hpath]
  by_cases hne : fh.rest.take n = []
  · have hlen : ¬ n ≤ fh.rest.length := by
      have := congrArg List.length hne
      rw [List.length_take, List.length_nil] at this
      omega
    rw [if_neg hlen]
    exact FileM.run_bind_error (if_pos hne)
  · rw [FileM.run_bind_ok (run_tryRead hne), List.length_take]
    by_cases hle : n ≤ fh.rest.length
    · rw [Nat.min_eq_left hle, if_neg (Nat.lt_irrefl n), if_pos hle]
      rfl
    · rw [if_pos (by omega), if_neg hle]
      rfl

/-- Asking for no bytes meets the end of the file, as it does in the source. -/
theorem run_read_zero : (read 0).run fh = .error (.eof fh.path) := by
  have hpath : path'.run fh = .ok (fh.path, fh) := rfl
  have htry : (tryRead 0).run fh = .error (.eof fh.path) := rfl
  rw [read, FileM.run_bind_ok hpath, FileM.run_bind_error htry]

theorem read_ok {bs tl : Buffer} (hne : bs ≠ []) (hr : fh.rest = bs ++ tl) :
    (read bs.length).run fh = .ok (bs, fh.skip bs.length) := by
  rw [run_read (List.length_pos_iff.mpr hne), if_pos (by simp [hr]), hr, List.take_left]

theorem read_ok_iff {n : Nat} (hn : 0 < n) {bs : Buffer} {g : FileHandle} :
    (read n).run fh = .ok (bs, g) ↔
      n ≤ fh.rest.length ∧ bs = fh.rest.take n ∧ g = fh.skip n := by
  rw [run_read hn]
  split
  · rename_i h
    simp only [Except.ok.injEq, Prod.mk.injEq, h, true_and]
    exact ⟨fun ⟨h1, h2⟩ => ⟨h1.symm, h2.symm⟩, fun ⟨h1, h2⟩ => ⟨h1.symm, h2.symm⟩⟩
  · simp [*]

theorem run_readBE {n v : Nat} {tl : Buffer} (hn : 0 < n) (hv : v < 256 ^ n)
    (hr : fh.rest = beBytes n v ++ tl) : (readBE n).run fh = .ok (v, fh.skip n) := by
  have hne : beBytes n v ≠ [] := List.ne_nil_of_length_pos (by simpa using hn)
  have hread := read_ok hne hr
  rw [length_beBytes] at hread
  rw [readBE, FileM.run_bind_ok hread, ofBE_beBytes hv]
  rfl

/-- A big-endian read returns the number of the next bytes, if there are so many. -/
theorem run_readBE_iff {n v : Nat} {g : FileHandle} (hn : 0 < n) :
    (readBE n).run fh = .ok (v, g) ↔
      n ≤ fh.rest.length ∧ v = ofBE (fh.rest.take n) ∧ g = fh.skip n := by
  constructor
  · intro h
    obtain ⟨bs, g', hread, hret⟩ := FileM.of_run_bind_ok h
    obtain ⟨hle, rfl, rfl⟩ := (read_ok_iff hn).mp hread
    cases hret
    exact ⟨hle, rfl, rfl⟩
  · rintro ⟨hle, rfl, rfl⟩
    rw [readBE, FileM.run_bind_ok ((read_ok_iff hn).mpr ⟨hle, rfl, rfl⟩)]
    rfl

/-- A big-endian read that returns has found that many bytes. -/
theorem run_readBE_inv {n v : Nat} {g : FileHandle} (hn : 0 < n)
    (h : (readBE n).run fh = .ok (v, g)) : n ≤ fh.rest.length ∧ g = fh.skip n := by
  obtain ⟨hle, -, hg⟩ := (run_readBE_iff hn).mp h
  exact ⟨hle, hg⟩

section Typed

variable {tl : Buffer} {g : FileHandle}

theorem run_readBE8 {v : UInt8} (hr : fh.rest = beBytes 1 v.toNat ++ tl) :
    readBE8.run fh = .ok (v, fh.skip 1) := by
  rw [readBE8, FileM.run_bind_ok (run_readBE Nat.one_pos v.toNat_lt hr), UInt8.ofNat_toNat]
  rfl

theorem run_readBE16 {v : UInt16} (hr : fh.rest = beBytes 2 v.toNat ++ tl) :
    readBE16.run fh = .ok (v, fh.skip 2) := by
  rw [readBE16, FileM.run_bind_ok (run_readBE Nat.two_pos v.toNat_lt hr), UInt16.ofNat_toNat]
  rfl

theorem run_readBE32 {v : UInt32} (hr : fh.rest = beBytes 4 v.toNat ++ tl) :
    readBE32.run fh = .ok (v, fh.skip 4) := by
  rw [readBE32, FileM.run_bind_ok (run_readBE (by decide) v.toNat_lt hr), UInt32.ofNat_toNat]
  rfl

theorem run_readBE64 {v : UInt64} (hr : fh.rest = beBytes 8 v.toNat ++ tl) :
    readBE64.run fh = .ok (v, fh.skip 8) := by
  rw [readBE64, FileM.run_bind_ok (run_readBE (by decide) v.toNat_lt hr), UInt64.ofNat_toNat]
  rfl

theorem run_readBE32_inv {v : UInt32} (h : readBE32.run fh = .ok (v, g)) :
    4 ≤ fh.rest.length ∧ g = fh.skip 4 := by
  obtain ⟨n, g', hread, hret⟩ := FileM.of_run_bind_ok h
  cases hret
  exact run_readBE_inv (by decide) hread

/-- A little-endian read takes its bytes off what is left to read, if they are there. -/
theorem run_readLE_iff {n v : Nat} (hn : 0 < n) : (readLE n).run fh = .ok (v, g) ↔
    v < 256 ^ n ∧ fh.rest = leBytes n v ++ g.rest ∧ g = fh.skip n := by
  constructor
  · intro h
    obtain ⟨bs, g', hread, hret⟩ := FileM.of_run_bind_ok h
    obtain ⟨hle, rfl, rfl⟩ := (read_ok_iff hn).mp hread
    cases hret
    have hlen : (fh.rest.take n).length = n := by
      rw [List.length_take]
      omega
    have hback := leBytes_ofLE (fh.rest.take n)
    have hlt := ofLE_lt (fh.rest.take n)
    rw [hlen] at hback hlt
    refine ⟨hlt, ?_, rfl⟩
    rw [hback, rest_skip, List.take_append_drop]
  · rintro ⟨hlt, hr, rfl⟩
    have hne : leBytes n v ≠ [] := List.ne_nil_of_length_pos (by simpa using hn)
    have hread := read_ok hne hr
    rw [length_leBytes] at hread
    rw [readLE, FileM.run_bind_ok hread, ofLE_leBytes hlt]
    rfl

theorem run_readLE8_iff {v : UInt8} : readLE8.run fh = .ok (v, g) ↔
    fh.rest = leBytes 1 v.toNat ++ g.rest ∧ g = fh.skip 1 := by
  constructor
  · intro h
    obtain ⟨n, g', hread, hret⟩ := FileM.of_run_bind_ok h
    obtain ⟨hlt, hr, rfl⟩ := (run_readLE_iff Nat.one_pos).mp hread
    cases hret
    have hmod : n % 2 ^ 8 = n := by omega
    rw [UInt8.toNat_ofNat', hmod]
    exact ⟨hr, rfl⟩
  · rintro ⟨hr, rfl⟩
    rw [readLE8, FileM.run_bind_ok ((run_readLE_iff Nat.one_pos).mpr ⟨v.toNat_lt, hr, rfl⟩),
      UInt8.ofNat_toNat]
    rfl

theorem run_readLE32_iff {v : UInt32} : readLE32.run fh = .ok (v, g) ↔
    fh.rest = leBytes 4 v.toNat ++ g.rest ∧ g = fh.skip 4 := by
  constructor
  · intro h
    obtain ⟨n, g', hread, hret⟩ := FileM.of_run_bind_ok h
    obtain ⟨hlt, hr, rfl⟩ := (run_readLE_iff (by decide)).mp hread
    cases hret
    have hmod : n % 2 ^ 32 = n := by omega
    rw [UInt32.toNat_ofNat', hmod]
    exact ⟨hr, rfl⟩
  · rintro ⟨hr, rfl⟩
    rw [readLE32, FileM.run_bind_ok ((run_readLE_iff (by decide)).mpr ⟨v.toNat_lt, hr, rfl⟩),
      UInt32.ofNat_toNat]
    rfl

end Typed

theorem run_seek_iff {offset : Int} {whence : Whence} {p : Nat} {g : FileHandle} {base : Int}
    (hbase : base = match whence with
      | .set => 0
      | .cur => (fh.pos : Int)
      | .end => (fh.data.length : Int)) :
    (seek offset whence).run fh = .ok (p, g) ↔
      base + offset = (p : Int) ∧ g = { fh with pos := p } := by
  simp only [seek, StateT.run, ← hbase]
  by_cases hneg : base + offset < 0
  · rw [if_pos hneg]
    constructor
    · exact nofun
    · rintro ⟨heq, -⟩
      omega
  · rw [if_neg hneg]
    constructor
    · intro h
      cases h
      exact ⟨by omega, rfl⟩
    · rintro ⟨heq, rfl⟩
      have hp : (base + offset).toNat = p := by omega
      rw [hp]

theorem run_seek_cur (n : Nat) : (seek n .cur).run fh = .ok (fh.pos + n, fh.skip n) := by
  have hpos : ¬ ((fh.pos : Int) + n < 0) := by omega
  have hnat : ((fh.pos : Int) + n).toNat = fh.pos + n := by omega
  simp only [seek, StateT.run, if_neg hpos, hnat, skip]

theorem run_seek_set (n : Nat) :
    (seek n .set).run fh = .ok (n, { fh with pos := n }) := by
  have hpos : ¬ ((0 : Int) + n < 0) := by omega
  have hnat : ((0 : Int) + n).toNat = n := by omega
  simp only [seek, StateT.run, if_neg hpos, hnat]

theorem run_seekBy (n : Nat) : (seekBy n).run fh = .ok ((), fh.skip n) := by
  rw [seekBy, FileM.run_bind_ok (run_seek_cur n)]
  rfl

theorem run_throwIf {c : Prop} [Decidable c] {e : Exn} (h : ¬ c) :
    (throwIf c e).run fh = .ok ((), fh) := by
  rw [throwIf, if_neg h]
  rfl

theorem of_throwIf_ok {c : Prop} [Decidable c] {e : Exn} {g : FileHandle}
    (h : (throwIf c e).run fh = .ok ((), g)) : ¬ c ∧ g = fh := by
  rw [throwIf] at h
  split at h
  · cases h
  · cases h
    exact ⟨‹_›, rfl⟩

/-- What follows a check that has not thrown. -/
theorem of_throwIf_bind_ok {α : Type} {c : Prop} [Decidable c] {e : Exn} {x : FileM α}
    {out : α × FileHandle} (h : (throwIf c e >>= fun _ => x).run fh = .ok out) :
    ¬ c ∧ x.run fh = .ok out := by
  obtain ⟨⟨⟩, g, hcheck, hrest⟩ := FileM.of_run_bind_ok h
  obtain ⟨hc, rfl⟩ := of_throwIf_ok hcheck
  exact ⟨hc, hrest⟩

theorem run_catchEOF_ok {α : Type} {x : FileM α} {e : Exn} {a : α} {g : FileHandle}
    (h : (catchEOF x e).run fh = .ok (a, g)) : x.run fh = .ok (a, g) := by
  simp only [catchEOF, StateT.run] at h ⊢
  split at h
  · cases h
  · exact h

theorem run_catchEOF {α : Type} {x : FileM α} {e : Exn} {a : α} {g : FileHandle}
    (h : x.run fh = .ok (a, g)) : (catchEOF x e).run fh = .ok (a, g) := by
  simp only [catchEOF, StateT.run] at h ⊢
  rw [h]

theorem run_tell : tell.run fh = .ok (fh.pos, fh) := run_seek_cur 0

theorem run_size : size.run fh = .ok (fh.data.length, fh) := by
  have hend : (seek 0 .end).run fh =
      .ok (fh.data.length, { fh with pos := fh.data.length }) := by
    have hpos : ¬ ((fh.data.length : Int) < 0) := by omega
    simp only [seek, StateT.run, Int.add_zero, if_neg hpos, Int.toNat_natCast]
  rw [size, FileM.run_bind_ok run_tell, FileM.run_bind_ok hend, FileM.run_bind_ok run_tell,
    FileM.run_bind_ok (run_seek_set fh.pos)]
  rfl

/-- Append bytes to the file and leave the position behind them. -/
def append (fh : FileHandle) (buf : Buffer) : FileHandle :=
  { fh with data := fh.data ++ buf, pos := fh.data.length + buf.length }

/-- The position is at the end of the file, as after every sequential write. -/
def AtEnd (fh : FileHandle) : Prop := fh.pos = fh.data.length

theorem atEnd_append (fh : FileHandle) (buf : Buffer) : (fh.append buf).AtEnd := by
  simp [AtEnd, append]

@[simp] theorem append_data (buf : Buffer) : (fh.append buf).data = fh.data ++ buf := rfl

theorem append_append (as bs : Buffer) : (fh.append as).append bs = fh.append (as ++ bs) := by
  simp [append, Nat.add_assoc]

theorem append_nil (h : fh.AtEnd) : fh.append [] = fh := by
  cases fh
  simp_all [append, AtEnd]

theorem run_write (h : fh.AtEnd) (buf : Buffer) :
    (write buf).run fh = .ok ((), fh.append buf) := by
  have hpos : fh.pos = fh.data.length := h
  have hblit : Buffer.blit (Buffer.resize fh.data (max fh.data.length fh.pos)) fh.pos buf =
      fh.data ++ buf := by
    simp [Buffer.blit, Buffer.resize, hpos]
  simp only [write, StateT.run, hblit]
  rw [append, hpos]

theorem run_writeBE (h : fh.AtEnd) (n v : Nat) :
    (writeBE n v).run fh = .ok ((), fh.append (beBytes n v)) :=
  run_write h _

/-- The same handle on the first `k` bytes of the file. -/
def cut (fh : FileHandle) (k : Nat) : FileHandle := { fh with data := fh.data.take k }

@[simp] theorem cut_pos (k : Nat) : (fh.cut k).pos = fh.pos := rfl
@[simp] theorem cut_path (k : Nat) : (fh.cut k).path = fh.path := rfl
@[simp] theorem cut_skip (k n : Nat) : (fh.skip n).cut k = (fh.cut k).skip n := rfl

theorem length_cut_data (k : Nat) : (fh.cut k).data.length = min k fh.data.length := by
  simp [cut]

theorem rest_cut (k : Nat) : (fh.cut k).rest = fh.rest.take (k - fh.pos) := by
  simp only [cut, rest]
  rw [List.drop_take]

end FileHandle

open FileHandle

/-- A computation that does on a file cut short what it does on the whole file,
unless it fails there. -/
def CutStable {α : Type} (x : FileM α) : Prop :=
  ∀ ⦃fh a g⦄, x.run fh = .ok (a, g) → ∀ k,
    x.run (fh.cut k) = .ok (a, g.cut k) ∨ ∃ e, x.run (fh.cut k) = .error e

namespace CutStable

variable {α β : Type}

theorem pure (a : α) : CutStable (Pure.pure a) := by
  intro fh b g h k
  cases h
  exact .inl rfl

theorem throw (e : Exn) : CutStable (MonadExcept.throw e : FileM α) := by
  intro fh a g h
  cases h

theorem bind {x : FileM α} {f : α → FileM β} (hx : CutStable x) (hf : ∀ a, CutStable (f a)) :
    CutStable (x >>= f) := by
  intro fh b g h k
  obtain ⟨a, m, hxa, hfa⟩ := FileM.of_run_bind_ok h
  obtain hcut | ⟨e, he⟩ := hx hxa k
  · rw [FileM.run_bind_ok hcut]
    exact hf a hfa k
  · exact .inr ⟨e, FileM.run_bind_error he⟩

theorem ite {c : Prop} [Decidable c] {x y : FileM α} (hx : CutStable x) (hy : CutStable y) :
    CutStable (if c then x else y) := by
  split
  · exact hx
  · exact hy

theorem read (n : Nat) : CutStable (read n) := by
  intro fh bs g h k
  obtain rfl | hn := Nat.eq_zero_or_pos n
  · rw [run_read_zero] at h
    cases h
  obtain ⟨hle, rfl, rfl⟩ := (read_ok_iff hn).mp h
  rw [run_read hn]
  split
  · rename_i hcut
    have htake : (fh.cut k).rest.take n = fh.rest.take n := by
      rw [rest_cut, List.length_take] at hcut
      rw [rest_cut, List.take_take, Nat.min_eq_left (by omega)]
    exact .inl (by rw [htake, cut_skip])
  · exact .inr ⟨_, rfl⟩

theorem readBE (n : Nat) : CutStable (readBE n) :=
  (read n).bind fun _ => pure _

theorem readBE8 : CutStable readBE8 := (readBE _).bind fun _ => pure _
theorem readBE16 : CutStable readBE16 := (readBE _).bind fun _ => pure _
theorem readBE32 : CutStable readBE32 := (readBE _).bind fun _ => pure _
theorem readBE64 : CutStable readBE64 := (readBE _).bind fun _ => pure _

theorem seek_cur (n : Nat) : CutStable (seek n .cur) := by
  intro fh a g h k
  rw [run_seek_cur] at h
  cases h
  exact .inl (run_seek_cur n)

theorem seek_set (n : Nat) : CutStable (seek n .set) := by
  intro fh a g h k
  rw [run_seek_set] at h
  cases h
  exact .inl (run_seek_set n)

theorem tell : CutStable tell := seek_cur 0

theorem seekBy (n : Nat) : CutStable (seekBy n) := (seek_cur n).bind fun _ => pure _

theorem throwIf (c : Prop) [Decidable c] (e : Exn) : CutStable (throwIf c e) :=
  ite (throw e) (pure ())

theorem doIf (c : Prop) [Decidable c] {x : FileM Unit} (hx : CutStable x) :
    CutStable (doIf c x) :=
  ite hx (pure ())

theorem catchEOF {x : FileM α} (hx : CutStable x) (e : Exn) : CutStable (catchEOF x e) := by
  intro fh a g h k
  obtain hcut | ⟨e', he⟩ := hx (run_catchEOF_ok h) k
  · exact .inl (run_catchEOF hcut)
  · right
    simp only [FileHandle.catchEOF, StateT.run] at he ⊢
    rw [he]
    cases e' <;> exact ⟨_, rfl⟩

end CutStable

/-- A computation that ends with the position inside the file, as one does that
ends with a read. -/
def Inside {α : Type} (x : FileM α) : Prop :=
  ∀ ⦃fh a g⦄, x.run fh = .ok (a, g) → g.pos ≤ g.data.length

namespace Inside

variable {α β : Type}

theorem read (n : Nat) : Inside (read n) := by
  intro fh bs g h
  obtain rfl | hn := Nat.eq_zero_or_pos n
  · rw [run_read_zero] at h
    cases h
  obtain ⟨hle, -, rfl⟩ := (read_ok_iff hn).mp h
  rw [length_rest, remaining] at hle
  rw [skip_pos, skip_data]
  omega

theorem bind {x : FileM α} {f : α → FileM β} (hf : ∀ a, Inside (f a)) : Inside (x >>= f) := by
  intro fh b g h
  obtain ⟨a, m, -, hfa⟩ := FileM.of_run_bind_ok h
  exact hf a hfa

/-- Only a result is put together behind the last read. -/
theorem map {x : FileM α} (hx : Inside x) (f : α → β) :
    Inside (x >>= fun a => Pure.pure (f a)) := by
  intro fh b g h
  obtain ⟨a, m, hxa, hret⟩ := FileM.of_run_bind_ok h
  cases hret
  exact hx hxa

theorem readBE (n : Nat) : Inside (readBE n) := (read n).map _

theorem readBE8 : Inside readBE8 := (readBE _).map _
theorem readBE32 : Inside readBE32 := (readBE _).map _
theorem readBE64 : Inside readBE64 := (readBE _).map _

end Inside

/-- A computation that stays in the same file and does not move back. -/
def Forward {α : Type} (x : FileM α) : Prop :=
  ∀ ⦃fh a g⦄, x.run fh = .ok (a, g) → g.data = fh.data ∧ fh.pos ≤ g.pos

namespace Forward

variable {α β : Type}

theorem pos_le {x : FileM α} {fh g : FileHandle} {a : α} (hx : Forward x)
    (h : x.run fh = .ok (a, g)) : fh.pos ≤ g.pos :=
  (hx h).2

theorem pure (a : α) : Forward (Pure.pure a) := by
  intro fh b g h
  cases h
  exact ⟨rfl, Nat.le_refl _⟩

theorem throw (e : Exn) : Forward (MonadExcept.throw e : FileM α) := by
  intro fh a g h
  cases h

theorem bind {x : FileM α} {f : α → FileM β} (hx : Forward x) (hf : ∀ a, Forward (f a)) :
    Forward (x >>= f) := by
  intro fh b g h
  obtain ⟨a, m, hxa, hfa⟩ := FileM.of_run_bind_ok h
  obtain ⟨hd, hp⟩ := hx hxa
  obtain ⟨hd', hp'⟩ := hf a hfa
  exact ⟨hd'.trans hd, Nat.le_trans hp hp'⟩

theorem ite {c : Prop} [Decidable c] {x y : FileM α} (hx : Forward x) (hy : Forward y) :
    Forward (if c then x else y) := by
  split
  · exact hx
  · exact hy

theorem read {n : Nat} (hn : 0 < n) : Forward (read n) := by
  intro fh bs g h
  obtain ⟨-, -, rfl⟩ := (read_ok_iff hn).mp h
  exact ⟨rfl, Nat.le_add_right _ _⟩

theorem readBE {n : Nat} (hn : 0 < n) : Forward (readBE n) :=
  (read hn).bind fun _ => pure _

theorem readBE8 : Forward readBE8 := (readBE (by decide)).bind fun _ => pure _
theorem readBE16 : Forward readBE16 := (readBE (by decide)).bind fun _ => pure _
theorem readBE32 : Forward readBE32 := (readBE (by decide)).bind fun _ => pure _
theorem readBE64 : Forward readBE64 := (readBE (by decide)).bind fun _ => pure _

theorem seekBy (n : Nat) : Forward (seekBy n) := by
  intro fh a g h
  rw [run_seekBy] at h
  cases h
  exact ⟨rfl, Nat.le_add_right _ _⟩

theorem tell : Forward tell := by
  intro fh a g h
  rw [run_tell] at h
  cases h
  exact ⟨rfl, Nat.le_refl _⟩

theorem throwIf (c : Prop) [Decidable c] (e : Exn) : Forward (throwIf c e) :=
  ite (throw e) (pure ())

theorem doIf (c : Prop) [Decidable c] {x : FileM Unit} (hx : Forward x) :
    Forward (doIf c x) :=
  ite hx (pure ())

end Forward

/-- The body of a loop on its locals together with the open file. -/
def onFile {σ ρ : Type} (body : σ → FileM (Pass σ ρ)) (p : σ × FileHandle) :
    Except Exn (Pass (σ × FileHandle) (ρ × FileHandle)) :=
  match (body p.1).run p.2 with
  | .error e => .error e
  | .ok (.again s, g) => .ok (.again (s, g))
  | .ok (.done r, g) => .ok (.done (r, g))

section OnFile

variable {σ ρ : Type} {body : σ → FileM (Pass σ ρ)} {s s' : σ} {fh g : FileHandle} {r : ρ} {e : Exn}

theorem onFile_again : onFile body (s, fh) = .ok (.again (s', g)) ↔
    (body s).run fh = .ok (.again s', g) := by
  simp only [onFile]
  split <;> simp_all

theorem onFile_done : onFile body (s, fh) = .ok (.done (r, g)) ↔
    (body s).run fh = .ok (.done r, g) := by
  simp only [onFile]
  split <;> simp_all

theorem onFile_error : onFile body (s, fh) = .error e ↔ (body s).run fh = .error e := by
  simp only [onFile]
  split <;> simp_all

end OnFile

/-- A reading loop: every pass that goes round again has consumed input. -/
structure FileLoop (σ ρ : Type) where
  body : σ → FileM (Pass σ ρ)
  consumes : ∀ {s s' fh g}, (body s).run fh = .ok (.again s', g) → g.remaining < fh.remaining

namespace FileLoop

variable {σ ρ : Type}

/-- The loop on its locals together with the open file. -/
def toLoop (l : FileLoop σ ρ) : Loop Exn (σ × FileHandle) (ρ × FileHandle) where
  body := onFile l.body
  variant p := p.2.remaining
  decreases {p p'} h := by
    simp only [onFile] at h
    split at h
    · cases h
    · rename_i hb
      cases h
      exact l.consumes hb
    · cases h

def run (l : FileLoop σ ρ) (s : σ) : FileM ρ := fun fh => l.toLoop.run (s, fh)

variable {l : FileLoop σ ρ} {s s' : σ} {r : ρ} {e : Exn} {fh g : FileHandle}

theorem run_error (h : (l.body s).run fh = .error e) : (l.run s).run fh = .error e :=
  Loop.run_error (l := l.toLoop) (s := (s, fh)) (onFile_error.mpr h)

theorem run_done (h : (l.body s).run fh = .ok (.done r, g)) : (l.run s).run fh = .ok (r, g) :=
  Loop.run_done (l := l.toLoop) (s := (s, fh)) (onFile_done.mpr h)

theorem run_again (h : (l.body s).run fh = .ok (.again s', g)) :
    (l.run s).run fh = (l.run s').run g :=
  Loop.run_again (l := l.toLoop) (s := (s, fh)) (onFile_again.mpr h)

/-- Induction over the passes of a reading loop. -/
theorem run_induction {motive : σ → FileHandle → Except Exn (ρ × FileHandle) → Prop}
    (error : ∀ s fh e, (l.body s).run fh = .error e → motive s fh (.error e))
    (done : ∀ s fh r g, (l.body s).run fh = .ok (.done r, g) → motive s fh (.ok (r, g)))
    (again : ∀ s fh s' g, (l.body s).run fh = .ok (.again s', g) →
      motive s' g ((l.run s').run g) → motive s fh ((l.run s').run g))
    (s : σ) (fh : FileHandle) : motive s fh ((l.run s).run fh) := by
  refine Loop.run_induction (l := l.toLoop) (motive := fun p => motive p.1 p.2) ?_ ?_ ?_ (s, fh)
  · exact fun p e h => error _ _ _ (onFile_error.mp h)
  · exact fun p r h => done _ _ _ _ (onFile_done.mp h)
  · exact fun p p' h hm => again _ _ _ _ (onFile_again.mp h) hm

/-- A loop that returns has come to a pass that leaves with that result. -/
theorem of_run_ok {motive : σ → FileHandle → ρ → FileHandle → Prop}
    (done : ∀ s fh r g, (l.body s).run fh = .ok (.done r, g) → motive s fh r g)
    (again : ∀ s fh s' m r g, (l.body s).run fh = .ok (.again s', m) →
      motive s' m r g → motive s fh r g)
    (h : (l.run s).run fh = .ok (r, g)) : motive s fh r g := by
  have key : ∀ r g, (l.run s).run fh = .ok (r, g) → motive s fh r g :=
    run_induction (l := l)
      (motive := fun s fh out => ∀ r g, out = .ok (r, g) → motive s fh r g)
      (fun _ _ _ _ _ _ he => by cases he)
      (fun _ _ _ _ hb _ _ he => by cases he; exact done _ _ _ _ hb)
      (fun _ _ _ _ hb ih r g he => again _ _ _ _ _ _ hb (ih r g he)) s fh
  exact key r g h

/-- A loop ends inside the file if its last pass does. -/
theorem inside (hbody : ∀ s fh r g, (l.body s).run fh = .ok (.done r, g) → g.pos ≤ g.data.length)
    (s : σ) : Inside (l.run s) := by
  intro fh r g h
  exact of_run_ok (motive := fun _ _ _ g => g.pos ≤ g.data.length) hbody
    (fun _ _ _ _ _ _ _ ih => ih) h

/-- A loop of forward passes is forward. -/
theorem forward (hbody : ∀ s, Forward (l.body s)) (s : σ) : Forward (l.run s) := by
  intro fh r g h
  refine of_run_ok (motive := fun _ fh _ g => g.data = fh.data ∧ fh.pos ≤ g.pos) ?_ ?_ h
  · intro s fh r g hb
    exact hbody s hb
  · intro s fh s' m r g hb ih
    obtain ⟨hd, hp⟩ := hbody s hb
    exact ⟨ih.1.trans hd, Nat.le_trans hp ih.2⟩

/-- A loop of cut-stable passes is cut-stable. -/
theorem cutStable (hbody : ∀ s, CutStable (l.body s)) (s : σ) : CutStable (l.run s) := by
  intro fh r g h k
  refine of_run_ok (motive := fun s fh r g => (l.run s).run (fh.cut k) = .ok (r, g.cut k) ∨
    ∃ e, (l.run s).run (fh.cut k) = .error e) ?_ ?_ h
  · intro s fh r g hb
    obtain hcut | ⟨e, he⟩ := hbody s hb k
    · exact .inl (run_done hcut)
    · exact .inr ⟨e, run_error he⟩
  · intro s fh s' m r g hb ih
    obtain hcut | ⟨e, he⟩ := hbody s hb k
    · rw [run_again hcut]
      exact ih
    · exact .inr ⟨e, run_error he⟩

end FileLoop

end Lzopfs
