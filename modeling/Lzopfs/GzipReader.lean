import Lzopfs.CompressedFile

/-!
# Reading gzip streams block by block

A reader feeds chunks of the file to zlib's `inflate` and keeps the last 32 KiB
of output in a ring. `SavingReader` also keeps a second reader: `save` puts the
live reader aside and starts a raw one at the same place of the file, `restore`
exchanges the two again. zlib is not part of the source, so `inflate` is a
parameter; nothing is assumed of it here.
-/

namespace Lzopfs

open FileHandle

/-- `1 << MAX_WBITS`. -/
def WindowSize : Nat := 32768

theorem windowSize_pos : 0 < WindowSize := by decide

inductive Wrapper where
  | Gzip
  | Raw
  deriving DecidableEq, Repr

/-- What `inflate` returns: `Z_OK`, `Z_STREAM_END` or an error. -/
inductive Ret where
  | ok
  | streamEnd
  | error (code : Int)
  deriving DecidableEq, Repr

/-- The effect of one call of `inflate`. -/
structure Inflated (Stream : Type) (availIn availOut : Nat) where
  stream : Stream
  consumed : Nat
  out : Buffer
  ret : Ret
  dataType : Nat
  consumed_le : consumed ≤ availIn
  out_le : out.length ≤ availOut

/-- zlib, as far as a reader uses it. `inflateInit2` and `inflateReset2` both
leave a stream in its initial state. -/
structure Zlib where
  Stream : Type
  init : Wrapper → Stream
  /-- `inflatePrime` of so many bits. -/
  prime : Stream → Nat → UInt8 → Stream
  /-- `inflate` with `Z_BLOCK`. -/
  inflate : Stream → (input : Buffer) → (availOut : Nat) → Inflated Stream input.length availOut
  msg : Stream → String

/-- An answer of `inflate`, and the stream it leaves. -/
structure Reply where
  next : Nat
  consumed : Nat
  out : Buffer
  ret : Ret
  dataType : Nat

/-- A zlib that answers from a table, by the number of the stream and the input.
Raw streams start as number `raw`, and priming makes them number `primed`. -/
def Zlib.replay (raw primed : Nat) (reply : Nat → Buffer → Reply) : Zlib where
  Stream := Nat
  init w := if w = .Gzip then 0 else raw
  prime _ _ _ := primed
  inflate i input availOut :=
    let r := reply i input
    { stream := r.next
      consumed := min r.consumed input.length
      out := r.out.take availOut
      ret := r.ret
      dataType := r.dataType
      consumed_le := Nat.min_le_right _ _
      out_le := by
        rw [List.length_take]
        exact Nat.min_le_left _ _ }
  msg _ := "(null)"

/-- A `PositionedGzipReader` with its window. `availOut` bytes at the end of `mOutBuf`
and `availIn` bytes at the end of `mInput` are left. -/
structure Reader (z : Zlib) where
  mStream : z.Stream
  dataType : Nat
  mInput : Buffer
  availIn : Nat
  mOutBuf : Buffer
  availOut : Nat
  mOutBytes : Nat
  mInitOutPos : Nat
  mWrap : Wrapper
  availIn_le : availIn ≤ mInput.length
  availOut_le : availOut ≤ WindowSize
  window : mOutBuf.length = WindowSize

namespace Reader

variable {z : Zlib}

/-- A new reader at the start of a file. -/
def new (z : Zlib) : Reader z where
  mStream := z.init .Gzip
  dataType := 0
  mInput := []
  availIn := 0
  mOutBuf := Buffer.resize [] WindowSize
  availOut := WindowSize
  mOutBytes := 0
  mInitOutPos := 0
  mWrap := .Gzip
  availIn_le := Nat.le_refl _
  availOut_le := Nat.le_refl _
  window := Buffer.length_resize _ _

variable (rd : Reader z)

/-- The input not yet consumed. -/
def nextIn : Buffer := rd.mInput.drop (rd.mInput.length - rd.availIn)

theorem length_nextIn : rd.nextIn.length = rd.availIn := by
  have := rd.availIn_le
  rw [nextIn, List.length_drop]
  omega

def ibits : Fin 8 := ⟨rd.dataType % 8, Nat.mod_lt _ (by decide)⟩
def obytes : Nat := rd.mOutBytes
def opos : Nat := rd.mInitOutPos + rd.obytes

/-- Is the reader at the end of a block, or of a header? -/
def atBlock : Bool := rd.dataType / 128 % 2 = 1

def ipos : FileM Nat := do
  let pos ← tell
  return pos - rd.availIn

def moreData : FileM (Reader z) := do
  let mInput ← tryRead ChunkSize
  return { rd with mInput := mInput, availIn := mInput.length, availIn_le := Nat.le_refl _ }

/-- A full window is written again from its start. -/
def writeOut : Reader z := { rd with availOut := WindowSize, availOut_le := Nat.le_refl _ }

/-- One call of `inflate`: consume input and put output into the window. -/
def inflate : Reader z × Ret :=
  let r := z.inflate rd.mStream rd.nextIn rd.availOut
  ({ rd with
    mStream := r.stream
    dataType := r.dataType
    availIn := rd.availIn - r.consumed
    mOutBuf := Buffer.blit rd.mOutBuf (WindowSize - rd.availOut) r.out
    availOut := rd.availOut - r.out.length
    mOutBytes := rd.mOutBytes + r.out.length
    availIn_le := Nat.le_trans (Nat.sub_le _ _) rd.availIn_le
    availOut_le := Nat.le_trans (Nat.sub_le _ _) rd.availOut_le
    window := by
      have hout := r.out_le
      have havail := rd.availOut_le
      have hwindow := rd.window
      rw [Buffer.length_blit (by omega), hwindow] }, r.ret)

def step : FileM (Reader z × Ret) := do
  let rd ← if rd.availIn = 0 then rd.moreData else pure rd
  let rd := if rd.availOut = 0 then rd.writeOut else rd
  return rd.inflate

def reset (w : Wrapper) : Reader z := { rd with mStream := z.init w, mWrap := w }

/-- The byte before `next_in`. Before the start of the buffer it is whatever
memory holds there. -/
def byteBefore (wild : Reader z → UInt8) : UInt8 :=
  if rd.availIn < rd.mInput.length then
    (rd.mInput.drop (rd.mInput.length - rd.availIn - 1)).headD 0
  else wild rd

/-- Prime the stream with the upper bits of a byte. -/
def primeWith (byte : UInt8) (bits : Fin 8) : Reader z :=
  if bits ≠ 0 then
    { rd with mStream := z.prime rd.mStream bits (UInt8.ofNat (byte.toNat >>> (8 - bits.val))) }
  else rd

def skipFooter : FileM (Reader z) :=
  if rd.mWrap = .Gzip then return rd -- the footer has been processed
  else if rd.availIn < 8 then do
    seekBy (8 - rd.availIn)
    return { rd with availIn := 0, availIn_le := Nat.zero_le _ }
  else
    return { rd with availIn := rd.availIn - 8
                     availIn_le := Nat.le_trans (Nat.sub_le _ _) rd.availIn_le }

/-- The window with the bytes written last at its end. -/
def copyWindow : Buffer :=
  rd.mOutBuf.drop (WindowSize - rd.availOut) ++ rd.mOutBuf.take (WindowSize - rd.availOut)

theorem length_copyWindow : rd.copyWindow.length = WindowSize := by
  have := rd.window
  simp only [copyWindow, List.length_append, List.length_drop, List.length_take]
  omega

/-- The input buffer is the part of the file that ends at the position. -/
def Backed (rd : Reader z) (fh : FileHandle) : Prop :=
  rd.mInput.length ≤ fh.pos ∧ rd.mInput ++ fh.rest = fh.data.drop (fh.pos - rd.mInput.length)

/-- The input in hand, if there is any, is the file's. -/
def Synced (rd : Reader z) (fh : FileHandle) : Prop :=
  rd.availIn = 0 ∨ rd.Backed fh

/-- There is no input in hand, and none left in the file. -/
def Starved (rd : Reader z) (fh : FileHandle) : Prop :=
  rd.availIn = 0 ∧ fh.rest = []

variable {rd} {rd' : Reader z} {fh fh' : FileHandle}

/-- `ipos` is the offset of the first byte that was not consumed. -/
theorem Synced.unread (h : rd.Synced fh) :
    rd.availIn ≤ fh.pos ∧ rd.nextIn ++ fh.rest = fh.data.drop (fh.pos - rd.availIn) := by
  obtain h | ⟨hle, hdata⟩ := h
  · rw [nextIn, h, Nat.sub_zero, Nat.sub_zero, List.drop_length]
    exact ⟨Nat.zero_le _, rfl⟩
  · have hin := rd.availIn_le
    refine ⟨Nat.le_trans hin hle, ?_⟩
    have := congrArg (List.drop (rd.mInput.length - rd.availIn)) hdata
    rw [List.drop_append_of_le_length (Nat.sub_le _ _), List.drop_drop] at this
    rw [nextIn, this]
    congr 1
    omega

/-- The byte in front of the input is the file's, if it is in the buffer. -/
theorem Backed.byteBefore (h : rd.Backed fh) (wild : Reader z → UInt8)
    (hin : rd.availIn < rd.mInput.length) : ∃ n, fh.pos - rd.availIn = n + 1 ∧
      fh.data.drop n = rd.byteBefore wild :: fh.data.drop (n + 1) := by
  obtain ⟨hle, hdata⟩ := h
  refine ⟨fh.pos - rd.availIn - 1, by omega, ?_⟩
  have hdrop := congrArg (List.drop (rd.mInput.length - rd.availIn - 1)) hdata
  rw [List.drop_append_of_le_length (by omega), List.drop_drop] at hdrop
  have hidx : fh.pos - rd.mInput.length + (rd.mInput.length - rd.availIn - 1) =
      fh.pos - rd.availIn - 1 := by omega
  rw [hidx] at hdrop
  cases hbyte : rd.mInput.drop (rd.mInput.length - rd.availIn - 1) with
  | nil =>
      have hlen := congrArg List.length hbyte
      rw [List.length_drop, List.length_nil] at hlen
      omega
  | cons byte tl =>
      rw [hbyte, List.cons_append] at hdrop
      rw [Reader.byteBefore, if_pos hin, hbyte, List.headD_cons, ← hdrop, ← List.drop_drop,
        ← hdrop]
      rfl

theorem run_ipos : rd.ipos.run fh = .ok (fh.pos - rd.availIn, fh) := by
  rw [ipos, FileM.run_bind_ok run_tell]
  rfl

/-- `rd'` is `rd` with input in hand and room for output. -/
structure Fed (rd rd' : Reader z) (fh fh' : FileHandle) : Prop where
  input : 0 < rd'.availIn
  room : 0 < rd'.availOut
  stream : rd'.mStream = rd.mStream
  outBytes : rd'.mOutBytes = rd.mOutBytes
  initOutPos : rd'.mInitOutPos = rd.mInitOutPos
  wrap : rd'.mWrap = rd.mWrap
  data : fh'.data = fh.data
  path : fh'.path = fh.path
  ipos : fh'.pos - rd'.availIn = fh.pos - rd.availIn
  backed : rd.Synced fh → rd'.Backed fh'

theorem Backed.inflate (h : rd.Backed fh) : rd.inflate.1.Backed fh := h

theorem Synced.reset {w : Wrapper} (h : rd.Synced fh) : (rd.reset w).Synced fh := h

/-- Skipping the footer of a raw stream moves past eight bytes. -/
theorem run_skipFooter (h : rd.Synced fh) :
    ∃ rd' fh', rd.skipFooter.run fh = .ok (rd', fh') ∧ rd'.Synced fh' ∧
      fh'.data = fh.data ∧ fh'.path = fh.path ∧ rd'.mWrap = rd.mWrap ∧ rd'.opos = rd.opos ∧
      rd'.dataType = rd.dataType ∧ rd'.mStream = rd.mStream ∧ 
      fh'.pos - rd'.availIn = fh.pos - rd.availIn + if rd.mWrap = .Gzip then 0 else 8 := by
  have hle := h.unread.1
  rw [skipFooter]
  by_cases hw : rd.mWrap = .Gzip
  · rw [if_pos hw, if_pos hw]
    exact ⟨rd, fh, rfl, h, rfl, rfl, rfl, rfl, rfl, rfl, rfl⟩
  · rw [if_neg hw, if_neg hw]
    by_cases hin : rd.availIn < 8
    · rw [if_pos hin, FileM.run_bind_ok (run_seekBy _)]
      refine ⟨_, _, rfl, .inl rfl, rfl, rfl, rfl, rfl, rfl, rfl, ?_⟩
      simp only [skip_pos]
      omega
    · rw [if_neg hin]
      refine ⟨_, _, rfl, ?_, rfl, rfl, rfl, rfl, rfl, rfl, ?_⟩
      · exact h.elim (fun h0 => .inl (by simp only [h0, Nat.zero_sub])) .inr
      · simp only
        omega

theorem step_starved (h : rd.Starved fh) : rd.step.run fh = .error (.eof fh.path) := by
  have hnil : (fh.data.drop fh.pos).take ChunkSize = [] := by
    have := h.2
    rw [rest] at this
    rw [this, List.take_nil]
  have hread : (tryRead ChunkSize).run fh = .error (.eof fh.path) := by
    simp only [tryRead, StateT.run, hnil, if_true]
  rw [step, if_pos h.1]
  exact FileM.run_bind_error (FileM.run_bind_error hread)

/-- A reader that has input in hand. -/
theorem step_of_input (fh : FileHandle) (h : rd.availIn ≠ 0) :
    ∃ rd', rd.Fed rd' fh fh ∧ rd.step.run fh = .ok (rd'.inflate, fh) := by
  have hpure : StateT.run (m := Except Exn) (pure rd) fh = .ok (rd, fh) := rfl
  rw [step, if_neg h, FileM.run_bind_ok hpure]
  have hbacked : rd.Synced fh → rd.Backed fh := fun hs => hs.resolve_left h
  by_cases hout : rd.availOut = 0
  · refine ⟨rd.writeOut, ⟨Nat.pos_of_ne_zero h, windowSize_pos, rfl, rfl, rfl, rfl, rfl, rfl, rfl,
      hbacked⟩, ?_⟩
    simp only [hout, if_true]
    rfl
  · refine ⟨rd, ⟨Nat.pos_of_ne_zero h, Nat.pos_of_ne_zero hout, rfl, rfl, rfl, rfl, rfl, rfl, rfl,
      hbacked⟩, ?_⟩
    simp only [hout, if_false]
    rfl

/-- A reader with input left, in hand or in the file, makes a step. -/
theorem step_fed (h : ¬ rd.Starved fh) :
    ∃ rd' fh', rd.Fed rd' fh fh' ∧ rd.step.run fh = .ok (rd'.inflate, fh') := by
  by_cases hin : rd.availIn = 0
  · have hrest : fh.rest ≠ [] := fun hr => h ⟨hin, hr⟩
    have hne : fh.rest.take ChunkSize ≠ [] := by
      rw [ne_eq, List.take_eq_nil_iff, not_or]
      exact ⟨by decide, hrest⟩
    let chunk := fh.rest.take ChunkSize
    let rd₁ : Reader z := { rd with
      mInput := chunk, availIn := chunk.length, availIn_le := Nat.le_refl _ }
    have hmore : rd.moreData.run fh = .ok (rd₁, fh.skip chunk.length) := by
      rw [moreData, FileM.run_bind_ok (run_tryRead hne)]
      rfl
    have hpos : 0 < rd₁.availIn := List.length_pos_iff.mpr hne
    obtain ⟨rd', hfed, hstep⟩ := step_of_input (fh.skip chunk.length) (Nat.ne_of_gt hpos)
    have hbacked : rd₁.Backed (fh.skip chunk.length) := by
      refine ⟨Nat.le_add_left _ _, ?_⟩
      have hlen : chunk.length = min ChunkSize fh.rest.length := List.length_take
      have hdrop : fh.rest.drop chunk.length = fh.rest.drop ChunkSize := by
        rw [hlen]
        obtain hle | hle := Nat.le_total ChunkSize fh.rest.length
        · rw [Nat.min_eq_left hle]
        · rw [Nat.min_eq_right hle, List.drop_length, List.drop_eq_nil_of_le hle]
      rw [rest_skip, hdrop, List.take_append_drop, skip_pos, Nat.add_sub_cancel]
      rfl
    refine ⟨rd', _, ⟨hfed.input, hfed.room, hfed.stream, hfed.outBytes, hfed.initOutPos,
      hfed.wrap, hfed.data, hfed.path, ?_, fun _ => hfed.backed (.inr hbacked)⟩, ?_⟩
    · rw [hfed.ipos, hin]
      simp only [skip_pos, rd₁]
      omega
    · rw [← hstep, step, if_pos hin, FileM.run_bind_ok hmore, step, if_neg (Nat.ne_of_gt hpos)]
      rfl
  · obtain ⟨rd', hfed, hstep⟩ := step_of_input fh hin
    exact ⟨rd', fh, hfed, hstep⟩

end Reader

/-- A `SavingGzipReader`: the live reader, and the one put aside. -/
structure SavingReader (z : Zlib) where
  live : Reader z
  mSave : Option (Reader z)
  mSaveSeek : Nat

namespace SavingReader

variable {z : Zlib}

def new (z : Zlib) : SavingReader z := ⟨Reader.new z, none, 0⟩

/-- The reader that takes over from `saved`: raw, on the same input, primed with
the bits of the last byte that were not used, and with its window started again.
It reuses the reader put aside before, if there is one. -/
def takeOver (wild : Reader z → UInt8) (spare : Option (Reader z)) (saved : Reader z) : Reader z :=
  let rd : Reader z :=
    { mStream := z.init .Raw
      dataType := (spare.map Reader.dataType).getD 0
      mInput := saved.mInput
      availIn := saved.availIn
      mOutBuf := Buffer.resize ((spare.map Reader.mOutBuf).getD []) WindowSize
      availOut := WindowSize
      mOutBytes := 0
      mInitOutPos := saved.opos
      mWrap := .Raw
      availIn_le := saved.availIn_le
      availOut_le := Nat.le_refl _
      window := Buffer.length_resize _ _ }
  rd.primeWith (saved.byteBefore wild) saved.ibits

theorem takeOver_synced (wild : Reader z → UInt8) (spare : Option (Reader z)) {saved : Reader z}
    {fh : FileHandle} (h : saved.Synced fh) : (takeOver wild spare saved).Synced fh := by
  rw [takeOver, Reader.primeWith]
  split <;> exact h

theorem takeOver_opos (wild : Reader z → UInt8) (spare : Option (Reader z)) (saved : Reader z) :
    (takeOver wild spare saved).mInitOutPos = saved.opos ∧
      (takeOver wild spare saved).mOutBytes = 0 := by
  rw [takeOver, Reader.primeWith]
  split <;> exact ⟨rfl, rfl⟩

theorem takeOver_input (wild : Reader z → UInt8) (spare : Option (Reader z)) (saved : Reader z) :
    (takeOver wild spare saved).availIn = saved.availIn ∧
      (takeOver wild spare saved).mWrap = .Raw := by
  rw [takeOver, Reader.primeWith]
  split <;> exact ⟨rfl, rfl⟩

theorem takeOver_stream (wild : Reader z → UInt8) (spare : Option (Reader z)) (saved : Reader z) :
    (takeOver wild spare saved).mStream =
      if saved.ibits ≠ 0 then z.prime (z.init .Raw) saved.ibits
        (UInt8.ofNat ((saved.byteBefore wild).toNat >>> (8 - saved.ibits.val)))
      else z.init .Raw := by
  rw [takeOver, Reader.primeWith]
  split <;> rfl

/-- Put the live reader aside and go on with a raw one from the same place. -/
def save (wild : Reader z → UInt8) (s : SavingReader z) : FileM (SavingReader z) := do
  let mSaveSeek ← tell
  return ⟨takeOver wild s.mSave s.live, some s.live, mSaveSeek⟩

/-- Exchange the two readers and go back in the file. -/
def restore (s : SavingReader z) : FileM (SavingReader z) :=
  match s.mSave with
  | none => throw (.runtime "no saved state")
  | some saved => do
      let _ ← seek s.mSaveSeek .set
      return ⟨saved, some s.live, s.mSaveSeek⟩

end SavingReader

end Lzopfs
