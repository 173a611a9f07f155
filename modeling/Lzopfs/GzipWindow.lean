import Lzopfs.GzipReader

/-!
# The window of a saving reader

The output buffer of a reader is a ring: inflate writes where the last call stopped, and a
full buffer is only started again by the next step. Whatever is done with the two readers,
the window that is copied is a window that has slid over everything the reader in charge has
decoded.
-/

namespace Lzopfs

open FileHandle

namespace Reader

variable {z : Zlib} {rd rd' : Reader z} {fh g : FileHandle} {decoded : Buffer}

/-- What the next call of `inflate` produces. -/
def output (rd : Reader z) : Buffer := (z.inflate rd.mStream rd.nextIn rd.availOut).out

/-- The part of `step` in front of the call of `inflate`. -/
def ready (rd : Reader z) : FileM (Reader z) :=
  (fun rd => if rd.availOut = 0 then rd.writeOut else rd) <$>
    if rd.availIn = 0 then rd.moreData else pure rd

theorem step_eq_ready (rd : Reader z) : rd.step = (do
    let rd ← rd.ready
    return rd.inflate) := by
  rw [step, ready]
  split
  · rw [bind_map_left]
  · rw [map_pure, pure_bind, pure_bind]

theorem copyWindow_writeOut (h : rd.availOut = 0) : rd.writeOut.copyWindow = rd.copyWindow := by
  have hlen := rd.window
  simp only [copyWindow, writeOut, h, Nat.sub_self, Nat.sub_zero, List.drop_zero, List.take_zero,
    List.append_nil]
  rw [List.drop_eq_nil_of_le (Nat.le_of_eq hlen), List.take_of_length_le (Nat.le_of_eq hlen),
    List.nil_append]

/-- A call of `inflate` lets the window slide over its output. -/
theorem copyWindow_inflate (rd : Reader z) :
    rd.inflate.1.copyWindow = (rd.copyWindow ++ rd.output).drop rd.output.length := by
  have hout : rd.output.length ≤ rd.availOut :=
    (z.inflate rd.mStream rd.nextIn rd.availOut).out_le
  have havail := rd.availOut_le
  have hwindow := rd.window
  obtain ⟨p, hp⟩ : ∃ p, p = WindowSize - rd.availOut := ⟨_, rfl⟩
  have hnext : WindowSize - (rd.availOut - rd.output.length) = p + rd.output.length := by omega
  have hcopy : rd.inflate.1.copyWindow =
      (Buffer.blit rd.mOutBuf p rd.output).drop (p + rd.output.length) ++
        (Buffer.blit rd.mOutBuf p rd.output).take (p + rd.output.length) := by
    rw [← hnext, hp]
    rfl
  have hfront : (rd.mOutBuf.take p ++ rd.output).length = p + rd.output.length := by
    rw [List.length_append, List.length_take]
    omega
  rw [hcopy, Buffer.blit, ← hfront, List.drop_left, List.take_left, hfront, copyWindow, ← hp,
    List.append_assoc, List.drop_append_of_le_length, List.drop_drop]
  rw [List.length_drop]
  omega

/-- The window has slid over what was decoded; before that it held anything. -/
def Windowed (rd : Reader z) (decoded : Buffer) : Prop :=
  rd.obytes = decoded.length ∧ ∃ before, before.length = WindowSize ∧
    rd.copyWindow = (before ++ decoded).drop decoded.length

/-- A window that has not been written to. -/
theorem windowed_fresh (hout : rd.mOutBytes = 0) : rd.Windowed [] :=
  ⟨hout, rd.copyWindow, rd.length_copyWindow, (List.append_nil _).symm⟩

theorem Windowed.inflate (h : rd.Windowed decoded) :
    rd.inflate.1.Windowed (decoded ++ rd.output) := by
  obtain ⟨hbytes, before, hbefore, hwindow⟩ := h
  refine ⟨?_, before, hbefore, ?_⟩
  · show rd.mOutBytes + rd.output.length = _
    rw [List.length_append, ← hbytes]
    rfl
  · have hle : decoded.length ≤ (before ++ decoded).length := by
      rw [List.length_append]
      exact Nat.le_add_left _ _
    rw [copyWindow_inflate, hwindow, ← List.append_assoc, List.length_append, ← List.drop_drop,
      List.drop_append_of_le_length hle]

theorem Windowed.writeOut (h : rd.Windowed decoded) (hfull : rd.availOut = 0) :
    rd.writeOut.Windowed decoded := by
  obtain ⟨hbytes, before, hbefore, hwindow⟩ := h
  refine ⟨hbytes, before, hbefore, ?_⟩
  rw [copyWindow_writeOut hfull]
  exact hwindow

theorem Windowed.ready (h : rd.Windowed decoded) (hrun : rd.ready.run fh = .ok (rd', g)) :
    rd'.Windowed decoded := by
  rw [Reader.ready, map_eq_pure_bind] at hrun
  obtain ⟨rd₁, m, hread, hrest⟩ := FileM.of_run_bind_ok hrun
  have hsame : rd₁.Windowed decoded := by
    split at hread
    · obtain ⟨buf, m', -, hpure⟩ := FileM.of_run_bind_ok hread
      cases hpure
      exact h
    · cases hread
      exact h
  cases hrest
  split
  · exact hsame.writeOut ‹_›
  · exact hsame

/-- The end of the window is the end of what was decoded. -/
theorem Windowed.last (h : rd.Windowed decoded) :
    rd.copyWindow.drop (WindowSize - min WindowSize rd.obytes) =
      decoded.drop (rd.obytes - min WindowSize rd.obytes) := by
  obtain ⟨hbytes, before, hbefore, hwindow⟩ := h
  rw [hwindow, hbytes, List.drop_drop]
  obtain hle | hle := Nat.le_total WindowSize decoded.length
  · rw [Nat.min_eq_left hle, Nat.sub_self, Nat.add_zero, List.drop_append,
      List.drop_eq_nil_of_le (by omega), List.nil_append, hbefore]
  · rw [Nat.min_eq_right hle, Nat.sub_self, Nat.add_sub_of_le hle, ← hbefore, List.drop_left,
      List.drop_zero]

end Reader

/-- The calls that change a saving reader. -/
inductive ReaderCall where
  | step
  | save
  | restore
  deriving DecidableEq

/-- A call, on the reader alone. -/
def SavingReader.call {z : Zlib} (wild : Reader z → UInt8) (s : SavingReader z) :
    ReaderCall → FileM (SavingReader z)
  | .step => do
      let (live, _) ← s.live.step
      return { s with live }
  | .save => s.save wild
  | .restore => s.restore

def SavingReader.calls {z : Zlib} (wild : Reader z → UInt8) (s : SavingReader z)
    (cs : List ReaderCall) : FileM (SavingReader z) :=
  cs.foldlM (SavingReader.call wild) s

/-- A saving reader, with what each of its two readers has decoded. -/
structure Logged (z : Zlib) where
  rd : SavingReader z
  decoded : Buffer
  aside : Buffer

namespace Logged

variable {z : Zlib} {wild : Reader z → UInt8} {l l' : Logged z} {fh g : FileHandle}
  {c : ReaderCall} {cs : List ReaderCall}

def new (z : Zlib) : Logged z := ⟨SavingReader.new z, [], []⟩

def call (wild : Reader z → UInt8) (l : Logged z) : ReaderCall → FileM (Logged z)
  | .step => do
      let live ← l.rd.live.ready
      return ⟨{ l.rd with live := live.inflate.1 }, l.decoded ++ live.output, l.aside⟩
  | .save => do
      let rd ← l.rd.save wild
      return ⟨rd, [], l.decoded⟩
  | .restore => do
      let rd ← l.rd.restore
      return ⟨rd, l.aside, l.decoded⟩

def calls (wild : Reader z → UInt8) (l : Logged z) (cs : List ReaderCall) : FileM (Logged z) :=
  cs.foldlM (call wild) l

/-- Without the log a call is the call of the reader. -/
theorem erase_call (wild : Reader z → UInt8) (l : Logged z) (c : ReaderCall) :
    Logged.rd <$> l.call wild c = l.rd.call wild c := by
  cases c with
  | step =>
      rw [call, SavingReader.call, Reader.step_eq_ready]
      simp only [map_eq_pure_bind, bind_assoc, pure_bind]
  | save =>
      rw [call, SavingReader.call]
      simp only [map_eq_pure_bind, bind_assoc, pure_bind, bind_pure]
  | restore =>
      rw [call, SavingReader.call]
      simp only [map_eq_pure_bind, bind_assoc, pure_bind, bind_pure]

theorem erase_calls (wild : Reader z → UInt8) (l : Logged z) (cs : List ReaderCall) :
    Logged.rd <$> l.calls wild cs = l.rd.calls wild cs := by
  induction cs generalizing l with
  | nil => exact map_pure Logged.rd l
  | cons c cs ih =>
      rw [calls, SavingReader.calls, List.foldlM_cons, List.foldlM_cons, map_bind,
        ← erase_call wild l c, bind_map_left]
      exact congrArg (l.call wild c >>= ·) (funext ih)

/-- Each of the two windows has slid over what its reader has decoded. -/
def Windowed (l : Logged z) : Prop :=
  l.rd.live.Windowed l.decoded ∧ ∀ saved, l.rd.mSave = some saved → saved.Windowed l.aside

theorem windowed_new (z : Zlib) : (new z).Windowed := by
  refine ⟨Reader.windowed_fresh rfl, ?_⟩
  intro saved hsaved
  cases hsaved

theorem Windowed.call (h : l.Windowed) (hrun : (l.call wild c).run fh = .ok (l', g)) :
    l'.Windowed := by
  obtain ⟨hlive, haside⟩ := h
  cases c with
  | step =>
      obtain ⟨live, m, hready, hpure⟩ := FileM.of_run_bind_ok hrun
      cases hpure
      exact ⟨(hlive.ready hready).inflate, haside⟩
  | save =>
      obtain ⟨rd, m, hsave, hpure⟩ := FileM.of_run_bind_ok hrun
      cases hpure
      obtain ⟨pos, m', -, hpure⟩ := FileM.of_run_bind_ok hsave
      cases hpure
      refine ⟨Reader.windowed_fresh (SavingReader.takeOver_opos wild _ _).2, ?_⟩
      intro saved hsaved
      cases hsaved
      exact hlive
  | restore =>
      obtain ⟨rd, m, hrestore, hpure⟩ := FileM.of_run_bind_ok hrun
      cases hpure
      rw [SavingReader.restore] at hrestore
      cases hsave : l.rd.mSave with
      | none =>
          rw [hsave] at hrestore
          cases hrestore
      | some saved =>
          rw [hsave] at hrestore
          obtain ⟨pos, m', -, hpure⟩ := FileM.of_run_bind_ok hrestore
          cases hpure
          refine ⟨haside saved hsave, ?_⟩
          intro saved' hsaved
          cases hsaved
          exact hlive

theorem Windowed.calls (h : l.Windowed) (hrun : (l.calls wild cs).run fh = .ok (l', g)) :
    l'.Windowed := by
  induction cs generalizing l fh with
  | nil =>
      cases hrun
      exact h
  | cons c cs ih =>
      rw [Logged.calls, List.foldlM_cons] at hrun
      obtain ⟨l₁, m, hcall, hrest⟩ := FileM.of_run_bind_ok hrun
      exact ih (h.call hcall) hrest

/-- After any calls, the window that is copied has its full size and ends with the end of
what the reader in charge has decoded. -/
theorem calls_copyWindow (hrun : ((new z).calls wild cs).run fh = .ok (l', g)) :
    ((SavingReader.new z).calls wild cs).run fh = .ok (l'.rd, g) ∧
      l'.rd.live.copyWindow.length = WindowSize ∧ l'.rd.live.obytes = l'.decoded.length ∧
        l'.rd.live.copyWindow.drop (WindowSize - min WindowSize l'.rd.live.obytes) =
          l'.decoded.drop (l'.rd.live.obytes - min WindowSize l'.rd.live.obytes) := by
  have h := ((windowed_new z).calls hrun).1
  refine ⟨?_, l'.rd.live.length_copyWindow, h.1, h.last⟩
  have herase : ((new z).calls wild cs >>= fun l => pure l.rd) =
      (SavingReader.new z).calls wild cs :=
    (map_eq_pure_bind Logged.rd _).symm.trans (erase_calls wild (new z) cs)
  rw [← herase, FileM.run_bind_ok hrun]
  rfl

/-- An inflate that takes a byte and produces one: a 7 in the first stream, an 8 in a raw one. -/
def oneByOne : Zlib :=
  Zlib.replay 1 1 fun i _ => ⟨i, 1, [if i = 0 then 7 else 8], .ok, 0⟩

/-- A raw decode that was undone leaves nothing in the window. -/
theorem calls_copyWindow_restored : ∃ l' g,
    ((new oneByOne).calls (fun _ => 0) [.step, .save, .step, .step, .restore]).run
        ⟨"f.gz", [1, 2, 3, 4], 0⟩ = .ok (l', g) ∧ l'.decoded = [7] ∧
      ((SavingReader.new oneByOne).calls (fun _ => 0) [.step, .save, .step, .step, .restore]).run
          ⟨"f.gz", [1, 2, 3, 4], 0⟩ = .ok (l'.rd, g) ∧
        l'.rd.live.copyWindow.length = WindowSize ∧ l'.rd.live.obytes = l'.decoded.length ∧
          l'.rd.live.copyWindow.drop (WindowSize - min WindowSize l'.rd.live.obytes) =
            l'.decoded.drop (l'.rd.live.obytes - min WindowSize l'.rd.live.obytes) := by
  obtain ⟨⟨l', g⟩, hrun, hdecoded⟩ : ∃ p, ((new oneByOne).calls (fun _ => 0)
      [.step, .save, .step, .step, .restore]).run ⟨"f.gz", [1, 2, 3, 4], 0⟩ = .ok p ∧
        p.1.decoded = [7] := ⟨_, rfl, rfl⟩
  exact ⟨l', g, hrun, hdecoded, calls_copyWindow hrun⟩

end Logged

end Lzopfs
