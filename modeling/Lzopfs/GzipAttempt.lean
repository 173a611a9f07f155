import Lzopfs.GzipRuns

/-!
# Attempts to decode a block on its own

Between `save` and the turn that accepts or rejects the block, the live reader
belongs to the attempt and the reader put aside is not touched. A turn that goes
back puts that reader and its place in the file back as they were. What can go
wrong is that the attempt runs out of input: then the turn throws.
-/

namespace Lzopfs

open Verify FileHandle

namespace GzipFile

variable {z : Zlib} (wild : Reader z → UInt8) (mPath : String) (minBlock : Nat)

open Indexing

variable {fh : FileHandle} {s s' s₀ : Indexing z} {g g' g₀ : FileHandle} {err : Ret}

/-- `buildIndex` comes to examine the block that `s₀` is at. -/
def Examines (fh : FileHandle) (s₀ : Indexing z) (g₀ : FileHandle) : Prop :=
  ∃ s g, Indexes wild mPath minBlock fh s g ∧
    (turn mPath minBlock s).run g = .ok (.examine s₀, g₀)

/-- The states of the attempt that begins where `s₀` is examined. -/
inductive Attempt (s₀ : Indexing z) (g₀ : FileHandle) : Indexing z → FileHandle → Prop where
  | start : Attempt s₀ g₀ (s₀.examined wild g₀) g₀
  | goesOn {s s' : Indexing z} {g g' : FileHandle} (h : Attempt s₀ g₀ s g)
      (hturn : (turn mPath minBlock s).run g = .ok (.again s', g')) (hindep : s'.indep = true) :
      Attempt s₀ g₀ s' g'

variable {wild mPath minBlock}

/-- A turn that goes on examining a block was examining it before. -/
theorem turn_indep (h : InStep fh s g) (hturn : (turn mPath minBlock s).run g = .ok (.again s', g'))
    (hindep : s'.indep = true) : s.indep = true := by
  obtain ⟨rd, g₁, -, -, hcomes⟩ := h.comes hturn
  cases hcomes with
  | goesOn => exact hindep
  | passed hindep' => exact hindep'
  | goesBack hindep' => exact hindep'

/-- What the attempt leaves alone: the reader put aside, its place, and the list. -/
structure Attempt.Keeps (s₀ : Indexing z) (g₀ : FileHandle) (s : Indexing z) (g : FileHandle) :
    Prop where
  indep : s.indep = true
  save : s.rd.mSave = some s₀.rd.live
  saveSeek : s.rd.mSaveSeek = g₀.pos
  data : g.data = g₀.data
  path : g.path = g₀.path
  lastIdx : s.lastIdx = s₀.lastIdx
  mBlocks : s.mBlocks = s₀.mBlocks

theorem Attempt.keeps (h : Attempt wild mPath minBlock s₀ g₀ s g) : Attempt.Keeps s₀ g₀ s g := by
  induction h with
  | start => exact ⟨rfl, rfl, rfl, rfl, rfl, rfl, rfl⟩
  | goesOn _ hturn hindep ih =>
      rename_i s s' g g' _
      have hne : ¬ s.rd.live.Starved g := by
        intro hstarved
        rw [turn_starved hstarved] at hturn
        cases hturn
      obtain ⟨rd, g₁, hfed, -, ⟨hoff, -⟩ | ⟨t, g₂, hrun, hcomes⟩⟩ :=
        turn_comes mPath minBlock hne fun _ => ⟨_, ih.save⟩
      · rw [ih.indep] at hoff
        cases hoff
      · rw [hturn] at hrun
        cases hrun
        have hkeeps : Attempt.Keeps s₀ g₀ (s.stepped rd.inflate.1) g₁ :=
          ⟨ih.indep, ih.save, ih.saveSeek, hfed.data.trans ih.data, hfed.path.trans ih.path,
            ih.lastIdx, ih.mBlocks⟩
        cases hcomes with
        | goesOn => exact { hkeeps with }
        | passed => exact { hkeeps with }
        | goesBack _ _ hback =>
            rw [hback.live_eq.2] at hindep
            cases hindep

/-- While a block is being examined, there is an attempt under way. -/
theorem exists_attempt (h : Indexes wild mPath minBlock fh s g) (hindep : s.indep = true) :
    ∃ s₀ g₀, Examines wild mPath minBlock fh s₀ g₀ ∧ Attempt wild mPath minBlock s₀ g₀ s g := by
  have hstart : Indexes wild mPath minBlock fh (start z [] fh).1 (start z [] fh).2 :=
    Relation.ReflTransGen.refl
  refine Reaches.invariant (P := fun p => Indexes wild mPath minBlock fh p.1 p.2 ∧
    (p.1.indep = true → ∃ s₀ g₀, Examines wild mPath minBlock fh s₀ g₀ ∧
      Attempt wild mPath minBlock s₀ g₀ p.1 p.2)) h ⟨hstart, nofun⟩ ?_ |>.2 hindep
  rintro ⟨s, g⟩ ⟨s', g'⟩ ⟨hs, ih⟩ hpass
  refine ⟨hs.tail hpass, fun hindep' => ?_⟩
  obtain hrun | ⟨s₀, hrun, rfl⟩ := (pass_again wild).mp (onFile_again.mp hpass)
  · obtain ⟨s₀, g₀, hex, hat⟩ := ih (turn_indep (indexes_inStep hs) hrun hindep')
    exact ⟨s₀, g₀, hex, hat.goesOn hrun hindep'⟩
  · exact ⟨s₀, g', ⟨s, g, hs, hrun⟩, .start⟩

/-- A turn of the attempt does not throw, and if it goes back it leaves the live
reader, with its counters and its window, and the file as they were where the
attempt began. So every later step of that reader is the one it would have made
without the attempt. -/
structure HasNoEffect (mPath : String) (minBlock : Nat) (s₀ : Indexing z) (g₀ : FileHandle)
    (s : Indexing z) (g : FileHandle) : Prop where
  returns : ∃ t g', (turn mPath minBlock s).run g = .ok (t, g')
  goesBack : ∀ s' g', (turn mPath minBlock s).run g = .ok (.again s', g') → s'.indep = false →
    s'.rd.live = s₀.rd.live ∧ g' = g₀ ∧
      s'.rd.live.nextIn ++ g'.rest = g'.data.drop (g'.pos - s'.rd.live.availIn)

theorem Examines.inStep (h : Examines wild mPath minBlock fh s₀ g₀) : InStep fh s₀ g₀ := by
  obtain ⟨s, g, hs, hrun⟩ := h
  exact (((indexes_inStep hs).turn hrun).2 _ rfl).2

/-- Whatever the file holds and however an attempt ends, it has no effect exactly if
it never needs a byte behind the end of the file. -/
theorem Attempt.hasNoEffect_iff (hex : Examines wild mPath minBlock fh s₀ g₀)
    (h : Attempt wild mPath minBlock s₀ g₀ s g) :
    HasNoEffect mPath minBlock s₀ g₀ s g ↔ ¬ s.rd.live.Starved g := by
  constructor
  · rintro ⟨⟨t, g', hrun⟩, -⟩ hstarved
    rw [turn_starved hstarved] at hrun
    cases hrun
  · intro hne
    have hkeeps := h.keeps
    obtain ⟨rd, g₁, hfed, -, ⟨hoff, -⟩ | ⟨t, g₂, hrun, hcomes⟩⟩ :=
      turn_comes mPath minBlock hne fun _ => ⟨_, hkeeps.save⟩
    · rw [hkeeps.indep] at hoff
      cases hoff
    refine ⟨⟨t, g₂, hrun⟩, fun s' g' hrun' hoff => ?_⟩
    have hindep : (s.stepped rd.inflate.1).indep = true := hkeeps.indep
    rw [hrun] at hrun'
    cases hrun'
    cases hcomes with
    | goesOn =>
        rw [hindep] at hoff
        cases hoff
    | passed =>
        rw [hindep] at hoff
        cases hoff
    | goesBack _ hsave hback =>
        have hsaved : s.rd.mSave = some _ := hsave
        rw [hkeeps.save] at hsaved
        cases hsaved
        have hg : { g₁ with pos := (s.stepped rd.inflate.1).rd.mSaveSeek } = g₀ := by
          rw [FileHandle.mk.injEq]
          exact ⟨hfed.path.trans hkeeps.path, hfed.data.trans hkeeps.data, hkeeps.saveSeek⟩
        rw [hg, hback.live_eq.1]
        exact ⟨rfl, rfl, hex.inStep.live.unread.2⟩

/-- What zlib answers while the file below is indexed. Stream 0 decodes the member,
stream 4 its block on its own, and stream 7 what follows the block. -/
def probeReply : Nat → Buffer → Reply
  | 0, _ => ⟨1, 10, [], .ok, 128⟩
  | 1, _ => ⟨2, 6, [0xbf, 0xd5, 0xc8, 0xd0], .ok, 194⟩
  | 2, _ => ⟨3, 8, [], .streamEnd, 64⟩
  | 4, _ => ⟨5, 6, [0xbf, 0xd5, 0xc8, 0xd0], .ok, 194⟩
  | 5, _ => ⟨6, 0, [], .streamEnd, 64⟩
  | 7, _ => ⟨8, 8, [], .ok, 1⟩
  | _, _ => ⟨9, 0, [], .error (-2), 0⟩

/-- Four bytes compressed by gzip into one block. Two bits of the block's last byte
are left, and with them the trailer looks like the start of a block. -/
def probeFile : FileHandle where
  path := "probe.gz"
  data := [0x1f, 0x8b, 0x08, 0, 0, 0, 0, 0, 0, 3, 0xdb, 0x7f, 0xf5, 0xc4, 0x05, 0,
    0x99, 0xf9, 0xe7, 0x6a, 4, 0, 0, 0]
  pos := 0

/-- The passes over that file, with the default block factor. -/
def probePass : Indexing (Zlib.replay 4 7 probeReply) × FileHandle →
    Except Exn (Pass (Indexing (Zlib.replay 4 7 probeReply) × FileHandle)
      (List GzipBlock × FileHandle)) :=
  onFile (pass (fun _ => 0) "probe.gz" (32 * WindowSize))

/-- The first attempt on that file, at the block itself, has no effect. -/
theorem probe_first_attempt : ∃ s₀ g₀ s g,
    Attempt (fun _ => 0) "probe.gz" (32 * WindowSize) s₀ g₀ s g ∧
      HasNoEffect (z := Zlib.replay 4 7 probeReply) "probe.gz" (32 * WindowSize) s₀ g₀ s g := by
  have hrun : after probePass 1 (start _ [] probeFile) = some _ := rfl
  obtain ⟨s₀, g₀, hex, hat⟩ := exists_attempt (after_reaches hrun) rfl
  exact ⟨s₀, g₀, _, _, hat, (hat.hasNoEffect_iff hex).mpr fun h =>
    absurd h.1 (by decide +kernel)⟩

/-- The second attempt, at the trailer, uses up the file. -/
theorem probe_starved : ∃ s g,
    Indexes (z := Zlib.replay 4 7 probeReply) (fun _ => 0) "probe.gz" (32 * WindowSize)
      probeFile s g ∧ s.indep = true ∧ s.rd.live.Starved g := by
  have hrun : after probePass 5 (start _ [] probeFile) = some _ := rfl
  refine ⟨_, _, after_reaches hrun, ?_, ?_, ?_⟩
  · decide +kernel
  · decide +kernel
  · decide +kernel

/-- So the valid file cannot be indexed. -/
theorem probe_throws : ∃ s₀ g₀ s g,
    Examines (fun _ => 0) "probe.gz" (32 * WindowSize) probeFile s₀ g₀ ∧
      Attempt (fun _ => 0) "probe.gz" (32 * WindowSize) s₀ g₀ s g ∧
      ¬ HasNoEffect (z := Zlib.replay 4 7 probeReply) "probe.gz" (32 * WindowSize) s₀ g₀ s g := by
  obtain ⟨s, g, hs, hindep, hstarved⟩ := probe_starved
  obtain ⟨s₀, g₀, hex, hat⟩ := exists_attempt hs hindep
  refine ⟨s₀, g₀, s, g, hex, hat, fun ⟨⟨t, g', hok⟩, _⟩ => ?_⟩
  rw [turn_starved hstarved] at hok
  cases hok

end GzipFile

end Lzopfs
