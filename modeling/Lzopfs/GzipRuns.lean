import Lzopfs.GzipFile

/-!
# The turns of gzip indexing

`Comes` lists what a turn of the indexing loop can do once the reader has made its
step, and `turn_comes` says that it does nothing else. Everything proved about
runs of the loop goes through these cases. While a block is being examined the
only way for a turn to fail is that the file has no byte left for the reader.
-/

namespace Lzopfs

open Verify FileHandle

namespace GzipFile

variable {z : Zlib}

namespace Indexing

/-- The state once the reader has made its step. -/
def stepped (s : Indexing z) (live : Reader z) : Indexing z :=
  { s with rd := { s.rd with live := live }, inBlock := false }

/-- Back to the reader put aside. -/
def restored (s : Indexing z) (saved : Reader z) : Indexing z :=
  { s with indep := false, rd := ⟨saved, some s.rd.live, s.rd.mSaveSeek⟩ }

/-- The live reader's place is recorded, with its window. -/
def withDict (s : Indexing z) (ipos : Nat) : Indexing z :=
  { s with
    mBlocks := addBlock s.mBlocks s.rd.live.opos ipos
      { newBlock s.rd.live.opos ipos s.rd.live.ibits with
        dict := s.rd.live.copyWindow
        dict_length := s.dict_window }
    lastIdx := s.rd.live.opos }

/-- A block being examined is accepted. -/
def settled (s : Indexing z) : Indexing z := if s.indep then s.accept else s

/-- Has the decode being tried come far enough? -/
def Suffices (s : Indexing z) (err : Ret) : Prop :=
  s.rd.live.obytes > WindowSize ∨ err = .streamEnd

/-- Does `rd.block()` return without an error? -/
def Returns (s : Indexing z) (err : Ret) : Prop :=
  err = .streamEnd ∨ err = .ok ∧ s.rd.live.atBlock = true

end Indexing

open Indexing

/-- How a turn goes back to the reader `saved`, which is at `ipos`. -/
inductive GoesBack (minBlock : Nat) (s : Indexing z) (err : Ret) (saved : Reader z) (ipos : Nat) :
    Indexing z → Prop where
  | accepted (hret : s.Returns err) (hsuff : s.Suffices err) (hback : s.backtrack = true) :
      GoesBack minBlock s err saved ipos (s.accept.restored saved)
  | empty (hret : s.Returns err) (hsuff : ¬ s.Suffices err) (hzero : s.rd.live.obytes = 0) :
      GoesBack minBlock s err saved ipos (s.restored saved)
  | failed {code : Int} (herr : err = .error code) (hnear : saved.opos - s.lastIdx ≤ minBlock) :
      GoesBack minBlock s err saved ipos (s.restored saved)
  | failedDict {code : Int} (herr : err = .error code) (hfar : minBlock < saved.opos - s.lastIdx) :
      GoesBack minBlock s err saved ipos ((s.restored saved).withDict ipos)

/-- What a turn comes to, from the state after the reader's step. -/
inductive Comes (minBlock : Nat) (s : Indexing z) (err : Ret) (g : FileHandle) :
    Turn z → FileHandle → Prop where
  | goesOn (hok : err = .ok) (hblock : s.rd.live.atBlock = false) :
      Comes minBlock s err g (.again { s with inBlock := true }) g
  | passed (hindep : s.indep = true) (hret : s.Returns err) (hsuff : ¬ s.Suffices err)
      (hzero : s.rd.live.obytes ≠ 0) :
      Comes minBlock s err g (.again { s with backtrack := true }) g
  | goesBack {saved : Reader z} {r : Indexing z} (hindep : s.indep = true)
      (hsave : s.rd.mSave = some saved)
      (hback : GoesBack minBlock s err saved (s.rd.mSaveSeek - saved.availIn) r) :
      Comes minBlock s err g (.again r) { g with pos := s.rd.mSaveSeek }
  | reached (hok : err = .ok) (hblock : s.rd.live.atBlock = true)
      (hacc : s.indep = true → s.Suffices err ∧ s.backtrack = false) :
      Comes minBlock s err g (.examine s.settled) g
  | ended {live : Reader z} {g' : FileHandle} (hend : err = .streamEnd)
      (hacc : s.indep = true → s.backtrack = false)
      (hskip : s.rd.live.skipFooter.run g = .ok (live, g'))
      (hmore : g'.pos - live.availIn ≠ g'.data.length) :
      Comes minBlock s err g
        (.examine { s.settled with rd := { s.rd with live := live.reset .Gzip } }) g'
  | finished {live : Reader z} {g' : FileHandle} (hend : err = .streamEnd)
      (hacc : s.indep = true → s.backtrack = false)
      (hskip : s.rd.live.skipFooter.run g = .ok (live, g'))
      (hlast : g'.pos - live.availIn = g'.data.length) :
      Comes minBlock s err g
        (.done (setLastBlockSize s.settled.mBlocks live.opos (g'.pos - live.availIn))) g'

variable {mPath : String} {minBlock : Nat} {s : Indexing z} {saved : Reader z} {err : Ret}
  {g : FileHandle}

theorem skipFooter_ok (rd : Reader z) (g : FileHandle) :
    ∃ live g', rd.skipFooter.run g = .ok (live, g') := by
  rw [Reader.skipFooter]
  split
  · exact ⟨_, _, rfl⟩
  · split
    · rw [FileM.run_bind_ok (run_seekBy _)]
      exact ⟨_, _, rfl⟩
    · exact ⟨_, _, rfl⟩

theorem run_restore (hsave : s.rd.mSave = some saved) (hindep : s.indep = false) :
    s.restore.run g = .ok (s.restored saved, { g with pos := s.rd.mSaveSeek }) := by
  have hrd : s.rd.restore.run g =
      .ok (⟨saved, some s.rd.live, s.rd.mSaveSeek⟩, { g with pos := s.rd.mSaveSeek }) := by
    simp only [SavingReader.restore, hsave]
    rw [FileM.run_bind_ok (run_seek_set _)]
    rfl
  rw [Indexing.restore, FileM.run_bind_ok hrd, restored, ← hindep]
  rfl

theorem run_restore_stop (hsave : s.rd.mSave = some saved) :
    (Indexing.restore { s with indep := false }).run g =
      .ok (s.restored saved, { g with pos := s.rd.mSaveSeek }) :=
  run_restore (s := { s with indep := false }) hsave rfl

theorem settled_indep (s : Indexing z) : s.settled.indep = false := by
  rw [settled]
  split
  · rfl
  · exact Bool.eq_false_iff.mpr ‹_›

theorem check_settled (h : s.indep = false) : check s = .examine s := by
  rw [check, h]
  rfl

/-- The end of a turn, once the block being examined is accepted. -/
theorem run_advance (minBlock : Nat) (hret : s.Returns err)
    (hacc : s.indep = true → s.Suffices err ∧ s.backtrack = false) :
    ∃ t g', (advance s.settled err).run g = .ok (t, g') ∧ Comes minBlock s err g t g' := by
  obtain hend | ⟨hok, hblock⟩ := hret
  · obtain ⟨live, g', hskip⟩ := skipFooter_ok s.rd.live g
    have hskip' : s.settled.rd.live.skipFooter.run g = .ok (live, g') := by
      rw [settled]
      split <;> exact hskip
    rw [advance, if_pos hend, FileM.run_bind_ok hskip', FileM.run_bind_ok Reader.run_ipos,
      FileM.run_bind_ok run_size]
    by_cases hlast : g'.pos - live.availIn = g'.data.length
    · rw [if_pos hlast]
      exact ⟨_, _, rfl, .finished hend (fun h => (hacc h).2) hskip hlast⟩
    · rw [if_neg hlast]
      have hcheck :=
        check_settled (s := { s.settled with rd := { s.rd with live := live.reset .Gzip } })
        (settled_indep s)
      refine ⟨_, _, ?_, .ended hend (fun h => (hacc h).2) hskip hlast⟩
      rw [← hcheck]
      have hrd : s.settled.rd = s.rd := by
        rw [settled]
        split <;> rfl
      rw [hrd]
      rfl
  · have hne : err ≠ .streamEnd := by
      rw [hok]
      exact nofun
    rw [advance, if_neg hne, check_settled (settled_indep s)]
    exact ⟨_, _, rfl, .reached hok hblock hacc⟩

theorem run_decoded (hret : s.Returns err) (hsave : s.indep = true → s.rd.mSave = some saved) :
    ∃ t g', (decoded s err).run g = .ok (t, g') ∧ Comes minBlock s err g t g' := by
  rw [decoded]
  by_cases hindep : s.indep = true
  · rw [if_pos hindep]
    by_cases hsuff : s.rd.live.obytes > WindowSize ∨ err = .streamEnd
    · rw [if_pos hsuff]
      by_cases hback : s.backtrack = true
      · have hrestore := run_restore (s := s.accept) (g := g) (hsave hindep) rfl
        have hback' : s.accept.backtrack = true := hback
        dsimp only
        rw [if_pos hback', FileM.run_bind_ok hrestore]
        exact ⟨_, _, rfl, .goesBack hindep (hsave hindep) (.accepted hret hsuff hback)⟩
      · have hsettled : s.settled = s.accept := if_pos hindep
        have := run_advance minBlock (g := g) hret
          fun _ => ⟨hsuff, Bool.eq_false_iff.mpr hback⟩
        have hback' : ¬ s.accept.backtrack = true := hback
        dsimp only
        rwa [if_neg hback', ← hsettled]
    · rw [if_neg hsuff]
      by_cases hzero : s.rd.live.obytes = 0
      · rw [if_pos hzero, FileM.run_bind_ok (run_restore_stop (hsave hindep))]
        exact ⟨_, _, rfl, .goesBack hindep (hsave hindep) (.empty hret hsuff hzero)⟩
      · rw [if_neg hzero]
        have hne : err ≠ .streamEnd := fun h => hsuff (.inr h)
        rw [advance, if_neg hne, check, if_pos hindep]
        exact ⟨_, _, rfl, .passed hindep hret hsuff hzero⟩
  · have hsettled : s.settled = s := if_neg hindep
    have := run_advance minBlock (g := g) hret fun h => absurd h hindep
    rw [hsettled] at this
    rwa [if_neg hindep]

theorem run_failed {code : Int} (hindep : s.indep = true) (hsave : s.rd.mSave = some saved) :
    ∃ t g', (failed mPath minBlock s code).run g = .ok (t, g') ∧
      Comes minBlock s (.error code) g t g' := by
  rw [failed, if_pos hindep, FileM.run_bind_ok (run_restore_stop hsave)]
  by_cases hfar : (s.restored saved).rd.live.opos - (s.restored saved).lastIdx > minBlock
  · have hdict : (s.restored saved).addDictBlock.run { g with pos := s.rd.mSaveSeek } =
        .ok ((s.restored saved).withDict (s.rd.mSaveSeek - saved.availIn),
          { g with pos := s.rd.mSaveSeek }) := by
      rw [addDictBlock]
      exact FileM.run_bind_ok Reader.run_ipos
    rw [if_pos hfar, FileM.run_bind_ok hdict]
    exact ⟨_, _, rfl, .goesBack hindep hsave (.failedDict rfl hfar)⟩
  · rw [if_neg hfar]
    exact ⟨_, _, rfl, .goesBack hindep hsave (.failed rfl (Nat.le_of_not_gt hfar))⟩

/-- A turn that finds no input throws. -/
theorem turn_starved (h : s.rd.live.Starved g) :
    (turn mPath minBlock s).run g = .error (.eof g.path) :=
  FileM.run_bind_error (Reader.step_starved h)

/-- A turn that finds input is one of the cases of `Comes`, or it throws because the
stream itself does not decode. -/
theorem turn_comes (mPath : String) (minBlock : Nat) (h : ¬ s.rd.live.Starved g)
    (hsave : s.indep = true → ∃ saved, s.rd.mSave = some saved) :
    ∃ rd g', s.rd.live.Fed rd g g' ∧ s.rd.live.step.run g = .ok (rd.inflate, g') ∧
      ((s.indep = false ∧ ∃ e, (turn mPath minBlock s).run g = .error e) ∨
        ∃ t g'', (turn mPath minBlock s).run g = .ok (t, g'') ∧
          Comes minBlock (s.stepped rd.inflate.1) rd.inflate.2 g' t g'') := by
  obtain ⟨rd, g', hfed, hstep⟩ := Reader.step_fed h
  refine ⟨rd, g', hfed, hstep, ?_⟩
  rw [turn, FileM.run_bind_ok hstep]
  obtain ⟨saved, hsaved⟩ : ∃ saved, s.indep = true → s.rd.mSave = some saved := by
    by_cases hindep : s.indep = true
    · obtain ⟨saved, hs⟩ := hsave hindep
      exact ⟨saved, fun _ => hs⟩
    · exact ⟨rd, fun h => absurd h hindep⟩
  have hdecoded : ∀ err, err = rd.inflate.2 → (s.stepped rd.inflate.1).Returns err →
      ∃ t g'', (decoded (s.stepped rd.inflate.1) err).run g' = .ok (t, g'') ∧
        Comes minBlock (s.stepped rd.inflate.1) err g' t g'' :=
    fun err _ hret => run_decoded hret hsaved
  cases herr : rd.inflate.2 with
  | error code =>
      simp only [herr]
      by_cases hindep : s.indep = true
      · exact .inr (run_failed (s := s.stepped rd.inflate.1) hindep (hsaved hindep))
      · refine .inl ⟨Bool.eq_false_iff.mpr hindep, ?_⟩
        rw [failed, if_neg hindep]
        exact ⟨_, rfl⟩
  | streamEnd =>
      simp only [herr]
      rw [if_pos (.inl trivial)]
      exact .inr (hdecoded _ herr.symm (.inl rfl))
  | ok =>
      simp only [herr]
      by_cases hblock : rd.inflate.1.atBlock = true
      · rw [if_pos (.inr hblock)]
        exact .inr (hdecoded _ herr.symm (.inr ⟨rfl, hblock⟩))
      · rw [if_neg (by simp [hblock])]
        exact .inr ⟨_, _, rfl, .goesOn rfl (Bool.eq_false_iff.mpr hblock)⟩

section Examined

variable (wild : Reader z → UInt8)

/-- The state in which the block the live reader is at is examined. -/
def Indexing.examined (s : Indexing z) (g : FileHandle) : Indexing z :=
  { s with
    uoff := s.rd.live.opos
    coff := g.pos - s.rd.live.availIn
    bits := s.rd.live.ibits
    rd := ⟨SavingReader.takeOver wild s.rd.mSave s.rd.live, some s.rd.live, g.pos⟩
    backtrack := false
    indep := true }

theorem run_examine : (s.examine wild).run g = .ok (s.examined wild g, g) := by
  have hsave : (s.rd.save wild).run g =
      .ok (⟨SavingReader.takeOver wild s.rd.mSave s.rd.live, some s.rd.live, g.pos⟩, g) := by
    rw [SavingReader.save, FileM.run_bind_ok run_tell]
    rfl
  rw [examine, FileM.run_bind_ok Reader.run_ipos, FileM.run_bind_ok hsave]
  rfl

/-- A pass is a turn, and `examine` where the turn asks for it. -/
theorem pass_again {s' : Indexing z} {g' : FileHandle} :
    (pass wild mPath minBlock s).run g = .ok (.again s', g') ↔
      (turn mPath minBlock s).run g = .ok (.again s', g') ∨
        ∃ s₀, (turn mPath minBlock s).run g = .ok (.examine s₀, g') ∧ s' = s₀.examined wild g' := by
  rw [pass]
  cases hturn : (turn mPath minBlock s).run g with
  | error e =>
      rw [FileM.run_bind_error hturn]
      simp
  | ok p =>
      obtain ⟨t, g₁⟩ := p
      rw [FileM.run_bind_ok hturn]
      cases t with
      | again s₁ =>
          refine ⟨fun h => ?_, fun h => ?_⟩
          · cases h
            exact .inl rfl
          · obtain h | ⟨s₀, h, -⟩ := h
            · cases h
              rfl
            · cases h
      | examine s₁ =>
          simp only
          rw [FileM.run_bind_ok (run_examine wild)]
          refine ⟨fun h => ?_, fun h => ?_⟩
          · cases h
            exact .inr ⟨s₁, rfl, rfl⟩
          · obtain h | ⟨s₀, h, rfl⟩ := h
            · cases h
            · cases h
              rfl
      | done r =>
          refine ⟨fun h => ?_, fun h => ?_⟩
          · cases h
          · rcases h with h | ⟨s₀, h, -⟩ <;> cases h

theorem pass_done {r : List GzipBlock} {g' : FileHandle} :
    (pass wild mPath minBlock s).run g = .ok (.done r, g') ↔
      (turn mPath minBlock s).run g = .ok (.done r, g') := by
  rw [pass]
  cases hturn : (turn mPath minBlock s).run g with
  | error e =>
      rw [FileM.run_bind_error hturn]
      simp
  | ok p =>
      obtain ⟨t, g₁⟩ := p
      rw [FileM.run_bind_ok hturn]
      cases t with
      | again s₁ => exact ⟨nofun, nofun⟩
      | examine s₁ =>
          simp only
          rw [FileM.run_bind_ok (run_examine wild)]
          exact ⟨nofun, nofun⟩
      | done r =>
          refine ⟨fun h => ?_, fun h => ?_⟩
          · cases h
            rfl
          · cases h
            rfl

/-- A list is returned by the last turn of a run. -/
theorem buildIndex_ok {mBlockFactor fuel : Nat} {bs : List GzipBlock} {fh : FileHandle}
    (h : buildIndex wild mPath mBlockFactor fuel [] fh = some (.ok bs)) :
    ∃ s g g', Indexes wild mPath (mBlockFactor * WindowSize) fh s g ∧
      (turn mPath (mBlockFactor * WindowSize) s).run g = .ok (.done bs, g') := by
  simp only [buildIndex, Option.map_eq_some_iff] at h
  obtain ⟨out, hiter, hout⟩ := h
  cases out with
  | error e => cases hout
  | ok p =>
      obtain ⟨bs', g'⟩ := p
      cases hout
      obtain ⟨⟨s, g⟩, hs, hdone⟩ := iterate_ok hiter
      exact ⟨s, g, g', hs, (pass_done wild).mp (onFile_done.mp hdone)⟩

end Examined

/-- Both readers are in step with the file, the one put aside at its own place. -/
structure InStep (fh : FileHandle) (s : Indexing z) (g : FileHandle) : Prop where
  data : g.data = fh.data
  path : g.path = fh.path
  live : s.rd.live.Synced g
  save : s.indep = true →
    ∃ saved, s.rd.mSave = some saved ∧ saved.Synced { g with pos := s.rd.mSaveSeek }

variable {fh g' : FileHandle}

theorem GoesBack.live_eq {r : Indexing z} {ipos : Nat} (h : GoesBack minBlock s err saved ipos r) :
    r.rd.live = saved ∧ r.indep = false := by
  cases h <;> exact ⟨rfl, rfl⟩

theorem settled_rd (s : Indexing z) : s.settled.rd = s.rd := by
  rw [settled]
  split <;> rfl

theorem InStep.settled (h : InStep fh s g) : InStep fh s.settled g :=
  ⟨h.data, h.path, by rw [settled_rd]; exact h.live, fun hindep => by
    rw [settled_indep] at hindep
    cases hindep⟩

/-- A turn that does not throw is one of the cases of `Comes`. -/
theorem InStep.comes (h : InStep fh s g) {t : Turn z}
    (hrun : (turn mPath minBlock s).run g = .ok (t, g')) :
    ∃ rd g₁, s.rd.live.Fed rd g g₁ ∧ s.rd.live.step.run g = .ok (rd.inflate, g₁) ∧
      Comes minBlock (s.stepped rd.inflate.1) rd.inflate.2 g₁ t g' := by
  have hne : ¬ s.rd.live.Starved g := by
    intro hstarved
    rw [turn_starved hstarved] at hrun
    cases hrun
  obtain ⟨rd, g₁, hfed, hstep, ⟨-, e, he⟩ | ⟨t', g₂, hrun', hcomes⟩⟩ :=
    turn_comes mPath minBlock hne
      fun hindep => (h.save hindep).imp fun _ => And.left
  · rw [hrun] at he
    cases he
  · rw [hrun] at hrun'
    cases hrun'
    exact ⟨rd, g₁, hfed, hstep, hcomes⟩

theorem InStep.stepped {rd : Reader z} {g₁ : FileHandle} (h : InStep fh s g)
    (hfed : s.rd.live.Fed rd g g₁) : InStep fh (s.stepped rd.inflate.1) g₁ := by
  refine ⟨hfed.data.trans h.data, hfed.path.trans h.path, .inr (hfed.backed h.live),
    fun hindep => ?_⟩
  obtain ⟨saved, hsave, hsynced⟩ := h.save hindep
  have hg : { g₁ with pos := s.rd.mSaveSeek } = { g with pos := s.rd.mSaveSeek } := by
    rw [FileHandle.mk.injEq]
    exact ⟨hfed.path, hfed.data, rfl⟩
  exact ⟨saved, hsave, by rwa [Indexing.stepped, hg]⟩

/-- The turn keeps the readers in step, and so does examining a block. -/
theorem InStep.turn (h : InStep fh s g) {t : Turn z}
    (hrun : (turn mPath minBlock s).run g = .ok (t, g')) :
    (∀ s', t = .again s' → InStep fh s' g') ∧
      ∀ s', t = .examine s' → s'.indep = false ∧ InStep fh s' g' := by
  obtain ⟨rd, g₁, hfed, -, hcomes⟩ := h.comes hrun
  have hstep := h.stepped hfed
  cases hcomes with
  | goesOn => exact ⟨fun s' hs => by cases hs; exact { hstep with }, nofun⟩
  | passed => exact ⟨fun s' hs => by cases hs; exact { hstep with }, nofun⟩
  | goesBack hindep hsave hback =>
      obtain ⟨saved, hsave', hsynced⟩ := hstep.save hindep
      rw [hsave] at hsave'
      cases hsave'
      refine ⟨fun s' hs => ?_, nofun⟩
      cases hs
      refine ⟨hstep.data, hstep.path, by rwa [hback.live_eq.1], fun hindep => ?_⟩
      rw [hback.live_eq.2] at hindep
      cases hindep
  | reached hok hblock hacc =>
      refine ⟨nofun, fun s' hs => ?_⟩
      cases hs
      exact ⟨settled_indep _, hstep.settled⟩
  | ended hend hacc hskip hmore =>
      refine ⟨nofun, fun s' hs => ?_⟩
      cases hs
      obtain ⟨live, g₃, hskip', hsync, hd, hp, -⟩ := Reader.run_skipFooter hstep.live
      rw [hskip'] at hskip
      cases hskip
      refine ⟨settled_indep _, hd.trans hstep.data, hp.trans hstep.path, hsync, fun hindep => ?_⟩
      simp only [settled_indep] at hindep
      cases hindep
  | finished => exact ⟨nofun, nofun⟩

theorem InStep.examined (wild : Reader z → UInt8) (h : InStep fh s g) :
    InStep fh (s.examined wild g) g :=
  ⟨h.data, h.path, SavingReader.takeOver_synced wild _ h.live, fun _ => ⟨_, rfl, h.live⟩⟩

theorem indexes_inStep {wild : Reader z → UInt8} (h : Indexes wild mPath minBlock fh s g) :
    InStep fh s g := by
  refine Reaches.invariant (P := fun p => InStep fh p.1 p.2) h
    ⟨rfl, rfl, .inl rfl, nofun⟩ ?_
  intro p p' hp hpass
  obtain hrun | ⟨s₀, hrun, hs⟩ := (pass_again wild).mp (onFile_again.mp hpass)
  · exact (hp.turn hrun).1 _ rfl
  · rw [hs]
    exact ((hp.turn hrun).2 _ rfl).2.examined wild

end GzipFile

end Lzopfs
