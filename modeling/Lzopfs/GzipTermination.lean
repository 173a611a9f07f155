import Lzopfs.GzipSpeculation

/-!
# Indexing a gzip file ends

The loop goes back whenever a decode that is tried does not work out, so the place in the
file is no variant. What decreases is lexicographic: what is left for the reader that is
committed to, then whether a block is still to be tried there, then what is left for the
reader that tries it. What is left for a reader is the part of the file behind its stream's
start, then the bits it has not used, then the output its stream still owes.
-/

namespace Lzopfs

open Verify FileHandle

/-- What zlib's documentation lets one say about a stream: its wrapper, its `total_in`, and
how many bits of the bytes it has taken it has not used yet. -/
structure Zlib.Accounts (z : Zlib) where
  wrapper : z.Stream → Wrapper
  totalIn : z.Stream → Nat
  held : z.Stream → Nat
  wrapper_init : ∀ w, wrapper (z.init w) = w
  totalIn_init : ∀ w, totalIn (z.init w) = 0
  held_init : ∀ w, held (z.init w) = 0
  wrapper_prime : ∀ s bits byte, wrapper (z.prime s bits byte) = wrapper s
  held_prime : ∀ s bits byte, held (z.prime s bits byte) ≤ held s + bits
  wrapper_inflate : ∀ s input room, wrapper (z.inflate s input room).stream = wrapper s
  totalIn_inflate : ∀ s input room,
    totalIn (z.inflate s input room).stream = totalIn s + (z.inflate s input room).consumed

namespace Zlib.Accounts

variable {z : Zlib} (a : z.Accounts)

/-- A call that succeeds, with input and room for output. -/
structure Succeeds (z : Zlib) (s : z.Stream) (input : Buffer) (room : Nat) : Prop where
  hasInput : input ≠ []
  hasRoom : 0 < room
  ok : (z.inflate s input room).ret = .ok

/-- `s'` is left by a successful call that used no bit. -/
def Idles (s' s : z.Stream) : Prop :=
  ∃ input room, Succeeds z s input room ∧ s' = (z.inflate s input room).stream ∧
    a.held s' = a.held s + 8 * (z.inflate s input room).consumed

/-- A raw stream that no call has been made on. -/
def Untouched (s : z.Stream) : Prop :=
  s = z.init .Raw ∨ ∃ bits byte, s = z.prime (z.init .Raw) bits byte

/-- What indexing relies on to come to an end. -/
structure Orderly : Prop where
  /-- A call does not get back bits that were used. -/
  spends : ∀ {s input room}, Succeeds z s input room →
    a.held (z.inflate s input room).stream ≤ a.held s + 8 * (z.inflate s input room).consumed
  /-- A call uses bits or produces output. -/
  progress : ∀ {s input room}, Succeeds z s input room →
    a.held (z.inflate s input room).stream = a.held s + 8 * (z.inflate s input room).consumed →
      (z.inflate s input room).out ≠ []
  /-- Without bits being used there is an end to the output. -/
  finite : WellFounded fun s' s => ∃ input room, Succeeds z s input room ∧
    s' = (z.inflate s input room).stream ∧ (z.inflate s input room).out ≠ [] ∧
      a.held s' = a.held s + 8 * (z.inflate s input room).consumed
  /-- Without any bits there is none. -/
  untouched : ∀ {s input room}, Untouched s → Succeeds z s input room →
    (z.inflate s input room).out ≠ [] →
      a.held (z.inflate s input room).stream ≠ a.held s + 8 * (z.inflate s input room).consumed
  /-- At the end of a block `data_type` tells how many bits have not been used. -/
  unused : ∀ {s input room}, Succeeds z s input room →
    (z.inflate s input room).dataType / 128 % 2 = 1 →
      (z.inflate s input room).dataType % 8 ≤ a.held (z.inflate s input room).stream
  /-- A gzip stream does not end before its header. -/
  header : ∀ {s input room}, a.wrapper s = .Gzip → (z.inflate s input room).ret = .streamEnd →
    0 < a.totalIn (z.inflate s input room).stream

variable {a}

theorem Orderly.wellFounded (h : a.Orderly) : WellFounded a.Idles := by
  apply Subrelation.wf _ h.finite
  rintro s' s ⟨input, room, hcall, rfl, hheld⟩
  exact ⟨input, room, hcall, rfl, h.progress hcall hheld, hheld⟩

theorem Orderly.not_idles (h : a.Orderly) {s s' : z.Stream} (hs : Untouched s) :
    ¬ a.Idles s' s := by
  rintro ⟨input, room, hcall, rfl, hheld⟩
  exact h.untouched hs hcall (h.progress hcall hheld) hheld

end Zlib.Accounts

namespace GzipFile

open Indexing Zlib.Accounts

variable {z : Zlib} (a : z.Accounts)

/-- Where the reader stands in the file. -/
def place (rd : Reader z) (g : FileHandle) : Nat := g.pos - rd.availIn

/-- The bytes behind the start of a gzip stream, or behind the place of a raw one. -/
def bytesLeft (rd : Reader z) (g : FileHandle) : Nat :=
  g.data.length - (place rd g - if rd.mWrap = .Gzip then a.totalIn rd.mStream else 0)

/-- The bits of the byte before a header could be used again. -/
def headBits (rd : Reader z) : Nat := if rd.mWrap = .Gzip ∧ a.totalIn rd.mStream = 0 then 8 else 0

/-- The bits that were not used. -/
def bitsLeft (rd : Reader z) (g : FileHandle) : Nat :=
  8 * (g.data.length - place rd g) + a.held rd.mStream + headBits a rd

/-- What is left for a reader. -/
def left (rd : Reader z) (g : FileHandle) : Nat × Nat × z.Stream :=
  (bytesLeft a rd g, bitsLeft a rd g, rd.mStream)

/-- Less is left: fewer bytes, or fewer bits, or less output. -/
def Less : Nat × Nat × z.Stream → Nat × Nat × z.Stream → Prop :=
  Prod.Lex (· < ·) (Prod.Lex (· < ·) a.Idles)

variable {a}

theorem less_wellFounded (h : a.Orderly) : WellFounded (Less a) :=
  WellFounded.prod_lex wellFounded_lt (WellFounded.prod_lex wellFounded_lt h.wellFounded)

theorem less_of_le {b b' n n' : Nat} {s s' : z.Stream} (hb : b' ≤ b) (hn : n' ≤ n)
    (hs : n' = n → a.Idles s' s) : Less a (b', n', s') (b, n, s) := by
  obtain hlt | rfl := Nat.lt_or_eq_of_le hb
  · exact .left _ _ hlt
  · apply Prod.Lex.right
    obtain hlt | rfl := Nat.lt_or_eq_of_le hn
    · exact .left _ _ hlt
    · exact .right _ (hs rfl)

/-- A reader whose accounts agree with its place in the file. -/
structure Standing (a : z.Accounts) (rd : Reader z) (g : FileHandle) : Prop where
  synced : rd.Synced g
  wrapper : a.wrapper rd.mStream = rd.mWrap
  totalIn : rd.mWrap = .Gzip → a.totalIn rd.mStream ≤ place rd g

variable {rd rd₁ saved : Reader z} {fh g g₁ : FileHandle}

/-- Input in hand is part of the file. -/
theorem Standing.place_add_availIn (h : Standing a rd g) (hin : 0 < rd.availIn) :
    place rd g + rd.availIn ≤ g.data.length := by
  have hlen := congrArg List.length h.synced.unread.2
  rw [List.length_append, rd.length_nextIn, List.length_drop] at hlen
  rw [place]
  omega

theorem Standing.fed (h : Standing a rd g) (hfed : rd.Fed rd₁ g g₁) :
    Standing a rd₁ g₁ ∧ place rd₁ g₁ = place rd g ∧ left a rd₁ g₁ = left a rd g := by
  have hplace : place rd₁ g₁ = place rd g := hfed.ipos
  refine ⟨⟨.inr (hfed.backed h.synced), ?_, ?_⟩, hplace, ?_⟩
  · rw [hfed.stream, hfed.wrap]
    exact h.wrapper
  · rw [hfed.stream, hfed.wrap, hplace]
    exact h.totalIn
  · simp only [left, bytesLeft, bitsLeft, headBits, hplace, hfed.stream, hfed.wrap, hfed.data]

/-- What the next call of `inflate` takes of the input. -/
def consumed (rd : Reader z) : Nat := (z.inflate rd.mStream rd.nextIn rd.availOut).consumed

theorem consumed_le (rd : Reader z) : consumed rd ≤ rd.availIn := by
  rw [← rd.length_nextIn]
  exact (z.inflate rd.mStream rd.nextIn rd.availOut).consumed_le

theorem Standing.place_inflate (h : Standing a rd g) :
    place rd.inflate.1 g = place rd g + consumed rd := by
  have hle := consumed_le rd
  have hpos := h.synced.unread.1
  show g.pos - (rd.availIn - consumed rd) = g.pos - rd.availIn + consumed rd
  omega

theorem totalIn_inflate (rd : Reader z) :
    a.totalIn rd.inflate.1.mStream = a.totalIn rd.mStream + consumed rd :=
  a.totalIn_inflate _ _ _

theorem Standing.inflate (h : Standing a rd g) (hbacked : rd.Backed g) :
    Standing a rd.inflate.1 g := by
  refine ⟨.inr hbacked, (a.wrapper_inflate _ _ _).trans h.wrapper, fun hwrap => ?_⟩
  have htotal := h.totalIn hwrap
  rw [h.place_inflate, totalIn_inflate]
  omega

/-- The reader's next call of `inflate` succeeds. -/
def Goes (rd : Reader z) : Prop := Succeeds z rd.mStream rd.nextIn rd.availOut

theorem goes_of_ok (hfed : rd.Fed rd₁ g g₁) (hok : rd₁.inflate.2 = .ok) : Goes rd₁ := by
  refine ⟨fun hnil => ?_, hfed.room, hok⟩
  have hlen := rd₁.length_nextIn
  have hin := hfed.input
  rw [hnil, List.length_nil] at hlen
  omega

theorem headBits_inflate_le (rd : Reader z) : headBits a rd.inflate.1 ≤ headBits a rd := by
  have htotal := @totalIn_inflate _ a rd
  have hwrap : rd.inflate.1.mWrap = rd.mWrap := rfl
  rw [headBits, headBits, htotal, hwrap]
  by_cases hhead : rd.mWrap = .Gzip ∧ a.totalIn rd.mStream + consumed rd = 0
  · rw [if_pos hhead, if_pos ⟨hhead.1, Nat.eq_zero_of_add_eq_zero_right hhead.2⟩]
  · rw [if_neg hhead]
    exact Nat.zero_le _

theorem Standing.bytesLeft_inflate_le (h : Standing a rd g) :
    bytesLeft a rd.inflate.1 g ≤ bytesLeft a rd g := by
  have hwrap : rd.inflate.1.mWrap = rd.mWrap := rfl
  rw [bytesLeft, bytesLeft, h.place_inflate, totalIn_inflate, hwrap]
  split <;> omega

/-- A successful call leaves fewer bits, unless it idles. -/
theorem Standing.bitsLeft_inflate (h : Standing a rd g) (ho : a.Orderly) (hgoes : Goes rd) :
    bitsLeft a rd.inflate.1 g ≤ bitsLeft a rd g ∧
      (bitsLeft a rd.inflate.1 g = bitsLeft a rd g →
        a.Idles rd.inflate.1.mStream rd.mStream) := by
  have hin : 0 < rd.availIn := by
    rw [← rd.length_nextIn]
    exact List.length_pos_iff.mpr hgoes.hasInput
  have hend := h.place_add_availIn hin
  have hle := consumed_le rd
  have hhead := @headBits_inflate_le _ a rd
  have hheld : a.held rd.inflate.1.mStream ≤ a.held rd.mStream + 8 * consumed rd :=
    ho.spends hgoes
  rw [bitsLeft, bitsLeft, h.place_inflate]
  refine ⟨by omega, fun heq => ⟨_, _, hgoes, rfl, ?_⟩⟩
  show a.held rd.inflate.1.mStream = a.held rd.mStream + 8 * consumed rd
  omega

theorem Standing.less_inflate (h : Standing a rd g) (ho : a.Orderly) (hgoes : Goes rd) :
    Less a (left a rd.inflate.1 g) (left a rd g) :=
  less_of_le h.bytesLeft_inflate_le (h.bitsLeft_inflate ho hgoes).1 (h.bitsLeft_inflate ho hgoes).2

/-- The live reader tries the block that `saved` is at. -/
structure Trying (a : z.Accounts) (s : Indexing z) (g : FileHandle) (saved : Reader z) : Prop where
  save : s.rd.mSave = some saved
  standing : Standing a saved { g with pos := s.rd.mSaveSeek }
  raw : s.rd.live.mWrap = .Raw
  ahead : place saved { g with pos := s.rd.mSaveSeek } ≤ place s.rd.live g
  bits : bitsLeft a s.rd.live g ≤ bitsLeft a saved { g with pos := s.rd.mSaveSeek }
  used : bitsLeft a s.rd.live g = bitsLeft a saved { g with pos := s.rd.mSaveSeek } →
    Untouched s.rd.live.mStream

/-- The invariant of the loop. -/
structure Course (a : z.Accounts) (s : Indexing z) (g : FileHandle) : Prop where
  live : Standing a s.rd.live g
  trying : s.indep = true → ∃ saved, Trying a s g saved

/-- The reader that is committed to, at its place in the file. -/
def committed (s : Indexing z) (g : FileHandle) : Reader z × FileHandle :=
  match s.indep, s.rd.mSave with
  | true, some saved => (saved, { g with pos := s.rd.mSaveSeek })
  | _, _ => (s.rd.live, g)

/-- The variant: what is left for the reader committed to, whether a block is to be tried,
what is left for the live reader. -/
def variant (a : z.Accounts) (s : Indexing z) (g : FileHandle) :
    (Nat × Nat × z.Stream) × Nat × Nat × Nat × z.Stream :=
  (left a (committed s g).1 (committed s g).2, if s.indep then 1 else 0, left a s.rd.live g)

/-- The variant is below another one. -/
def Below (a : z.Accounts) : (Nat × Nat × z.Stream) × Nat × Nat × Nat × z.Stream →
    (Nat × Nat × z.Stream) × Nat × Nat × Nat × z.Stream → Prop :=
  Prod.Lex (Less a) (Prod.Lex (· < ·) (Less a))

theorem below_wellFounded (h : a.Orderly) : WellFounded (Below a) :=
  WellFounded.prod_lex (less_wellFounded h)
    (WellFounded.prod_lex wellFounded_lt (less_wellFounded h))

theorem Trying.committed_eq {s : Indexing z} (h : Trying a s g saved) (hindep : s.indep = true) :
    committed s g = (saved, { g with pos := s.rd.mSaveSeek }) := by
  rw [committed, hindep, h.save]

theorem committed_live {s : Indexing z} (hindep : s.indep = false) :
    committed s g = (s.rd.live, g) := by
  rw [committed, hindep]

variable {s s₀ s' : Indexing z} {g' : FileHandle}

theorem bytesLeft_raw (hwrap : rd₁.mWrap = .Raw)
    (hahead : place rd g ≤ place rd₁ g₁) (hdata : g₁.data = g.data) :
    bytesLeft a rd₁ g₁ ≤ bytesLeft a rd g := by
  rw [bytesLeft, bytesLeft, hdata, hwrap, if_neg (by decide)]
  omega

/-- A successful step of the reader that tries a block uses some of the bits that were left
for the reader put aside. -/
theorem Trying.bits_lt (h : Trying a s g saved) (hlive : Standing a s.rd.live g) (ho : a.Orderly)
    (hfed : s.rd.live.Fed rd₁ g g₁) (hok : rd₁.inflate.2 = .ok) :
    bitsLeft a rd₁.inflate.1 g₁ < bitsLeft a saved { g with pos := s.rd.mSaveSeek } := by
  obtain ⟨hstanding, -, hleft⟩ := hlive.fed hfed
  have hbits : bitsLeft a rd₁ g₁ = bitsLeft a s.rd.live g := congrArg (fun t => t.2.1) hleft
  obtain ⟨hle, hidle⟩ := hstanding.bitsLeft_inflate ho (goes_of_ok hfed hok)
  have hsaved := h.bits
  apply Nat.lt_of_le_of_ne (by omega)
  intro heq
  have hidles := hidle (by omega)
  rw [hfed.stream] at hidles
  exact ho.not_idles (h.used (by omega)) hidles

theorem Trying.ahead_inflate (h : Trying a s g saved) (hlive : Standing a s.rd.live g)
    (hfed : s.rd.live.Fed rd₁ g g₁) :
    place saved { g with pos := s.rd.mSaveSeek } ≤ place rd₁.inflate.1 g₁ := by
  obtain ⟨hstanding, hplace, -⟩ := hlive.fed hfed
  rw [hstanding.place_inflate, hplace]
  exact Nat.le_trans h.ahead (Nat.le_add_right _ _)

theorem saved_place (hfed : s.rd.live.Fed rd₁ g g₁) :
    { g₁ with pos := s.rd.mSaveSeek } = { g with pos := s.rd.mSaveSeek } := by
  rw [FileHandle.mk.injEq]
  exact ⟨hfed.path, hfed.data, rfl⟩

/-- A successful step of the live reader keeps the invariant and leaves less. -/
theorem Course.stepped (h : Course a s g) (ho : a.Orderly) (hfed : s.rd.live.Fed rd₁ g g₁)
    (hok : rd₁.inflate.2 = .ok) :
    Course a (s.stepped rd₁.inflate.1) g₁ ∧
      Below a (variant a (s.stepped rd₁.inflate.1) g₁) (variant a s g) := by
  obtain ⟨hstanding, -, hleft⟩ := h.live.fed hfed
  have hless := hstanding.less_inflate ho (goes_of_ok hfed hok)
  rw [hleft] at hless
  have hlive : Standing a (s.stepped rd₁.inflate.1).rd.live g₁ :=
    hstanding.inflate (hfed.backed h.live.synced)
  cases hindep : s.indep with
  | false =>
      have hindep' : (s.stepped rd₁.inflate.1).indep = false := hindep
      refine ⟨⟨hlive, fun htrue => ?_⟩, ?_⟩
      · rw [hindep'] at htrue
        cases htrue
      · rw [variant, variant, committed_live hindep, committed_live hindep']
        exact .left _ _ hless
  | true =>
      obtain ⟨saved, htry⟩ := h.trying hindep
      have hseek := saved_place hfed
      have htry' : Trying a (s.stepped rd₁.inflate.1) g₁ saved := by
        have hlt := htry.bits_lt h.live ho hfed hok
        have hahead := htry.ahead_inflate h.live hfed
        rw [← hseek] at hlt hahead
        refine ⟨htry.save, ?_, hfed.wrap.trans htry.raw, hahead, Nat.le_of_lt hlt, fun heq => ?_⟩
        · show Standing a saved { g₁ with pos := s.rd.mSaveSeek }
          rw [hseek]
          exact htry.standing
        · exact absurd heq (Nat.ne_of_lt hlt)
      refine ⟨⟨hlive, fun _ => ⟨saved, htry'⟩⟩, ?_⟩
      rw [variant, variant, htry.committed_eq hindep, htry'.committed_eq hindep]
      have hseek' : ({ g₁ with pos := (s.stepped rd₁.inflate.1).rd.mSaveSeek } : FileHandle) =
          { g with pos := s.rd.mSaveSeek } := hseek
      have hindep' : (s.stepped rd₁.inflate.1).indep = s.indep := rfl
      rw [hseek', hindep']
      exact .right _ (.right _ hless)

/-- Examining a block commits to the live reader and lets a raw one try the block. -/
theorem Standing.examined (wild : Reader z → UInt8) (h : Standing a s₀.rd.live g)
    (hmark : (s₀.rd.live.ibits : Nat) ≤ a.held s₀.rd.live.mStream + headBits a s₀.rd.live) :
    Course a (s₀.examined wild g) g ∧
      committed (s₀.examined wild g) g = (s₀.rd.live, g) := by
  obtain ⟨rd, hrd⟩ : ∃ rd, rd = SavingReader.takeOver wild s₀.rd.mSave s₀.rd.live := ⟨_, rfl⟩
  have hin := SavingReader.takeOver_input wild s₀.rd.mSave s₀.rd.live
  have hsynced := SavingReader.takeOver_synced wild s₀.rd.mSave h.synced
  have hstream := SavingReader.takeOver_stream wild s₀.rd.mSave s₀.rd.live
  rw [← hrd] at hin hsynced hstream
  obtain ⟨havail, hwrap⟩ := hin
  have hplace : place rd g = place s₀.rd.live g := by rw [place, place, havail]
  have huntouched : Untouched rd.mStream := by
    rw [hstream]
    split
    · exact .inr ⟨_, _, rfl⟩
    · exact .inl rfl
  have hraw : a.wrapper rd.mStream = .Raw := by
    obtain heq | ⟨bits, byte, heq⟩ := huntouched
    · rw [heq, a.wrapper_init]
    · rw [heq, a.wrapper_prime, a.wrapper_init]
  have hheld : a.held rd.mStream ≤ s₀.rd.live.ibits := by
    rw [hstream]
    split
    · have := a.held_prime (z.init .Raw) s₀.rd.live.ibits
        (UInt8.ofNat ((s₀.rd.live.byteBefore wild).toNat >>> (8 - s₀.rd.live.ibits.val)))
      rwa [a.held_init, Nat.zero_add] at this
    · rw [a.held_init]
      exact Nat.zero_le _
  have hhead : headBits a rd = 0 := by
    rw [headBits, hwrap]
    exact if_neg fun hgzip => nomatch hgzip.1
  have hlive : (s₀.examined wild g).rd.live = rd := hrd.symm
  have htry : Trying a (s₀.examined wild g) g s₀.rd.live := by
    refine ⟨rfl, h, ?_, ?_, ?_, fun _ => ?_⟩
    · rw [hlive]
      exact hwrap
    · rw [hlive]
      exact Nat.le_of_eq hplace.symm
    · rw [hlive, bitsLeft, hplace, hhead]
      show _ ≤ bitsLeft a s₀.rd.live g
      rw [bitsLeft]
      omega
    · rw [hlive]
      exact huntouched
  refine ⟨⟨?_, fun _ => ⟨_, htry⟩⟩, htry.committed_eq rfl⟩
  rw [hlive]
  refine ⟨hsynced, hraw.trans hwrap.symm, fun hgzip => ?_⟩
  rw [hwrap] at hgzip
  cases hgzip

/-- Behind a stream that has ended there is less of the file. -/
theorem Standing.ended (h : Standing a rd g) (ho : a.Orderly) (hin : 0 < rd.availIn)
    (hbacked : rd.Backed g) (hend : rd.inflate.2 = .streamEnd) {live : Reader z}
    (hskip : rd.inflate.1.skipFooter.run g = .ok (live, g')) :
    Standing a (live.reset .Gzip) g' ∧ headBits a (live.reset .Gzip) = 8 ∧
      bytesLeft a (live.reset .Gzip) g' < bytesLeft a rd g := by
  have hafter := h.inflate hbacked
  obtain ⟨_, _, hskip', hsync, hdata, -, -, -, -, -, hplace⟩ :=
    Reader.run_skipFooter hafter.synced
  rw [hskip'] at hskip
  cases hskip
  have htotal : a.totalIn (live.reset .Gzip).mStream = 0 := a.totalIn_init _
  refine ⟨⟨hsync.reset, a.wrapper_init _, fun _ => ?_⟩, if_pos ⟨rfl, htotal⟩, ?_⟩
  · rw [htotal]
    exact Nat.zero_le _
  · have hlt := h.place_add_availIn hin
    have hcalled := h.place_inflate
    have htotalIn := @totalIn_inflate _ a rd
    have hwrap : rd.inflate.1.mWrap = rd.mWrap := rfl
    have hplace' : place (live.reset .Gzip) g' = place rd.inflate.1 g +
        if rd.mWrap = .Gzip then 0 else 8 := hplace
    rw [bytesLeft, bytesLeft, htotal, hplace', hdata, hcalled, ite_self]
    by_cases hgzip : rd.mWrap = .Gzip
    · have hheader : 0 < a.totalIn rd.inflate.1.mStream :=
        ho.header (h.wrapper.trans hgzip) hend
      have hle := h.totalIn hgzip
      rw [if_pos hgzip, if_pos hgzip]
      omega
    · rw [if_neg hgzip, if_neg hgzip]
      omega

/-- The bytes left for the reader committed to are no fewer than those for the live one. -/
theorem Course.bytesLeft_le (h : Course a s g) :
    bytesLeft a s.rd.live g ≤ bytesLeft a (committed s g).1 (committed s g).2 := by
  cases hindep : s.indep with
  | false => rw [committed_live hindep]
  | true =>
      obtain ⟨saved, htry⟩ := h.trying hindep
      rw [htry.committed_eq hindep]
      exact bytesLeft_raw htry.raw htry.ahead rfl

/-- A step that reaches the next block leaves less than there was for the reader committed to,
even if it was a block that was tried. -/
theorem Course.less_reached (h : Course a s g) (ho : a.Orderly) (hfed : s.rd.live.Fed rd₁ g g₁)
    (hok : rd₁.inflate.2 = .ok) :
    Less a (left a rd₁.inflate.1 g₁) (left a (committed s g).1 (committed s g).2) := by
  obtain ⟨hstanding, -, hleft⟩ := h.live.fed hfed
  cases hindep : s.indep with
  | false =>
      rw [committed_live hindep, ← hleft]
      exact hstanding.less_inflate ho (goes_of_ok hfed hok)
  | true =>
      obtain ⟨saved, htry⟩ := h.trying hindep
      have hlt := htry.bits_lt h.live ho hfed hok
      rw [htry.committed_eq hindep]
      apply less_of_le _ (Nat.le_of_lt hlt) fun heq => absurd heq (Nat.ne_of_lt hlt)
      exact bytesLeft_raw (hfed.wrap.trans htry.raw) (htry.ahead_inflate h.live hfed) hfed.data

/-- A turn that goes round again, or goes on to examine a block. -/
theorem Course.turn {mPath : String} {minBlock : Nat} {fh : FileHandle} (h : Course a s g)
    (ho : a.Orderly) (hsteps : InStep fh s g) {t : Turn z}
    (hrun : (turn mPath minBlock s).run g = .ok (t, g')) :
    (∀ s', t = .again s' → Course a s' g' ∧ Below a (variant a s' g') (variant a s g)) ∧
      ∀ s₀, t = .examine s₀ → Standing a s₀.rd.live g' ∧
        (s₀.rd.live.ibits : Nat) ≤ a.held s₀.rd.live.mStream + headBits a s₀.rd.live ∧
          Less a (left a s₀.rd.live g') (left a (committed s g).1 (committed s g).2) := by
  obtain ⟨rd, g₁, hfed, -, hcomes⟩ := hsteps.comes hrun
  obtain ⟨hstanding, -, hleft⟩ := h.live.fed hfed
  have hbacked := hfed.backed h.live.synced
  cases hcomes with
  | goesOn hok =>
      have hnext := h.stepped ho hfed hok
      refine ⟨fun s' hs => ?_, nofun⟩
      cases hs
      exact ⟨⟨hnext.1.live, fun hindep => (hnext.1.trying hindep).imp fun _ htry => { htry with }⟩,
        hnext.2⟩
  | passed _ hret hsuff =>
      have hok : rd.inflate.2 = .ok := hret.elim (fun hend => absurd (.inr hend) hsuff) And.left
      have hnext := h.stepped ho hfed hok
      refine ⟨fun s' hs => ?_, nofun⟩
      cases hs
      exact ⟨⟨hnext.1.live, fun hindep => (hnext.1.trying hindep).imp fun _ htry => { htry with }⟩,
        hnext.2⟩
  | goesBack hindep hsave hback =>
      obtain ⟨saved, htry⟩ := h.trying hindep
      have hsaved := htry.save
      rw [show s.rd.mSave = some _ from hsave] at hsaved
      cases hsaved
      refine ⟨fun s' hs => ?_, nofun⟩
      cases hs
      obtain ⟨hlive, hdone⟩ := hback.live_eq
      refine ⟨⟨?_, fun hindep' => ?_⟩, ?_⟩
      · rw [hlive]
        exact (saved_place hfed) ▸ htry.standing
      · rw [hdone] at hindep'
        cases hindep'
      · rw [variant, variant, htry.committed_eq hindep, committed_live hdone, hlive, hdone]
        rw [show s.indep = true from hindep]
        have hseek := saved_place hfed
        have hseek' : ({ g₁ with pos := (s.stepped rd.inflate.1).rd.mSaveSeek } : FileHandle) =
          { g with pos := s.rd.mSaveSeek } := hseek
        rw [hseek']
        exact .right _ (.left _ _ (by decide))
  | reached hok hblock =>
      refine ⟨nofun, fun s₀ hs => ?_⟩
      cases hs
      rw [settled_rd]
      refine ⟨hstanding.inflate hbacked, ?_, h.less_reached ho hfed hok⟩
      have hunused := ho.unused (goes_of_ok hfed hok) (of_decide_eq_true hblock)
      exact Nat.le_trans hunused (Nat.le_add_right _ _)
  | ended hend _ hskip =>
      refine ⟨nofun, fun s₀ hs => ?_⟩
      cases hs
      obtain ⟨hnew, hhead, hlt⟩ := hstanding.ended ho hfed.input hbacked hend hskip
      refine ⟨hnew, ?_, .left _ _ (Nat.lt_of_lt_of_le hlt ?_)⟩
      · rw [hhead]
        exact Nat.le_trans (Nat.le_of_lt (Fin.isLt _)) (Nat.le_add_left _ _)
      · have hbytes : bytesLeft a rd g₁ = bytesLeft a s.rd.live g := congrArg Prod.fst hleft
        rw [hbytes]
        exact h.bytesLeft_le
  | finished => exact ⟨nofun, nofun⟩

variable {wild : Reader z → UInt8} {mPath : String} {minBlock : Nat}

theorem Course.start (a : z.Accounts) (fh : FileHandle) :
    Course a (start z [] fh).1 (start z [] fh).2 := by
  have htotal : a.totalIn (Indexing.new z []).rd.live.mStream = 0 := a.totalIn_init _
  refine ⟨⟨.inl rfl, a.wrapper_init _, fun _ => ?_⟩, nofun⟩
  show a.totalIn (Indexing.new z []).rd.live.mStream ≤ _
  rw [htotal]
  exact Nat.zero_le _

/-- Every further pass keeps the invariant and takes the variant down. -/
theorem Course.pass (h : Course a s g) (ho : a.Orderly) (hsteps : InStep fh s g)
    (hrun : (pass wild mPath minBlock s).run g = .ok (.again s', g')) :
    Course a s' g' ∧ Below a (variant a s' g') (variant a s g) := by
  obtain hturn | ⟨s₀, hturn, rfl⟩ := (pass_again wild).mp hrun
  · exact (h.turn ho hsteps hturn).1 s' rfl
  · obtain ⟨hlive, hmark, hless⟩ := (h.turn ho hsteps hturn).2 s₀ rfl
    obtain ⟨hcourse, hcommitted⟩ := hlive.examined wild hmark
    refine ⟨hcourse, ?_⟩
    rw [variant, variant, hcommitted]
    exact .left _ _ hless

/-- How the loop is left: the reader has come to the end of a stream, and behind its footer the
file ends. -/
def LeavesAtEnd (rd : Reader z) (g : FileHandle) : Prop :=
  ∃ rd' g' live g'', rd.step.run g = .ok ((rd', .streamEnd), g') ∧
    rd'.skipFooter.run g' = .ok (live, g'') ∧ live.ipos.run g'' = .ok (g.data.length, g'')

theorem leavesAtEnd_of_done (hsteps : InStep fh s g) {bs : List GzipBlock}
    (hrun : (GzipFile.turn mPath minBlock s).run g = .ok (.done bs, g')) :
    LeavesAtEnd s.rd.live g := by
  obtain ⟨rd, g₁, hfed, hstep, hcomes⟩ := hsteps.comes hrun
  obtain ⟨err, herr⟩ : ∃ err, err = rd.inflate.2 := ⟨_, rfl⟩
  rw [← herr] at hcomes
  cases hcomes with
  | @finished live _ hend _ hskip hlast =>
      have hdata : g'.data = g.data := by
        obtain ⟨_, _, hskip', -, hdata, -⟩ := Reader.run_skipFooter (hsteps.stepped hfed).live
        rw [hskip'] at hskip
        cases hskip
        exact hdata.trans hfed.data
      refine ⟨rd.inflate.1, g₁, live, g', ?_, hskip, ?_⟩
      · rw [hstep, ← hend, herr]
      · rw [← hdata, ← hlast]
        exact Reader.run_ipos

/-- The indexing of any file ends, at the end of the file or with an exception. -/
theorem buildIndex_ends (ho : a.Orderly) (wild : Reader z → UInt8) (mPath : String)
    (mBlockFactor : Nat) (fh : FileHandle) :
    ∃ fuel out, buildIndex wild mPath mBlockFactor fuel [] fh = some out ∧
      ((∃ e, out = .error e) ∨ ∃ s g, Indexes wild mPath (mBlockFactor * WindowSize) fh s g ∧
        LeavesAtEnd s.rd.live g) := by
  have hends : Ends (onFile (GzipFile.pass wild mPath (mBlockFactor * WindowSize)))
      (GzipFile.start z [] fh) := by
    apply ends_of_wellFounded (below_wellFounded ho)
      (P := fun p => Course a p.1 p.2 ∧ Indexes wild mPath (mBlockFactor * WindowSize) fh p.1 p.2)
      fun p => variant a p.1 p.2
    · exact ⟨Course.start a fh, .refl⟩
    · rintro p p' ⟨hcourse, hindexes⟩ hpass
      have hnext := hcourse.pass ho (indexes_inStep hindexes) (onFile_again.mp hpass)
      exact ⟨⟨hnext.1, hindexes.tail hpass⟩, hnext.2⟩
  obtain ⟨fuel, out, hrun⟩ := hends
  refine ⟨fuel, out.map Prod.fst, ?_, ?_⟩
  · rw [buildIndex, hrun]
    rfl
  · obtain ⟨⟨s, g⟩, hindexes, ⟨e, rfl, -⟩ | ⟨⟨bs, g'⟩, rfl, hdone⟩⟩ := iterate_reaches hrun
    · exact .inl ⟨e, rfl⟩
    · refine .inr ⟨s, g, hindexes, ?_⟩
      have hturn := (pass_done wild).mp (onFile_done.mp hdone)
      exact leavesAtEnd_of_done (indexes_inStep hindexes) hturn

/-- The streams that read a gzip file of one letter, with the bytes they have taken. -/
inductive LetterStream where
  | gzip (i : Nat)
  | raw (i : Nat)
  | primed

namespace LetterStream

def wrapper : LetterStream → Wrapper
  | gzip _ => .Gzip
  | raw _ => .Raw
  | primed => .Raw

def totalIn : LetterStream → Nat
  | gzip i => i
  | raw i => i
  | primed => 0

def taken : LetterStream → Nat → LetterStream
  | gzip i, n => gzip (i + n)
  | raw i, n => raw (i + n)
  | primed, _ => primed

/-- Six bits of the last byte of the block are not used. -/
def held : LetterStream → Nat
  | gzip i => if i = 13 then 6 else 0
  | raw i => if i = 3 then 6 else 0
  | primed => 0

/-- A header of ten bytes, a block of three, and a trailer of eight. -/
def answer : LetterStream → Nat → Reply
  | gzip i, len =>
      if i < 10 then upTo i 10 len [] .ok 128
      else if i < 13 then upTo i 13 len [0x61] .ok 198
      else upTo i 21 len [] .streamEnd 64
  | raw i, len =>
      if i < 3 then upTo i 3 len [0x61] .ok 198 else ⟨i, 0, [], .streamEnd, 64⟩
  | primed, _ => ⟨0, 0, [], .error (-3), 0⟩

end LetterStream

def letterStreams : Zlib where
  Stream := LetterStream
  init
    | .Gzip => .gzip 0
    | .Raw => .raw 0
  prime s _ _ := match s with
    | .gzip i => .gzip i
    | .raw _ => .primed
    | .primed => .primed
  inflate s input availOut :=
    let r := s.answer input.length
    { stream := s.taken (min r.consumed input.length)
      consumed := min r.consumed input.length
      out := r.out.take availOut
      ret := r.ret
      dataType := r.dataType
      consumed_le := Nat.min_le_right _ _
      out_le := List.length_take_le _ _ }
  msg _ := "(null)"

def letterAccounts : letterStreams.Accounts where
  wrapper := LetterStream.wrapper
  totalIn := LetterStream.totalIn
  held := LetterStream.held
  wrapper_init w := by cases w <;> rfl
  totalIn_init w := by cases w <;> rfl
  held_init w := by cases w <;> rfl
  wrapper_prime s _ _ := by cases s <;> rfl
  held_prime s _ _ := by
    cases s with
    | gzip i => exact Nat.le_add_right _ _
    | raw i => exact Nat.zero_le _
    | primed => exact Nat.zero_le _
  wrapper_inflate s _ _ := by cases s <;> rfl
  totalIn_inflate s input room := by
    cases s with
    | gzip i => rfl
    | raw i => rfl
    | primed => exact (Nat.zero_min input.length).symm

theorem LetterStream.held_lt (s : LetterStream) : s.held < 8 := by
  cases s with
  | gzip i =>
      rw [held]
      split <;> decide
  | raw i =>
      rw [held]
      split <;> decide
  | primed => decide

/-- A call that succeeds takes a byte. -/
theorem LetterStream.consumed_pos {s : LetterStream} {len : Nat} (hlen : 0 < len)
    (h : (s.answer len).ret = .ok) : 0 < min (s.answer len).consumed len := by
  cases s with
  | gzip i =>
      simp only [answer, upTo] at h ⊢
      split_ifs at h ⊢ <;> simp_all
  | raw i =>
      simp only [answer, upTo] at h ⊢
      split_ifs at h ⊢ <;> simp_all
  | primed => cases h

/-- At the end of the block `data_type` tells that. -/
theorem LetterStream.unused_le {s : LetterStream} {len : Nat}
    (h : (s.answer len).dataType / 128 % 2 = 1) :
    (s.answer len).dataType % 8 ≤ (s.taken (min (s.answer len).consumed len)).held := by
  cases s with
  | gzip i =>
      by_cases hheader : i < 10
      · have hzero : ((gzip i).answer len).dataType % 8 = 0 := by
          simp only [answer, if_pos hheader, upTo]
          split <;> simp
        rw [hzero]
        exact Nat.zero_le _
      · by_cases hblock : 13 ≤ i ∨ i + len < 13
        · exfalso
          revert h
          simp only [answer, if_neg hheader, upTo]
          split_ifs <;> first | omega | simp
        · have hreply : (gzip i).answer len = ⟨13, 13 - i, [0x61], .ok, 198⟩ := by
            rw [answer, if_neg hheader, if_pos (by omega), upTo, if_neg (by omega)]
          have hplace : i + min (13 - i) len = 13 := by omega
          rw [hreply, taken, hplace, held, if_pos rfl]
          show 198 % 8 ≤ 6
          decide
  | raw i =>
      by_cases hblock : 3 ≤ i ∨ i + len < 3
      · exfalso
        revert h
        simp only [answer, upTo]
        split_ifs <;> first | omega | simp
      · have hreply : (raw i).answer len = ⟨3, 3 - i, [0x61], .ok, 198⟩ := by
          rw [answer, if_pos (by omega), upTo, if_neg (by omega)]
        have hplace : i + min (3 - i) len = 3 := by omega
        rw [hreply, taken, hplace, held, if_pos rfl]
        show 198 % 8 ≤ 6
        decide
  | primed =>
      have hzero : (primed.answer len).dataType = 0 := rfl
      rw [hzero] at h
      cases h

theorem letterAccounts_orderly : letterAccounts.Orderly := by
  have htakes : ∀ {s input room}, Succeeds letterStreams s input room →
      0 < (letterStreams.inflate s input room).consumed := fun hcall =>
    LetterStream.consumed_pos (List.length_pos_iff.mpr hcall.hasInput) hcall.ok
  have huses : ∀ {s input room}, Succeeds letterStreams s input room →
      letterAccounts.held (letterStreams.inflate s input room).stream <
        letterAccounts.held s + 8 * (letterStreams.inflate s input room).consumed := by
    intro s input room hcall
    have hpos := htakes hcall
    have hlt := LetterStream.held_lt (letterStreams.inflate s input room).stream
    exact Nat.lt_of_lt_of_le hlt (by omega)
  constructor
  · exact fun hcall => Nat.le_of_lt (huses hcall)
  · exact fun hcall hheld => absurd hheld (Nat.ne_of_lt (huses hcall))
  · constructor
    intro s
    constructor
    rintro s' ⟨input, room, hcall, rfl, -, hheld⟩
    exact absurd hheld (Nat.ne_of_lt (huses hcall))
  · exact fun _ hcall _ => Nat.ne_of_lt (huses hcall)
  · exact fun _ hstop => LetterStream.unused_le hstop
  · intro s input room hwrapper hend
    cases s with
    | gzip i =>
        by_cases hlo : i < 13
        · have hok : ((LetterStream.gzip i).answer input.length).ret = .ok := by
            simp only [LetterStream.answer, upTo]
            split_ifs <;> rfl
          exact absurd (hok.symm.trans hend) nofun
        · exact Nat.lt_of_lt_of_le (by omega) (Nat.le_add_right i _)
    | raw i => cases hwrapper
    | primed => cases hwrapper

theorem buildIndex_ends_letter :
    ∃ fuel out,
      @buildIndex letterStreams (fun _ => 0) "a.gz" 32 fuel [] letterFile = some out ∧
      ((∃ e, out = .error e) ∨
        ∃ s g, @Indexes letterStreams (fun _ => 0) "a.gz" (32 * WindowSize) letterFile s g ∧
          LeavesAtEnd s.rd.live g) :=
  buildIndex_ends letterAccounts_orderly _ _ _ _

end GzipFile

end Lzopfs
