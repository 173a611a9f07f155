import Lzopfs.Bzip2Streams
import Mathlib.Data.List.Chain

/-!
# The levels of the streams

The search finds the level of a stream by counting the bytes from the end of the stream in
front of it. It counts looks, and a look that is made twice is counted twice: then the level
is read from the byte before the right one.
-/

namespace Lzopfs

open Verify FileHandle

namespace Bzip2File

/-- The look `l` follows on `k`: at the next byte, with that of `k` in front of it, or once
more at the same one. -/
def Follows (data : Buffer) (twice : Nat → Prop) (k l : Look) : Prop :=
  (l.pos = k.pos + 1 ∧ l.prev = data.getD k.pos 0) ∨ l.pos = k.pos ∧ twice l.pos

/-- The first bytes of the chunks in front of the chunk `m`, but for the very first one. -/
def Twice (m d : Nat) : Prop := ∃ i, 0 < i ∧ i < m ∧ d = fresh * i

variable {before : Nat → UInt8} {data : Buffer} {s : Scan} {k l : Look} {twice : Nat → Prop}

theorem Twice.mono {m n d : Nat} (hmn : m ≤ n) (h : Twice m d) : Twice n d := by
  obtain ⟨i, hpos, hi, rfl⟩ := h
  exact ⟨i, hpos, by omega, rfl⟩

/-- The count after a look at `q`: the level is taken from the byte at `t`, or from one that
many bytes before it as looks were made twice. -/
def Counting (data : Buffer) (t extra q : Nat) (s : Scan) : Prop :=
  if q + extra < t then s.lcount + q + extra = t
  else s.lcount = 0 ∧ s.level = data.getD (t - extra) 0

/-- A look does not find the end of a stream. -/
def NoEnd (data : Buffer) (l : Look) : Prop := ∀ b, hit data l ≠ some (EOSMagic, b)

theorem look_of_noEnd (h : NoEnd data l) :
    (look data s l).lcount = s.lcount - 1 ∧ (look data s l).level = levelAt data s l := by
  cases hhit : hit data l with
  | none =>
      rw [look_none hhit]
      exact ⟨rfl, rfl⟩
  | some p =>
      obtain ⟨v, b⟩ := p
      have hv : v ≠ EOSMagic := by
        rintro rfl
        exact h b hhit
      rw [look_some hhit, if_neg hv]
      exact ⟨rfl, rfl⟩

variable {t extra q : Nat}

theorem Counting.next (h : Counting data t extra q s) (hl : NoEnd data l) (hpos : l.pos = q + 1) :
    Counting data t extra (q + 1) (look data s l) := by
  obtain ⟨hcount, hlevel⟩ := look_of_noEnd (s := s) hl
  rw [Counting] at h ⊢
  rw [hcount, hlevel, levelAt, hpos]
  split at h
  · split
    · omega
    · have hone : s.lcount = 1 := by omega
      have hbyte : q + 1 = t - extra := by omega
      rw [if_pos hone, hone, hbyte]
      exact ⟨rfl, rfl⟩
  · rw [if_neg (by omega), h.1, if_neg (by decide)]
    exact ⟨rfl, h.2⟩

/-- Once the level has been found, a second look changes nothing. -/
theorem Counting.again (h : Counting data t extra q s) (hl : NoEnd data l) (hq : t ≤ q + extra) :
    Counting data t extra q (look data s l) := by
  obtain ⟨hcount, hlevel⟩ := look_of_noEnd (s := s) hl
  rw [Counting, if_neg (by omega)] at h ⊢
  rw [hcount, hlevel, levelAt, h.1, if_neg (by decide)]
  exact ⟨rfl, h.2⟩

open CompressedStream

variable {st st' : CompressedStream} {front back streams : List CompressedStream}

end Bzip2File

end Lzopfs
