import Mathlib.Algebra.Group.Nat.Defs
import Mathlib.Order.Basic

/-!
# Binary search for a partition point

`lowerBound below first len` is the search `std::lower_bound` makes in the
`len` positions from `first` on, for a comparison that only sees positions. If
the positions that compare below form an initial segment, the result is the
first position that does not.
-/

namespace Verify

/-- Halve the range that still contains the answer until it is empty. -/
def lowerBound (below : Nat → Bool) (first len : Nat) : Nat :=
  if len = 0 then first
  else if below (first + len / 2) then
    lowerBound below (first + len / 2 + 1) (len - len / 2 - 1)
  else lowerBound below first (len / 2)
termination_by len

variable {below : Nat → Bool}

/-- The search ends inside the range, whatever the comparison answers. -/
theorem lowerBound_mem (first len : Nat) :
    first ≤ lowerBound below first len ∧ lowerBound below first len ≤ first + len := by
  fun_induction lowerBound below first len with
  | case1 first => omega
  | case2 first len hne hb ih => omega
  | case3 first len hne hb ih => omega

/-- On a partitioned range the result separates the two parts. -/
theorem lowerBound_partition {first len : Nat}
    (mono : ∀ i j, first ≤ i → i ≤ j → j < first + len → below j = true → below i = true) :
    (∀ i, first ≤ i → i < lowerBound below first len → below i = true) ∧
    (∀ i, lowerBound below first len ≤ i → i < first + len → below i = false) := by
  fun_induction lowerBound below first len with
  | case1 first => exact ⟨fun i h1 h2 => by omega, fun i h1 h2 => by omega⟩
  | case2 first len hne hb ih =>
      have hrest := ih fun i j h1 h2 h3 => mono i j (by omega) h2 (by omega)
      refine ⟨fun i h1 h2 => ?_, fun i h1 h2 => hrest.2 i h1 (by omega)⟩
      by_cases hi : i ≤ first + len / 2
      · exact mono i _ h1 hi (by omega) hb
      · exact hrest.1 i (by omega) h2
  | case3 first len hne hb ih =>
      have hrest := ih fun i j h1 h2 h3 => mono i j h1 h2 (by omega)
      refine ⟨fun i h1 h2 => hrest.1 i h1 h2, fun i h1 h2 => ?_⟩
      by_cases hi : i < first + len / 2
      · exact hrest.2 i h1 (by omega)
      · have hm : lowerBound below first (len / 2) ≤ first + len / 2 := (lowerBound_mem _ _).2
        refine Bool.eq_false_iff.mpr fun hbi => hb ?_
        exact mono _ i (by omega) (by omega) h2 hbi

/-- The partition point of a range is the only one. -/
theorem lowerBound_eq {first len k : Nat} (h1 : first ≤ k) (h2 : k ≤ first + len)
    (lo : ∀ i, first ≤ i → i < k → below i = true)
    (hi : ∀ i, k ≤ i → i < first + len → below i = false) :
    lowerBound below first len = k := by
  have mono : ∀ i j, first ≤ i → i ≤ j → j < first + len → below j = true → below i = true := by
    intro i j hfi hij hj hb
    by_cases hk : j < k
    · exact lo i hfi (by omega)
    · rw [hi j (by omega) hj] at hb
      cases hb
  obtain ⟨hlow, hhigh⟩ := lowerBound_partition mono
  obtain ⟨hm1, hm2⟩ := lowerBound_mem first len
  obtain h | h | h := Nat.lt_trichotomy (lowerBound below first len) k
  · have := hhigh _ (Nat.le_refl _) (by omega)
    rw [lo _ hm1 h] at this
    cases this
  · exact h
  · have := hlow k h1 h
    rw [hi k (Nat.le_refl _) (by omega)] at this
    cases this

/-- Where only the positions from `p` up to `t` compare below, the search finds `t` if
and only if no probe falls in front of `p` before one falls between them. -/
theorem lowerBound_band {p t n : Nat} (hpt : p ≤ t) (htn : t ≤ n)
    (hbelow : ∀ i < n, below i = decide (p ≤ i ∧ i < t)) :
    lowerBound below 0 n = t ↔ p = 0 ∨ ∃ k, p ≤ n / 2 ^ (k + 1) ∧ n / 2 ^ (k + 1) < t := by
  obtain rfl | hp := Nat.eq_zero_or_pos p
  · refine iff_of_true (lowerBound_eq (Nat.zero_le t) (by omega) ?_ ?_) (.inl rfl)
    · intro i _ hi
      rw [hbelow i (by omega)]
      exact decide_eq_true ⟨Nat.zero_le i, hi⟩
    · intro i hi hin
      rw [hbelow i (by omega)]
      exact decide_eq_false (by omega)
  induction n using Nat.strongRecOn with
  | ind n ih =>
      have hn : n ≠ 0 := by omega
      have hhalf : n / 2 < n := by omega
      have hpow : ∀ k, n / 2 ^ (k + 1) ≤ n / 2 := by
        intro k
        rw [Nat.pow_succ', ← Nat.div_div_eq_div_mul]
        exact Nat.div_le_self _ _
      rw [lowerBound, if_neg hn, Nat.zero_add, hbelow (n / 2) hhalf]
      by_cases hlo : p ≤ n / 2
      · by_cases hhi : n / 2 < t
        · -- The probe falls between `p` and `t`: behind it the range is partitioned.
          rw [if_pos (decide_eq_true ⟨hlo, hhi⟩)]
          refine iff_of_true (lowerBound_eq (by omega) (by omega) ?_ ?_) (.inr ⟨0, ?_⟩)
          · intro i hi hit
            rw [hbelow i (by omega)]
            exact decide_eq_true (by omega)
          · intro i hi hin
            rw [hbelow i (by omega)]
            exact decide_eq_false (by omega)
          · rw [Nat.zero_add, Nat.pow_one]
            exact ⟨hlo, hhi⟩
        · -- It falls behind `t`: the search goes on in front of it.
          rw [if_neg (by simp only [decide_eq_true_eq]; omega)]
          rw [ih (n / 2) hhalf (by omega) fun i hi => hbelow i (by omega)]
          refine or_congr_right ⟨?_, ?_⟩
          · rintro ⟨k, hk⟩
            refine ⟨k + 1, ?_⟩
            rwa [Nat.pow_succ', ← Nat.div_div_eq_div_mul]
          · rintro ⟨k, hk⟩
            cases k with
            | zero =>
                rw [Nat.zero_add, Nat.pow_one] at hk
                omega
            | succ k =>
                refine ⟨k, ?_⟩
                rwa [Nat.pow_succ', ← Nat.div_div_eq_div_mul] at hk
      · -- It falls in front of `p`, and so do all that follow.
        rw [if_neg (by simp only [decide_eq_true_eq]; omega)]
        have hzero : lowerBound below 0 (n / 2) = 0 := by
          refine lowerBound_eq (Nat.le_refl 0) (by omega) ?_ ?_
          · intro i _ hi
            omega
          · intro i _ hi
            rw [hbelow i (by omega)]
            exact decide_eq_false (by omega)
        refine iff_of_false (by omega) ?_
        rintro (h0 | ⟨k, hk, -⟩)
        · omega
        · have hle := hpow k
          omega

end Verify
