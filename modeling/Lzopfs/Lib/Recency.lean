import Mathlib.Algebra.GroupWithZero.Nat
import Mathlib.Data.List.Find
import Mathlib.Data.List.Perm.Basic

/-!
# Recency lists

A recency list holds items with weights, the most recently used one first. `touch`
moves an item to the front, and `keep` is what is left of the list when items are
dropped from its end until the rest fits under a bound: its longest prefix that
fits.
-/

namespace Verify

variable {α : Type}

section Touch

/-- Move the first item that satisfies `p` to the front. -/
def touch (p : α → Bool) (l : List α) : List α :=
  match l.find? p with
  | some a => a :: l.eraseP p
  | none => l

variable {p q : α → Bool} {l : List α} {a : α}

theorem touch_of_find (h : l.find? p = some a) : touch p l = a :: l.eraseP p := by
  simp only [touch, h]

theorem touch_of_none (h : l.find? p = none) : touch p l = l := by
  simp only [touch, h]

theorem touch_perm (p : α → Bool) (l : List α) : (touch p l).Perm l := by
  cases h : l.find? p with
  | none => rw [touch_of_none h]
  | some a =>
      obtain ⟨hp, as, bs, rfl, hnot⟩ := List.find?_eq_some_iff_append.mp h
      have herase : (as ++ a :: bs).eraseP p = as ++ bs := by
        rw [List.eraseP_append_right]
        · rw [List.eraseP_cons_of_pos hp]
        · intro b hb
          simpa using hnot b hb
      rw [touch_of_find h, herase]
      exact List.perm_middle.symm

/-- What is moved depends only on how the test answers on the list. -/
theorem touch_congr (h : ∀ a ∈ l, p a = q a) : touch p l = touch q l := by
  have hfind : l.find? p = l.find? q := List.find?_congr h
  have herase : l.eraseP p = l.eraseP q := by
    clear hfind
    induction l with
    | nil => rfl
    | cons b l ih =>
        rw [List.eraseP_cons, List.eraseP_cons, h b List.mem_cons_self,
          ih fun a ha => h a (List.mem_cons_of_mem b ha)]
  simp only [touch, hfind, herase]

theorem map_touch {β : Type} {f : α → β} {r : β → Bool} (h : ∀ a, r (f a) = p a) :
    (touch p l).map f = touch r (l.map f) := by
  have hp : r ∘ f = p := funext h
  cases hfind : l.find? p with
  | none =>
      rw [touch_of_none hfind, touch_of_none]
      rw [List.find?_map, hp, hfind]
      rfl
  | some a =>
      rw [touch_of_find hfind, touch_of_find (a := f a), List.eraseP_map, hp]
      · rfl
      · rw [List.find?_map, hp, hfind]
        rfl

end Touch

section Keep

variable (weight : α → Nat)

/-- The longest prefix whose weights add up to at most `cap`. -/
def keep (cap : Nat) : List α → List α
  | [] => []
  | a :: l => if weight a ≤ cap then a :: keep (cap - weight a) l else []

variable {weight} {cap : Nat} {l : List α} {a : α}

theorem keep_isPrefix (cap : Nat) (l : List α) : keep weight cap l <+: l := by
  induction l generalizing cap with
  | nil => exact List.nil_prefix
  | cons a l ih =>
      rw [keep]
      split
      · exact List.prefix_cons_inj a |>.mpr (ih _)
      · exact List.nil_prefix

theorem sum_keep_le (cap : Nat) (l : List α) : ((keep weight cap l).map weight).sum ≤ cap := by
  induction l generalizing cap with
  | nil => exact Nat.zero_le cap
  | cons a l ih =>
      rw [keep]
      split
      · have hrest := ih (cap - weight a)
        rw [List.map_cons, List.sum_cons]
        omega
      · exact Nat.zero_le cap

/-- No longer prefix fits. -/
theorem prefix_keep {p : List α} (hp : p <+: l) (hsum : (p.map weight).sum ≤ cap) :
    p <+: keep weight cap l := by
  induction l generalizing cap p with
  | nil =>
      rw [List.prefix_nil.mp hp]
      exact List.nil_prefix
  | cons a l ih =>
      cases p with
      | nil => exact List.nil_prefix
      | cons b p =>
          obtain ⟨rfl, htail⟩ := List.cons_prefix_cons.mp hp
          rw [List.map_cons, List.sum_cons] at hsum
          rw [keep, if_pos (by omega), List.prefix_cons_inj]
          exact ih htail (by omega)

theorem keep_of_sum_le (h : (l.map weight).sum ≤ cap) : keep weight cap l = l :=
  (keep_isPrefix cap l).eq_of_length_le (prefix_keep List.prefix_rfl h).length_le

/-- An item at the end that does not fit is dropped. -/
theorem keep_concat (h : cap < ((l ++ [a]).map weight).sum) :
    keep weight cap (l ++ [a]) = keep weight cap l := by
  have hle : keep weight cap l <+: keep weight cap (l ++ [a]) :=
    prefix_keep ((keep_isPrefix cap l).trans (List.prefix_append l [a])) (sum_keep_le cap l)
  have hne : keep weight cap (l ++ [a]) ≠ l ++ [a] := by
    intro heq
    have hsum : ((keep weight cap (l ++ [a])).map weight).sum ≤ cap := sum_keep_le cap (l ++ [a])
    rw [heq] at hsum
    omega
  have hpre : keep weight cap (l ++ [a]) <+: l := by
    have hall : keep weight cap (l ++ [a]) <+: l ++ [a] := keep_isPrefix cap (l ++ [a])
    obtain heq | hp := List.prefix_concat_iff.mp hall
    · exact absurd heq hne
    · exact hp
  exact ((prefix_keep hpre (sum_keep_le cap (l ++ [a]))).eq_of_length_le hle.length_le)

end Keep

end Verify
