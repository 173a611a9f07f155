import Mathlib.Data.List.DropRight

/-!
# Paths and extensions

The base name of a path, and taking an extension off a name or putting another
in its place. A name that starts with the dot of the extension has no extension.
-/

namespace Lzopfs

/-- `std::string`, as the list of its characters. -/
abbrev Str := List Char

namespace PathUtils

/-- What stands behind the last slash, not counting slashes at the end. -/
def basename (path : Str) : Str :=
  if path = [] then ['.']
  else if path.rdropWhile (· = '/') = [] then ['/']
  else (path.rdropWhile (· = '/')).rtakeWhile (· ≠ '/')

/-- Where `needle` starts at the end of `haystack`; `none` is `npos`. -/
def endsWith (haystack needle : Str) : Option Nat :=
  if needle.length ≤ haystack.length ∧ haystack.drop (haystack.length - needle.length) = needle
  then some (haystack.length - needle.length)
  else none

/-- The start of the extension. A name can't start with it. -/
def hasExtension (name ext : Str) : Option Nat :=
  match endsWith name ('.' :: ext) with
  | none => none
  | some 0 => none
  | some pos => some (pos + 1)

/-- The new name, if the name has the extension. -/
def replaceExtension (name ext replace : Str) : Option Str :=
  (hasExtension name ext).map fun pos => name.take pos ++ replace

/-- The new name, if the name has the extension. -/
def removeExtension (name ext : Str) : Option Str :=
  (hasExtension name ext).map fun pos => name.take (pos - 1)

variable {path name haystack needle ext replace out : Str} {pos : Nat}

theorem endsWith_iff : endsWith haystack needle = some pos ↔
    ∃ front, haystack = front ++ needle ∧ front.length = pos := by
  rw [endsWith]
  constructor
  · intro h
    split at h
    · rename_i hend
      cases h
      refine ⟨haystack.take (haystack.length - needle.length), ?_, ?_⟩
      · calc haystack = haystack.take (haystack.length - needle.length) ++
              haystack.drop (haystack.length - needle.length) := (List.take_append_drop _ _).symm
          _ = _ := by rw [hend.2]
      · rw [List.length_take]
        omega
    · cases h
  · rintro ⟨front, rfl, rfl⟩
    rw [List.length_append, Nat.add_sub_cancel, List.drop_left,
      if_pos ⟨Nat.le_add_left _ _, rfl⟩]

/-- The name is something, a dot and the extension. -/
theorem hasExtension_iff : hasExtension name ext = some pos ↔
    ∃ front, name = front ++ '.' :: ext ∧ front ≠ [] ∧ front.length + 1 = pos := by
  rw [hasExtension]
  constructor
  · intro h
    split at h
    · cases h
    · cases h
    · rename_i hne hend
      cases h
      obtain ⟨front, rfl, rfl⟩ := endsWith_iff.mp hend
      refine ⟨front, rfl, ?_, rfl⟩
      rintro rfl
      exact hne rfl
  · rintro ⟨front, rfl, hne, rfl⟩
    have hend : endsWith (front ++ '.' :: ext) ('.' :: ext) = some front.length :=
      endsWith_iff.mpr ⟨front, rfl, rfl⟩
    obtain ⟨a, front, rfl⟩ := List.exists_cons_of_ne_nil hne
    rw [hend]
    rfl

theorem removeExtension_iff : removeExtension name ext = some out ↔
    name = out ++ '.' :: ext ∧ out ≠ [] := by
  rw [removeExtension, Option.map_eq_some_iff]
  constructor
  · rintro ⟨pos, hpos, rfl⟩
    obtain ⟨front, rfl, hne, rfl⟩ := hasExtension_iff.mp hpos
    rw [Nat.add_sub_cancel, List.take_left]
    exact ⟨rfl, hne⟩
  · rintro ⟨rfl, hne⟩
    refine ⟨out.length + 1, hasExtension_iff.mpr ⟨out, rfl, hne, rfl⟩, ?_⟩
    rw [Nat.add_sub_cancel, List.take_left]

theorem replaceExtension_iff : replaceExtension name ext replace = some out ↔
    ∃ front, name = front ++ '.' :: ext ∧ front ≠ [] ∧ out = front ++ '.' :: replace := by
  have htake : ∀ front : Str, (front ++ '.' :: ext).take (front.length + 1) = front ++ ['.'] := by
    intro front
    rw [List.take_append, List.take_of_length_le (by omega), Nat.add_sub_cancel_left]
    rfl
  rw [replaceExtension, Option.map_eq_some_iff]
  constructor
  · rintro ⟨pos, hpos, rfl⟩
    obtain ⟨front, rfl, hne, rfl⟩ := hasExtension_iff.mp hpos
    refine ⟨front, rfl, hne, ?_⟩
    rw [htake, List.append_assoc]
    rfl
  · rintro ⟨front, rfl, hne, rfl⟩
    refine ⟨front.length + 1, hasExtension_iff.mpr ⟨front, rfl, hne, rfl⟩, ?_⟩
    rw [htake, List.append_assoc]
    rfl

theorem basename_ne_nil : basename path ≠ [] := by
  rw [basename]
  split
  · exact List.cons_ne_nil _ _
  · split
    · exact List.cons_ne_nil _ _
    · rename_i hne
      intro hnil
      have hlast := List.rdropWhile_last_not _ path hne
      rw [List.rtakeWhile_eq_nil_iff] at hnil
      have hslash := hnil hne
      simp only [decide_eq_true_eq] at hlast hslash
      exact hslash hlast

/-- Only the base name of the root has a slash in it. -/
theorem slash_notMem_basename (h : basename path ≠ ['/']) : '/' ∉ basename path := by
  rw [basename] at h ⊢
  split
  · decide
  · rename_i hpath
    rw [if_neg hpath] at h
    split
    · rename_i hroot
      rw [if_pos hroot] at h
      exact absurd rfl h
    · intro hmem
      have hne := List.mem_rtakeWhile_imp hmem
      simp at hne

end PathUtils

end Lzopfs
