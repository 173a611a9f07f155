import Mathlib.Data.List.Induction
import Mathlib.Tactic.Ring

/-!
# Fixed-width big-endian and little-endian numbers

`beBytes n v` is the `n`-byte big-endian form of `v`, `ofBE` reads any byte
string back as a number. Little-endian forms are their reversals.
-/

namespace Verify

/-- The number a byte string stands for, most significant byte first. -/
def ofBE (bs : List UInt8) : Nat :=
  bs.foldl (fun v b => v * 256 + b.toNat) 0

/-- The last `n` base-256 digits of `v`, most significant first. -/
def beBytes : Nat → Nat → List UInt8
  | 0, _ => []
  | n + 1, v => beBytes n (v / 256) ++ [UInt8.ofNat v]

/-- The number a byte string stands for, least significant byte first. -/
def ofLE (bs : List UInt8) : Nat := ofBE bs.reverse

/-- The first `n` base-256 digits of `v`, least significant first. -/
def leBytes (n v : Nat) : List UInt8 := (beBytes n v).reverse

@[simp] theorem length_beBytes (n v : Nat) : (beBytes n v).length = n := by
  induction n generalizing v with
  | zero => rfl
  | succ n ih => simp [beBytes, ih]

@[simp] theorem length_leBytes (n v : Nat) : (leBytes n v).length = n := by
  simp [leBytes]

@[simp] theorem ofBE_nil : ofBE [] = 0 := rfl

theorem ofBE_append_singleton (bs : List UInt8) (b : UInt8) :
    ofBE (bs ++ [b]) = ofBE bs * 256 + b.toNat := by
  simp [ofBE]

/-- Appending shifts the higher part by the width of the lower one. -/
theorem ofBE_append (as bs : List UInt8) :
    ofBE (as ++ bs) = ofBE as * 256 ^ bs.length + ofBE bs := by
  induction bs using List.reverseRecOn with
  | nil => simp
  | append_singleton bs b ih =>
      rw [← List.append_assoc, ofBE_append_singleton, ih, ofBE_append_singleton,
        List.length_append, List.length_singleton, Nat.pow_succ]
      ring

theorem ofBE_lt (bs : List UInt8) : ofBE bs < 256 ^ bs.length := by
  induction bs using List.reverseRecOn with
  | nil => simp
  | append_singleton bs b ih =>
      have hb := b.toNat_lt
      rw [ofBE_append_singleton, List.length_append, List.length_singleton, Nat.pow_succ]
      omega

/-- Decoding an encoding gives the number back, reduced to the width. -/
theorem ofBE_beBytes_mod (n v : Nat) : ofBE (beBytes n v) = v % 256 ^ n := by
  induction n generalizing v with
  | zero => simp [beBytes, Nat.mod_one]
  | succ n ih =>
      have hpow : 256 ^ (n + 1) = 256 * 256 ^ n := Nat.pow_succ'
      rw [beBytes, ofBE_append_singleton, ih, UInt8.toNat_ofNat', hpow, Nat.mod_mul]
      omega

theorem ofBE_beBytes {n v : Nat} (h : v < 256 ^ n) : ofBE (beBytes n v) = v := by
  rw [ofBE_beBytes_mod, Nat.mod_eq_of_lt h]

theorem ofLE_leBytes {n v : Nat} (h : v < 256 ^ n) : ofLE (leBytes n v) = v := by
  rw [ofLE, leBytes, List.reverse_reverse, ofBE_beBytes h]

/-- Encoding a decoding gives the bytes back. -/
theorem beBytes_ofBE (bs : List UInt8) : beBytes bs.length (ofBE bs) = bs := by
  induction bs using List.reverseRecOn with
  | nil => rfl
  | append_singleton bs b ih =>
      have hb := b.toNat_lt
      have hdiv : (ofBE bs * 256 + b.toNat) / 256 = ofBE bs := by omega
      have hmod : UInt8.ofNat (ofBE bs * 256 + b.toNat) = b := by
        apply UInt8.toNat_inj.mp
        rw [UInt8.toNat_ofNat']
        omega
      rw [List.length_append, List.length_singleton, beBytes, ofBE_append_singleton, hdiv, hmod,
        ih]

/-- Encoding a decoding gives the bytes back. -/
theorem leBytes_ofLE (bs : List UInt8) : leBytes bs.length (ofLE bs) = bs := by
  have hrev := beBytes_ofBE bs.reverse
  rw [List.length_reverse] at hrev
  rw [leBytes, ofLE, hrev, List.reverse_reverse]

theorem ofLE_lt (bs : List UInt8) : ofLE bs < 256 ^ bs.length := by
  have hlt := ofBE_lt bs.reverse
  rwa [List.length_reverse] at hlt

end Verify
