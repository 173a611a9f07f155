import Lzopfs.Lib.Endian
import Mathlib.Data.List.Basic

/-!
# The bits of a byte string

`toBits` is a byte string as the sequence of its bits, most significant first, and
`toLsbBits` the same with the bits of each byte turned round. The two
ways to merge neighbouring bytes by shifts are the two ways to cut a new byte out of
the sequence: across the border of two bytes, or from the fronts of both.
-/

namespace Verify

/-- The bits of a byte, most significant first. -/
def byteBits (x : UInt8) : List Bool := (List.range 8).map fun i => x.toNat.testBit (7 - i)

def toBits (bs : List UInt8) : List Bool := bs.flatMap byteBits

/-- `x` shifted out to the left by `l` bits, and `y` to the right by `r`, as one byte. -/
def shiftByte (x y : UInt8) (l r : Nat) : UInt8 :=
  UInt8.ofNat ((x.toNat <<< l) ||| (y.toNat >>> r))

/-- The last `e` bits of `x` replaced by those of `y` shifted to the right by `r`. -/
def mergeByte (x y : UInt8) (e r : Nat) : UInt8 :=
  UInt8.ofNat (((x.toNat >>> e) <<< e) ||| (y.toNat >>> r))

/-- The bytes cut out of the sequence by shifting each byte with the next one. -/
def shiftBytes (l r : Nat) : List UInt8 → List UInt8
  | x :: y :: bs => shiftByte x y l r :: shiftBytes l r (y :: bs)
  | _ => []

@[simp] theorem length_byteBits (x : UInt8) : (byteBits x).length = 8 := by
  simp [byteBits]

@[simp] theorem toBits_nil : toBits [] = [] := rfl

@[simp] theorem toBits_cons (x : UInt8) (bs : List UInt8) :
    toBits (x :: bs) = byteBits x ++ toBits bs := rfl

@[simp] theorem toBits_append (as bs : List UInt8) :
    toBits (as ++ bs) = toBits as ++ toBits bs := by
  simp [toBits]

@[simp] theorem length_toBits (bs : List UInt8) : (toBits bs).length = 8 * bs.length := by
  induction bs with
  | nil => rfl
  | cons x bs ih =>
      rw [toBits_cons, List.length_append, length_byteBits, ih, List.length_cons]
      omega

theorem drop_eight {a t : List Bool} (h : a.length = 8) (n : Nat) :
    (a ++ t).drop (8 * (n + 1)) = t.drop (8 * n) := by
  have hn : 8 * (n + 1) = a.length + 8 * n := by omega
  rw [hn, List.drop_length_add_append]

theorem take_eight {a t : List Bool} (h : a.length = 8) (n : Nat) :
    (a ++ t).take (8 * (n + 1)) = a ++ t.take (8 * n) := by
  have hn : 8 * (n + 1) = a.length + 8 * n := by omega
  rw [hn, List.take_length_add_append]

theorem toBits_drop (bs : List UInt8) (n : Nat) :
    toBits (bs.drop n) = (toBits bs).drop (8 * n) := by
  induction n generalizing bs with
  | zero => rfl
  | succ n ih =>
      cases bs with
      | nil => simp
      | cons x bs => rw [List.drop_succ_cons, ih, toBits_cons, drop_eight (length_byteBits x)]

theorem toBits_take (bs : List UInt8) (n : Nat) :
    toBits (bs.take n) = (toBits bs).take (8 * n) := by
  induction n generalizing bs with
  | zero => rfl
  | succ n ih =>
      cases bs with
      | nil => simp
      | cons x bs =>
          rw [List.take_succ_cons, toBits_cons, toBits_cons, ih, take_eight (length_byteBits x)]

theorem getElem?_byteBits (x : UInt8) {i : Nat} (h : i < 8) :
    (byteBits x)[i]? = some (x.toNat.testBit (7 - i)) := by
  rw [byteBits, List.getElem?_map, List.getElem?_range h]
  rfl

theorem testBit_ofNat {n i : Nat} (h : i < 8) : (UInt8.ofNat n).toNat.testBit i = n.testBit i := by
  rw [UInt8.toNat_ofNat', Nat.testBit_mod_two_pow]
  simp [h]

theorem testBit_byte (x : UInt8) {i : Nat} (h : 8 ≤ i) : x.toNat.testBit i = false :=
  Nat.testBit_lt_two_pow (Nat.lt_of_lt_of_le x.toNat_lt (Nat.pow_le_pow_right Nat.two_pos h))

theorem byteBits_inj {x y : UInt8} (h : byteBits x = byteBits y) : x = y := by
  apply UInt8.toNat_inj.mp
  apply Nat.eq_of_testBit_eq
  intro i
  by_cases hi : i < 8
  · have hget := congrArg (fun bits => bits[7 - i]?) h
    simp only [getElem?_byteBits _ (show 7 - i < 8 by omega), Option.some.injEq] at hget
    rwa [show 7 - (7 - i) = i by omega] at hget
  · rw [testBit_byte x (Nat.le_of_not_lt hi), testBit_byte y (Nat.le_of_not_lt hi)]

variable {l r : Nat}

/-- The byte across a border. -/
theorem byteBits_shiftByte (x y : UInt8) (h : l + r = 8) :
    byteBits (shiftByte x y l r) = (byteBits x).drop l ++ (byteBits y).take l := by
  apply List.ext_getElem?
  intro i
  by_cases hi : i < 8
  · rw [getElem?_byteBits _ hi, shiftByte, testBit_ofNat (by omega), Nat.testBit_or,
      Nat.testBit_shiftLeft, Nat.testBit_shiftRight]
    by_cases hx : i < r
    · have hhigh : y.toNat.testBit (r + (7 - i)) = false := testBit_byte y (by omega)
      rw [List.getElem?_append_left (by rw [List.length_drop, length_byteBits]; omega),
        List.getElem?_drop, getElem?_byteBits _ (by omega), hhigh, Bool.or_false]
      have hle : l ≤ 7 - i := by omega
      have hsub : 7 - i - l = 7 - (l + i) := by omega
      simp [hle, hsub]
    · have hgt : ¬ l ≤ 7 - i := by omega
      rw [List.getElem?_append_right (by rw [List.length_drop, length_byteBits]; omega),
        List.length_drop, length_byteBits, List.getElem?_take_of_lt (by omega),
        getElem?_byteBits _ (by omega)]
      have hsub : r + (7 - i) = 7 - (i - (8 - l)) := by omega
      simp [hgt, hsub]
  · rw [List.getElem?_eq_none (by rw [length_byteBits]; omega), List.getElem?_eq_none]
    rw [List.length_append, List.length_drop, List.length_take, length_byteBits, length_byteBits]
    omega

/-- The byte from two fronts. -/
theorem byteBits_mergeByte (x y : UInt8) (h : l + r = 8) :
    byteBits (mergeByte x y l r) = (byteBits x).take r ++ (byteBits y).take l := by
  apply List.ext_getElem?
  intro i
  by_cases hi : i < 8
  · rw [getElem?_byteBits _ hi, mergeByte, testBit_ofNat (by omega), Nat.testBit_or,
      Nat.testBit_shiftLeft, Nat.testBit_shiftRight, Nat.testBit_shiftRight]
    by_cases hx : i < r
    · have hhigh : y.toNat.testBit (r + (7 - i)) = false := testBit_byte y (by omega)
      rw [List.getElem?_append_left (by rw [List.length_take, length_byteBits]; omega),
        List.getElem?_take_of_lt hx, getElem?_byteBits _ hi, hhigh, Bool.or_false]
      have hle : l ≤ 7 - i := by omega
      have hsub : l + (7 - i - l) = 7 - i := by omega
      simp [hle, hsub]
    · have hgt : ¬ l ≤ 7 - i := by omega
      rw [List.getElem?_append_right (by rw [List.length_take, length_byteBits]; omega),
        List.length_take, length_byteBits, List.getElem?_take_of_lt (by omega),
        getElem?_byteBits _ (by omega)]
      have hsub : r + (7 - i) = 7 - (i - min r 8) := by omega
      simp [hgt, hsub]
  · rw [List.getElem?_eq_none (by rw [length_byteBits]; omega), List.getElem?_eq_none]
    rw [List.length_append, List.length_take, List.length_take, length_byteBits, length_byteBits]
    omega

theorem length_shiftBytes (l r : Nat) (bs : List UInt8) :
    (shiftBytes l r bs).length = bs.length - 1 := by
  induction bs with
  | nil => rfl
  | cons x bs ih =>
      cases bs with
      | nil => rfl
      | cons y bs =>
          rw [shiftBytes, List.length_cons, ih]
          rfl

/-- Shifting all bytes moves the sequence of their bits. -/
theorem toBits_shiftBytes (x : UInt8) (bs : List UInt8) (h : l + r = 8) :
    toBits (shiftBytes l r (x :: bs)) = ((toBits (x :: bs)).drop l).take (8 * bs.length) := by
  induction bs generalizing x with
  | nil => rfl
  | cons y bs ih =>
      rw [shiftBytes, toBits_cons, ih, byteBits_shiftByte x y h, toBits_cons x, toBits_cons y]
      have hx : l ≤ (byteBits x).length := by
        rw [length_byteBits]
        omega
      have hy : l ≤ (byteBits y).length := by
        rw [length_byteBits]
        omega
      rw [List.drop_append_of_le_length hx, List.drop_append_of_le_length hy, List.length_cons]
      have hsplit : (byteBits x).drop l ++ (byteBits y ++ toBits bs) =
          ((byteBits x).drop l ++ (byteBits y).take l) ++ ((byteBits y).drop l ++ toBits bs) := by
        rw [List.append_assoc, ← List.append_assoc ((byteBits y).take l), List.take_append_drop]
      have hlen : ((byteBits x).drop l ++ (byteBits y).take l).length = 8 := by
        rw [List.length_append, List.length_drop, List.length_take, length_byteBits,
          length_byteBits]
        omega
      rw [hsplit, take_eight hlen]

theorem toBits_shiftBytes_concat (bs : List UInt8) (t : UInt8) (h : l + r = 8) :
    toBits (shiftBytes l r (bs ++ [t])) =
      ((toBits bs ++ byteBits t).drop l).take (8 * bs.length) := by
  have hbits : toBits bs ++ byteBits t = toBits (bs ++ [t]) := by
    rw [toBits_append, toBits_cons, toBits_nil, List.append_nil]
  rw [hbits]
  cases bs with
  | nil => rfl
  | cons x bs =>
    rw [List.cons_append, toBits_shiftBytes x _ h, List.length_append, List.length_cons]; rfl

/-- The number of a sequence of bits, most significant first. -/
def ofBits (l : List Bool) : Nat := l.foldl (fun v b => 2 * v + b.toNat) 0

@[simp] theorem ofBits_nil : ofBits [] = 0 := rfl

theorem ofBits_append (a b : List Bool) : ofBits (a ++ b) = ofBits a * 2 ^ b.length + ofBits b := by
  induction b using List.reverseRecOn with
  | nil => simp
  | append_singleton b x ih =>
      have hlast : ∀ l : List Bool, ofBits (l ++ [x]) = 2 * ofBits l + x.toNat := by simp [ofBits]
      rw [← List.append_assoc, hlast, ih, hlast, List.length_append, List.length_singleton,
        Nat.pow_succ]
      ring

theorem ofBits_lt (l : List Bool) : ofBits l < 2 ^ l.length := by
  induction l using List.reverseRecOn with
  | nil => simp
  | append_singleton l x ih =>
      have hx := x.toNat_lt
      rw [ofBits_append, List.length_append, List.length_singleton, Nat.pow_succ]
      have hone : ofBits [x] = x.toNat := by simp [ofBits]
      omega

theorem ofBits_inj {a b : List Bool} (hlen : a.length = b.length) (h : ofBits a = ofBits b) :
    a = b := by
  induction a generalizing b with
  | nil => exact (List.length_eq_zero_iff.mp hlen.symm).symm
  | cons x a ih =>
      cases b with
      | nil => cases hlen
      | cons y b =>
          have hlen' : a.length = b.length := Nat.succ.inj hlen
          have hx : ∀ (z : Bool) (l : List Bool),
              ofBits (z :: l) = z.toNat * 2 ^ l.length + ofBits l := by
            intro z l
            have hone : ofBits [z] = z.toNat := by simp [ofBits]
            rw [← List.singleton_append, ofBits_append, hone]
          have ha := ofBits_lt a
          have hb := ofBits_lt b
          rw [hx, hx, hlen'] at h
          rw [hlen'] at ha
          cases x <;> cases y <;> simp only [Bool.toNat_true, Bool.toNat_false] at h
          · rw [ih hlen' (by omega)]
          · omega
          · omega
          · rw [ih hlen' (by omega)]

theorem ofBits_take (l : List Bool) (n : Nat) :
    ofBits (l.take n) = ofBits l / 2 ^ (l.length - n) := by
  have hsplit := ofBits_append (l.take n) (l.drop n)
  have hlt := ofBits_lt (l.drop n)
  rw [List.take_append_drop, List.length_drop] at hsplit
  rw [List.length_drop] at hlt
  rw [hsplit, Nat.mul_comm, Nat.mul_add_div (Nat.two_pow_pos _), Nat.div_eq_of_lt hlt, Nat.add_zero]

theorem ofBits_drop (l : List Bool) (n : Nat) :
    ofBits (l.drop n) = ofBits l % 2 ^ (l.length - n) := by
  have hsplit := ofBits_append (l.take n) (l.drop n)
  have hlt := ofBits_lt (l.drop n)
  rw [List.take_append_drop, List.length_drop] at hsplit
  rw [List.length_drop] at hlt
  rw [hsplit, Nat.mul_comm, Nat.mul_add_mod, Nat.mod_eq_of_lt hlt]

theorem ofBits_byteBits (x : UInt8) : ofBits (byteBits x) = x.toNat := by
  have hall : ∀ n : Fin 256, ofBits (byteBits (UInt8.ofNat n)) = n := by
    decide +kernel
  have hx := hall ⟨x.toNat, x.toNat_lt⟩
  rwa [UInt8.ofNat_toNat] at hx

theorem ofBits_toBits (bs : List UInt8) : ofBits (toBits bs) = ofBE bs := by
  induction bs using List.reverseRecOn with
  | nil => rfl
  | append_singleton bs x ih =>
      rw [toBits_append, ofBits_append, ih, ofBE_append_singleton, length_toBits, toBits_cons,
        toBits_nil, List.append_nil, ofBits_byteBits]
      rfl

/-- A sequence of which some bits are not known fits one that has the known bits. -/
def Fits (pattern : List (Option Bool)) (bits : List Bool) : Prop :=
  ∀ (i : Nat) (x : Bool), pattern[i]? = some (some x) → bits[i]? = some x

namespace Fits

variable {p q : List (Option Bool)} {a b : List Bool}

theorem map_some (a : List Bool) : Fits (a.map some) a := by
  intro i x h
  rw [List.getElem?_map] at h
  obtain ⟨y, hy, heq⟩ := Option.map_eq_some_iff.mp h
  rw [hy, Option.some.inj heq]

theorem append (ha : Fits p a) (hlen : p.length = a.length) (hb : Fits q b) :
    Fits (p ++ q) (a ++ b) := by
  intro i x h
  obtain hi | hi := Nat.lt_or_ge i p.length
  · rw [List.getElem?_append_left hi] at h
    rw [List.getElem?_append_left (hlen ▸ hi)]
    exact ha i x h
  · rw [List.getElem?_append_right hi] at h
    rw [List.getElem?_append_right (hlen ▸ hi), ← hlen]
    exact hb _ x h

theorem drop (h : Fits p a) (n : Nat) : Fits (p.drop n) (a.drop n) := by
  intro i x hi
  rw [List.getElem?_drop] at hi ⊢
  exact h _ x hi

end Fits

def lsbBits (x : UInt8) : List Bool := (List.range 8).map x.toNat.testBit

def toLsbBits (bs : List UInt8) : List Bool := bs.flatMap lsbBits

@[simp] theorem length_lsbBits (x : UInt8) : (lsbBits x).length = 8 := by
  simp [lsbBits]

@[simp] theorem toLsbBits_nil : toLsbBits [] = [] := rfl

@[simp] theorem toLsbBits_cons (x : UInt8) (bs : List UInt8) :
    toLsbBits (x :: bs) = lsbBits x ++ toLsbBits bs := rfl

theorem toLsbBits_drop (bs : List UInt8) (n : Nat) :
    toLsbBits (bs.drop n) = (toLsbBits bs).drop (8 * n) := by
  induction n generalizing bs with
  | zero => rfl
  | succ n ih =>
      cases bs with
      | nil => simp
      | cons x bs => rw [List.drop_succ_cons, ih, toLsbBits_cons, drop_eight (length_lsbBits x)]

/-- The upper bits of a byte, as the lower bits of another one. -/
def upperBits (x : UInt8) (n : Nat) : UInt8 := UInt8.ofNat (x.toNat >>> (8 - n))

theorem lsbBits_upperBits (x : UInt8) {n : Nat} (h : n ≤ 8) :
    (lsbBits (upperBits x n)).take n = (lsbBits x).drop (8 - n) := by
  apply List.ext_getElem
  · simp only [List.length_take, List.length_drop, length_lsbBits]
    omega
  · intro i hi _
    simp only [List.length_take, length_lsbBits] at hi
    have hbit : (upperBits x n).toNat.testBit i = x.toNat.testBit (8 - n + i) := by
      rw [upperBits, testBit_ofNat (by omega), Nat.testBit_shiftRight]
    simpa [lsbBits] using hbit

end Verify
