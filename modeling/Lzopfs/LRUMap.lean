import Lzopfs.Basic
import Lzopfs.Lib.Recency
import Mathlib.Algebra.BigOperators.Group.List.Basic
import Mathlib.Data.List.Nodup
import Mathlib.Logic.Function.Basic

/-!
# A map that forgets the least recently used entries

An `LRUMap` is a linked list of entries, the most recently used one first, and a hash
map from keys to list iterators. Moving an entry within the list keeps its iterator
valid, so an iterator is the identity of a node here. The weights are unsigned 64-bit
numbers that would wrap around.

The reference it is compared with is the list of entries alone.
-/

namespace Lzopfs

open Verify

variable {Key Value : Type}

structure Entry (Key Value : Type) where
  key : Key
  value : Value
  weight : UInt64

/-- A node of the list, with its identity. -/
structure Node (Key Value : Type) where
  id : Nat
  entry : Entry Key Value

structure LRUMap (Key Value : Type) where
  /-- Most recent at front. -/
  mLRU : List (Node Key Value)
  mMap : Key → Option Nat
  mWeight : UInt64
  mMaxWeight : UInt64
  /-- The identity of the next node. -/
  fresh : Nat

namespace LRUMap

variable [DecidableEq Key]

def new (maxWeight : UInt64) : LRUMap Key Value where
  mLRU := []
  mMap := fun _ => none
  mWeight := 0
  mMaxWeight := maxWeight
  fresh := 0

/-- Forget the entry at the back of the list. -/
def popBack (m : LRUMap Key Value) (e : Node Key Value) : LRUMap Key Value :=
  { m with
    mMap := Function.update m.mMap e.entry.key none
    mWeight := m.mWeight - e.entry.weight
    mLRU := m.mLRU.dropLast }

def makeRoom (m : LRUMap Key Value) (newWeight : UInt64) : LRUMap Key Value :=
  match _h : m.mLRU.getLast? with
  | none => m
  | some e => if m.mWeight > newWeight then (m.popBack e).makeRoom newWeight else m
termination_by m.mLRU.length
decreasing_by
  have hne : m.mLRU ≠ [] := by
    intro hnil
    rw [hnil] at _h
    cases _h
  have hpos := List.length_pos_iff.mpr hne
  simp only [popBack, List.length_dropLast]
  omega

/-- Splice the node to the front. -/
def markNew (m : LRUMap Key Value) (iter : Nat) : LRUMap Key Value :=
  { m with mLRU := touch (fun n => n.id = iter) m.mLRU }

/-- The entry an iterator points to. -/
def deref (m : LRUMap Key Value) (iter : Nat) : Option (Entry Key Value) :=
  (m.mLRU.find? fun n => n.id = iter).map Node.entry

def setMaxWeight (m : LRUMap Key Value) (w : UInt64) : LRUMap Key Value :=
  { m.makeRoom w with mMaxWeight := w }

/-- Put a new entry at the front. -/
def pushFront (m : LRUMap Key Value) (e : Entry Key Value) : LRUMap Key Value :=
  { m with
    mWeight := m.mWeight + e.weight
    mLRU := ⟨m.fresh, e⟩ :: m.mLRU
    mMap := Function.update m.mMap e.key (some m.fresh)
    fresh := m.fresh + 1 }

/-- What a call gives back. -/
inductive Outcome (Key Value : Type) where
  /-- The entry `add` refers to. -/
  | entry (e : Option (Entry Key Value))
  /-- `add` throws `OverWeight`. -/
  | overWeight
  /-- What `find` points to. -/
  | value (v : Option Value)
  | done

def add (m : LRUMap Key Value) (k : Key) (v : Value) (w : UInt64) :
    Outcome Key Value × LRUMap Key Value :=
  match m.mMap k with
  | some iter => (.entry (m.deref iter), m.markNew iter) -- don't allow duplicates
  | none =>
      if w > m.mMaxWeight then (.overWeight, m)
      else (.entry (some ⟨k, v, w⟩), (m.makeRoom (m.mMaxWeight - w)).pushFront ⟨k, v, w⟩)

def find (m : LRUMap Key Value) (k : Key) : Outcome Key Value × LRUMap Key Value :=
  match m.mMap k with
  | none => (.value none, m)
  | some iter => (.value ((m.deref iter).map Entry.value), m.markNew iter)

/-- A call. -/
inductive Op (Key Value : Type) where
  | add (k : Key) (v : Value) (w : UInt64)
  | find (k : Key)
  | maxWeight (w : UInt64)

def call (m : LRUMap Key Value) : Op Key Value → Outcome Key Value × LRUMap Key Value
  | .add k v w => m.add k v w
  | .find k => m.find k
  | .maxWeight w => (.done, m.setMaxWeight w)

/-- Make the calls one after the other, and collect what they give back. -/
def calls (m : LRUMap Key Value) :
    List (Op Key Value) → List (Outcome Key Value) × LRUMap Key Value
  | [] => ([], m)
  | op :: ops =>
      let (r, m) := m.call op
      let (rs, m) := m.calls ops
      (r :: rs, m)

end LRUMap

/-- The weight of an entry, as a number. -/
def Entry.load (e : Entry Key Value) : Nat := e.weight.toNat

/-- The entries that are kept, the most recently used one first. -/
structure Recency (Key Value : Type) where
  entries : List (Entry Key Value)
  max : Nat

namespace Recency

open LRUMap

variable [DecidableEq Key]

def new (max : Nat) : Recency Key Value := ⟨[], max⟩

/-- An entry that is there is moved to the front. A new one that does not fit under
the bound at all is refused; otherwise the entries used least recently make room. -/
def add (m : Recency Key Value) (k : Key) (v : Value) (w : UInt64) :
    Outcome Key Value × Recency Key Value :=
  match m.entries.find? fun e => e.key = k with
  | some e => (.entry (some e), { m with entries := touch (fun e => e.key = k) m.entries })
  | none =>
      if m.max < w.toNat then (.overWeight, m)
      else (.entry (some ⟨k, v, w⟩),
        { m with entries := ⟨k, v, w⟩ :: keep Entry.load (m.max - w.toNat) m.entries })

def find (m : Recency Key Value) (k : Key) : Outcome Key Value × Recency Key Value :=
  match m.entries.find? fun e => e.key = k with
  | some e => (.value (some e.value), { m with entries := touch (fun e => e.key = k) m.entries })
  | none => (.value none, m)

def call (m : Recency Key Value) : Op Key Value → Outcome Key Value × Recency Key Value
  | .add k v w => m.add k v w
  | .find k => m.find k
  | .maxWeight w => (.done, ⟨keep Entry.load w.toNat m.entries, w.toNat⟩)

def calls (m : Recency Key Value) :
    List (Op Key Value) → List (Outcome Key Value) × Recency Key Value
  | [] => ([], m)
  | op :: ops =>
      let (r, m) := m.call op
      let (rs, m) := m.calls ops
      (r :: rs, m)

end Recency

namespace LRUMap

def contents (m : LRUMap Key Value) : List (Entry Key Value) := m.mLRU.map Node.entry

/-- Every node is in the hash map under its key, nothing else is, and the weights add
up to at most the bound. -/
structure Coherent (m : LRUMap Key Value) : Prop where
  keys : (m.contents.map Entry.key).Nodup
  ids : (m.mLRU.map Node.id).Nodup
  fresh : ∀ n ∈ m.mLRU, n.id < m.fresh
  map : ∀ k i, m.mMap k = some i ↔ ∃ n ∈ m.mLRU, n.id = i ∧ n.entry.key = k
  weight : m.mWeight.toNat = (m.contents.map Entry.load).sum
  le : m.mWeight ≤ m.mMaxWeight

def toRecency (m : LRUMap Key Value) : Recency Key Value := ⟨m.contents, m.mMaxWeight.toNat⟩

variable {m : LRUMap Key Value} {k : Key} {i : Nat}

theorem coherent_new (w : UInt64) : (new w : LRUMap Key Value).Coherent :=
  ⟨.nil, .nil, nofun, fun _ _ => ⟨nofun, fun ⟨_, hn, _⟩ => absurd hn List.not_mem_nil⟩, rfl,
    UInt64.zero_le⟩

theorem mLRU_eq_of_getLast {e : Node Key Value} (he : m.mLRU.getLast? = some e) :
    m.mLRU = m.mLRU.dropLast ++ [e] := (List.dropLast_append_getLast? e he).symm

/-- The node a key is mapped to is the one with that key. -/
theorem Coherent.id_eq_iff (h : m.Coherent) (hk : m.mMap k = some i) :
    ∀ n ∈ m.mLRU, (n.id = i ↔ n.entry.key = k) := by
  intro n hn
  obtain ⟨n', hn', hid, hkey⟩ := (h.map k i).mp hk
  constructor
  · intro hni
    have heq : n = n' := List.inj_on_of_nodup_map h.ids hn hn' (hni.trans hid.symm)
    rw [heq, hkey]
  · intro hnk
    have hkeys : (m.mLRU.map fun n => n.entry.key).Nodup := by
      have := h.keys
      rwa [contents, List.map_map] at this
    have heq : n = n' := List.inj_on_of_nodup_map hkeys hn hn' (hnk.trans hkey.symm)
    rw [heq, hid]

variable [DecidableEq Key]

theorem Coherent.find_eq (h : m.Coherent) (hk : m.mMap k = some i) :
    m.deref i = m.contents.find? fun e => e.key = k := by
  rw [deref, contents, List.find?_map]
  apply congrArg (Option.map Node.entry)
  apply List.find?_congr
  intro n hn
  exact decide_eq_decide.mpr (h.id_eq_iff hk n hn)

/-- A key that is not mapped is the key of no entry. -/
theorem Coherent.find_none (h : m.Coherent) (hk : m.mMap k = none) :
    (m.contents.find? fun e => e.key = k) = none := by
  rw [List.find?_eq_none]
  intro e he hkey
  obtain ⟨n, hn, rfl⟩ := List.mem_map.mp he
  have hmap := (h.map k n.id).mpr ⟨n, hn, rfl, of_decide_eq_true hkey⟩
  rw [hk] at hmap
  cases hmap

theorem Coherent.exists_find (h : m.Coherent) (hk : m.mMap k = some i) :
    ∃ e, (m.contents.find? fun e => e.key = k) = some e := by
  obtain ⟨n, hn, -, hkey⟩ := (h.map k i).mp hk
  apply Option.isSome_iff_exists.mp
  rw [List.find?_isSome]
  exact ⟨n.entry, List.mem_map_of_mem hn, decide_eq_true hkey⟩

theorem Coherent.contents_markNew (h : m.Coherent) (hk : m.mMap k = some i) :
    (m.markNew i).contents = touch (fun e => e.key = k) m.contents := by
  have hcongr : touch (fun n => n.id = i) m.mLRU = touch (fun n => n.entry.key = k) m.mLRU := by
    apply touch_congr
    intro n hn
    exact decide_eq_decide.mpr (h.id_eq_iff hk n hn)
  rw [contents, markNew, hcongr]
  exact map_touch fun _ => rfl

omit [DecidableEq Key] in
theorem Coherent.markNew (h : m.Coherent) (i : Nat) : (m.markNew i).Coherent := by
  have hperm := touch_perm (fun n => n.id = i) m.mLRU
  have hcontents : (m.markNew i).contents.Perm m.contents := hperm.map Node.entry
  refine ⟨(hcontents.map _).nodup_iff.mpr h.keys, (hperm.map _).nodup_iff.mpr h.ids, ?_, ?_, ?_,
    h.le⟩
  · intro n hn
    exact h.fresh n (hperm.mem_iff.mp hn)
  · intro k' i'
    rw [show (m.markNew i).mMap k' = m.mMap k' from rfl, h.map]
    simp only [LRUMap.markNew, hperm.mem_iff]
  · rw [(hcontents.map _).sum_eq]
    exact h.weight

/-- Forgetting the last entry. -/
theorem Coherent.popBack (h : m.Coherent) {e : Node Key Value}
    (he : m.mLRU.getLast? = some e) : (m.popBack e).Coherent := by
  have hsplit := mLRU_eq_of_getLast he
  have hsub : m.mLRU.dropLast.Sublist m.mLRU := List.dropLast_sublist m.mLRU
  have hsum : m.mWeight.toNat =
      ((m.popBack e).contents.map Entry.load).sum + e.entry.weight.toNat := by
    rw [h.weight, contents, hsplit]
    simp [LRUMap.popBack, contents, Entry.load]
  have hweight : (m.mWeight - e.entry.weight).toNat = m.mWeight.toNat - e.entry.weight.toNat := by
    apply UInt64.toNat_sub_of_le
    rw [UInt64.le_iff_toNat_le]
    omega
  have hids := h.ids
  have hkeys := h.keys
  rw [contents, List.map_map] at hkeys
  refine ⟨?_, h.ids.sublist (hsub.map _), ?_, ?_, ?_, ?_⟩
  · rw [contents, List.map_map]
    exact hkeys.sublist (hsub.map _)
  · intro n hn
    exact h.fresh n (hsub.subset hn)
  · intro k i
    rw [hsplit, List.map_append, List.nodup_append] at hkeys
    simp only [LRUMap.popBack, Function.update_apply]
    by_cases hk : k = e.entry.key
    · rw [if_pos hk]
      constructor
      · nofun
      · rintro ⟨n, hn, -, hkey⟩
        refine absurd ?_ (hkeys.2.2 n.entry.key (List.mem_map_of_mem hn) e.entry.key
          List.mem_cons_self)
        rw [hkey, hk]
    · rw [if_neg hk, h.map, hsplit]
      constructor
      · rintro ⟨n, hn, hid, hkey⟩
        obtain hn | hn := List.mem_append.mp hn
        · rw [List.dropLast_concat]
          exact ⟨n, hn, hid, hkey⟩
        · rw [List.mem_singleton.mp hn] at hkey
          exact absurd hkey.symm hk
      · rintro ⟨n, hn, hid, hkey⟩
        rw [List.dropLast_concat] at hn
        exact ⟨n, List.mem_append_left _ hn, hid, hkey⟩
  · simp only [LRUMap.popBack] at hsum ⊢
    rw [hweight]
    simp only [contents] at hsum ⊢
    omega
  · have hle := h.le
    rw [UInt64.le_iff_toNat_le] at hle ⊢
    simp only [LRUMap.popBack]
    omega

/-- Making room keeps the longest front part that fits, and changes nothing else. -/
theorem Coherent.makeRoom (h : m.Coherent) (cap : UInt64) :
    (m.makeRoom cap).Coherent ∧
      (m.makeRoom cap).contents = keep Entry.load cap.toNat m.contents ∧
      (m.makeRoom cap).mMaxWeight = m.mMaxWeight ∧ (m.makeRoom cap).mWeight ≤ cap ∧
      ∀ k, m.mMap k = none → (m.makeRoom cap).mMap k = none := by
  fun_induction LRUMap.makeRoom m cap with
  | case1 m hnone =>
      have hnil : m.contents = [] := by
        rw [contents, List.getLast?_eq_none_iff.mp hnone, List.map_nil]
      refine ⟨h, ?_, rfl, ?_, fun _ hk => hk⟩
      · rw [hnil]
        rfl
      · rw [UInt64.le_iff_toNat_le, h.weight, hnil]
        exact Nat.zero_le _
  | case2 m e he hgt ih =>
      obtain ⟨hcoh, hcont, hmax, hle, hmap⟩ := ih (h.popBack he)
      refine ⟨hcoh, ?_, hmax, hle, ?_⟩
      · have hsplit : m.contents = (m.popBack e).contents ++ [e.entry] := by
          rw [contents, mLRU_eq_of_getLast he]
          simp [LRUMap.popBack, contents]
        rw [hcont, hsplit, keep_concat]
        rw [← hsplit, ← h.weight]
        exact UInt64.lt_iff_toNat_lt.mp hgt
      · intro k hk
        apply hmap
        simp only [LRUMap.popBack, Function.update_apply]
        split
        · rfl
        · exact hk
  | case3 m e he hgt =>
      refine ⟨h, ?_, rfl, UInt64.not_lt.mp hgt, fun _ hk => hk⟩
      rw [keep_of_sum_le]
      rw [← h.weight]
      exact UInt64.le_iff_toNat_le.mp (UInt64.not_lt.mp hgt)

theorem Coherent.pushFront (h : m.Coherent) {e : Entry Key Value} (hk : m.mMap e.key = none)
    (hle : e.weight ≤ m.mMaxWeight) (hroom : m.mWeight ≤ m.mMaxWeight - e.weight) :
    (m.pushFront e).Coherent := by
  have hsub := UInt64.toNat_sub_of_le _ _ hle
  have hmax := m.mMaxWeight.toNat_lt
  rw [UInt64.le_iff_toNat_le] at hle hroom
  have hadd : (m.mWeight + e.weight).toNat = m.mWeight.toNat + e.weight.toNat := by
    rw [UInt64.toNat_add]
    omega
  have hnew : e.key ∉ m.contents.map Entry.key := by
    intro hmem
    obtain ⟨e', he', hkey⟩ := List.mem_map.mp hmem
    have hnone := List.find?_eq_none.mp (h.find_none hk) e' he'
    exact hnone (decide_eq_true hkey)
  refine ⟨List.nodup_cons.mpr ⟨hnew, h.keys⟩, ?_, ?_, ?_, ?_, ?_⟩
  · refine List.nodup_cons.mpr ⟨?_, h.ids⟩
    intro hmem
    obtain ⟨n, hn, hid⟩ := List.mem_map.mp hmem
    exact absurd hid (Nat.ne_of_lt (h.fresh n hn))
  · intro n hn
    obtain rfl | hn := List.mem_cons.mp hn
    · exact Nat.lt_succ_self _
    · exact Nat.lt_succ_of_lt (h.fresh n hn)
  · intro k i
    simp only [LRUMap.pushFront, Function.update_apply, List.exists_mem_cons_iff]
    by_cases hke : k = e.key
    · subst hke
      rw [if_pos rfl]
      constructor
      · intro hi
        exact .inl ⟨Option.some.inj hi, rfl⟩
      · rintro (⟨hi, -⟩ | ⟨n, hn, hid, hkey⟩)
        · rw [hi]
        · refine absurd ?_ hnew
          rw [← hkey]
          exact List.mem_map_of_mem (List.mem_map_of_mem hn)
    · rw [if_neg hke, h.map]
      constructor
      · exact .inr
      · rintro (⟨-, hkey⟩ | hn)
        · exact absurd hkey.symm hke
        · exact hn
  · simp only [LRUMap.pushFront]
    rw [hadd, h.weight]
    simp only [contents, List.map_cons, List.sum_cons, Entry.load]
    omega
  · rw [UInt64.le_iff_toNat_le]
    simp only [LRUMap.pushFront]
    omega

theorem Coherent.add (h : m.Coherent) (k : Key) (v : Value) (w : UInt64) :
    (m.add k v w).2.Coherent ∧ (m.add k v w).1 = (m.toRecency.add k v w).1 ∧
      (m.add k v w).2.toRecency = (m.toRecency.add k v w).2 := by
  rw [LRUMap.add, Recency.add]
  cases hk : m.mMap k with
  | some i =>
      obtain ⟨e, he⟩ := h.exists_find hk
      have hcont := h.contents_markNew hk
      simp only [toRecency, h.find_eq hk, he]
      exact ⟨h.markNew i, trivial, by rw [hcont]; rfl⟩
  | none =>
      have hnone : (m.toRecency.entries.find? fun e => e.key = k) = none := h.find_none hk
      simp only [hnone]
      by_cases hgt : w > m.mMaxWeight
      · have hlt : m.toRecency.max < w.toNat := UInt64.lt_iff_toNat_lt.mp hgt
        rw [if_pos hgt, if_pos hlt]
        exact ⟨h, rfl, rfl⟩
      · have hle := UInt64.not_lt.mp hgt
        have hnlt : ¬ m.toRecency.max < w.toNat := by
          intro hlt
          exact hgt (UInt64.lt_iff_toNat_lt.mpr hlt)
        obtain ⟨hcoh, hcont, hmax, hroom, hmap⟩ := h.makeRoom (m.mMaxWeight - w)
        rw [if_neg hgt, if_neg hnlt]
        refine ⟨hcoh.pushFront (hmap k hk) ?_ ?_, rfl, ?_⟩
        · rw [hmax]
          exact hle
        · rw [hmax]
          exact hroom
        · rw [UInt64.toNat_sub_of_le _ _ hle] at hcont
          simp only [contents] at hcont
          simp only [LRUMap.pushFront, toRecency, contents, List.map_cons, hcont, hmax]

theorem Coherent.find (h : m.Coherent) (k : Key) :
    (m.find k).2.Coherent ∧ (m.find k).1 = (m.toRecency.find k).1 ∧
      (m.find k).2.toRecency = (m.toRecency.find k).2 := by
  rw [LRUMap.find, Recency.find]
  cases hk : m.mMap k with
  | some i =>
      obtain ⟨e, he⟩ := h.exists_find hk
      have hcont := h.contents_markNew hk
      simp only [toRecency, h.find_eq hk, he]
      exact ⟨h.markNew i, rfl, by rw [hcont]; rfl⟩
  | none =>
      simp only [toRecency, h.find_none hk]
      exact ⟨h, trivial, trivial⟩

/-- What is found is the value of an entry, and no entry is lost or gained. -/
theorem Coherent.find_value (h : m.Coherent) (k : Key) :
    (m.find k).1 = .value ((m.contents.find? fun e => e.key = k).map Entry.value) ∧
      (m.find k).2.contents.Perm m.contents := by
  obtain ⟨-, hvalue, hentries⟩ := h.find k
  have hentries : (m.find k).2.contents = (m.toRecency.find k).2.entries :=
    congrArg Recency.entries hentries
  have hall : m.toRecency.entries = m.contents := rfl
  rw [hvalue, hentries, Recency.find, hall]
  cases m.contents.find? fun e => e.key = k with
  | none => exact ⟨rfl, List.Perm.refl _⟩
  | some e => exact ⟨rfl, touch_perm _ _⟩

/-- The one entry that `add` may bring in. -/
theorem Coherent.mem_add (h : m.Coherent) {k : Key} {v : Value} {w : UInt64} {e : Entry Key Value}
    (he : e ∈ (m.add k v w).2.contents) : e = ⟨k, v, w⟩ ∨ e ∈ m.contents := by
  obtain ⟨-, -, hentries⟩ := h.add k v w
  have hentries : (m.add k v w).2.contents = (m.toRecency.add k v w).2.entries :=
    congrArg Recency.entries hentries
  have hall : m.toRecency.entries = m.contents := rfl
  rw [hentries, Recency.add, hall] at he
  split at he
  · exact Or.inr ((touch_perm _ _).mem_iff.mp he)
  · split at he
    · exact Or.inr he
    · exact (List.mem_cons.mp he).imp_right fun hin => (keep_isPrefix _ _).mem hin

/-- A call keeps the two structures in agreement and does what it does to the
reference. -/
theorem Coherent.call (h : m.Coherent) (op : Op Key Value) :
    (m.call op).2.Coherent ∧ (m.call op).1 = (m.toRecency.call op).1 ∧
      (m.call op).2.toRecency = (m.toRecency.call op).2 := by
  cases op with
  | add k v w => exact h.add k v w
  | find k => exact h.find k
  | maxWeight w =>
      obtain ⟨hcoh, hcont, -, hroom, -⟩ := h.makeRoom w
      refine ⟨{ hcoh with le := hroom }, rfl, ?_⟩
      simp only [LRUMap.call, Recency.call, setMaxWeight, toRecency, contents] at hcont ⊢
      rw [hcont]

theorem Coherent.calls (h : m.Coherent) (ops : List (Op Key Value)) :
    (m.calls ops).2.Coherent ∧ (m.calls ops).1 = (m.toRecency.calls ops).1 ∧
      (m.calls ops).2.toRecency = (m.toRecency.calls ops).2 := by
  induction ops generalizing m with
  | nil => exact ⟨h, rfl, rfl⟩
  | cons op ops ih =>
      obtain ⟨hcoh, hres, hrec⟩ := h.call op
      obtain ⟨hcoh', hres', hrec'⟩ := ih hcoh
      rw [hrec] at hres' hrec'
      refine ⟨hcoh', ?_, hrec'⟩
      simp only [LRUMap.calls, Recency.calls]
      rw [hres, hres']

/-- From an empty map, any sequence of calls gives the results and leaves the entries
that it does on the reference list, and what the reference keeps under a bound is the
longest front part that fits. -/
theorem calls_refines (maxWeight : UInt64) (ops : List (Op Key Value)) :
    ((new maxWeight).calls ops).2.Coherent ∧
      ((new maxWeight).calls ops).1 = ((Recency.new maxWeight.toNat).calls ops).1 ∧
      ((new maxWeight).calls ops).2.toRecency = ((Recency.new maxWeight.toNat).calls ops).2 ∧
      ∀ (cap : Nat) (es : List (Entry Key Value)),
        keep Entry.load cap es <+: es ∧ ((keep Entry.load cap es).map Entry.load).sum ≤ cap ∧
          ∀ p, p <+: es → (p.map Entry.load).sum ≤ cap → p <+: keep Entry.load cap es := by
  obtain ⟨hcoh, hres, hrec⟩ := (coherent_new maxWeight).calls ops
  exact ⟨hcoh, hres, hrec, fun cap es => ⟨keep_isPrefix cap es, sum_keep_le cap es,
    fun _ hp hsum => prefix_keep hp hsum⟩⟩

end LRUMap

end Lzopfs
