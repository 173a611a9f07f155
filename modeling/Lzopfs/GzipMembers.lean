import Lzopfs.GzipRuns
import Mathlib.Data.List.Chain

/-!
# Gzip members and what zlib owes for them

A gzip file is a sequence of members, each a header, a run of deflate blocks that
need not end at byte boundaries, and an eight byte trailer. `Decodes` states what
`inflate` does on such a file when it is started at a member, or raw at the start
of a deflate block: it stops at the block boundaries of the layout, and it refuses
only a raw start that lacks the bytes before it. Of any other start nothing is said.
-/

namespace Lzopfs

open Verify FileHandle

namespace GzipFile

structure DeflateBlock where
  bits : Nat
  usize : Nat
  bits_pos : 0 < bits

structure Member where
  /-- Bytes of the header. -/
  header : Nat
  blocks : List DeflateBlock
  header_pos : 0 < header

/-- A place of the stream: so many bytes put out, so many bytes taken in, and so
many bits of the last of them not used. -/
structure Place where
  opos : Nat
  ipos : Nat
  ibits : Nat
  deriving DecidableEq

namespace Member

variable (m : Member)

/-- Bits of the first `j` blocks. -/
def bits (j : Nat) : Nat := ((m.blocks.take j).map DeflateBlock.bits).sum

/-- Output of the first `j` blocks. -/
def outs (j : Nat) : Nat := ((m.blocks.take j).map DeflateBlock.usize).sum

def count : Nat := m.blocks.length
def usize : Nat := m.outs m.count

/-- Bytes of the member: the blocks are padded, and eight bytes of trailer follow. -/
def size : Nat := m.header + (m.bits m.count + 7) / 8 + 8

theorem outs_mono {i j : Nat} (h : i ≤ j) : m.outs i ≤ m.outs j := by
  obtain ⟨d, rfl⟩ := Nat.exists_eq_add_of_le h
  rw [outs, outs, List.take_add, List.map_append, List.sum_append]
  exact Nat.le_add_right _ _

theorem outs_le_usize (j : Nat) : m.outs j ≤ m.usize := by
  obtain h | h := Nat.le_total j m.count
  · exact m.outs_mono h
  · rw [usize, outs, outs, count, List.take_length, List.take_of_length_le h]

theorem outs_of_count_le {j : Nat} (h : m.count ≤ j) : m.outs j = m.usize :=
  Nat.le_antisymm (m.outs_le_usize j) (m.outs_mono h)

theorem bits_mono {i j : Nat} (h : i ≤ j) : m.bits i ≤ m.bits j := by
  obtain ⟨d, rfl⟩ := Nat.exists_eq_add_of_le h
  rw [bits, bits, List.take_add, List.map_append, List.sum_append]
  exact Nat.le_add_right _ _

theorem bits_lt {i j : Nat} (h : i < j) (hi : i < m.count) : m.bits i < m.bits j := by
  have hlen : i < m.blocks.length := hi
  have hsucc : m.bits (i + 1) = m.bits i + m.blocks[i].bits := by
    rw [bits, bits, List.take_succ_eq_append_getElem hlen, List.map_append, List.sum_append]
    simp
  have hpos := m.blocks[i].bits_pos
  have hle := m.bits_mono (show i + 1 ≤ j from h)
  omega

end Member

section Layout

variable (ms : List Member)

/-- File offset of a member. -/
def startByte (k : Nat) : Nat := ((ms.take k).map Member.size).sum

/-- Uncompressed offset of a member. -/
def startOut (k : Nat) : Nat := ((ms.take k).map Member.usize).sum

/-- The bit of the file at which the `j`-th block of a member starts, or its last one
ends. -/
def blockBit (k : Nat) (m : Member) (j : Nat) : Nat :=
  8 * (startByte ms k + m.header) + m.bits j

/-- Where the `j`-th block of a member starts, or its last one ends. -/
def blockPlace (k : Nat) (m : Member) (j : Nat) : Place where
  opos := startOut ms k + m.outs j
  ipos := (blockBit ms k m j + 7) / 8
  ibits := 8 * ((blockBit ms k m j + 7) / 8) - blockBit ms k m j

def memberPlace (k : Nat) : Place := ⟨startOut ms k, startByte ms k, 0⟩

/-- The places a decoder comes to that decodes the members from the start of the
file and stops at every block. -/
inductive TruePlace : Place → Prop where
  | member {k : Nat} (hk : k ≤ ms.length) : TruePlace (memberPlace ms k)
  | block {k j : Nat} {m : Member} (hm : ms[k]? = some m) (hj : j ≤ m.count) :
      TruePlace (blockPlace ms k m j)

/-- The starts of deflate blocks. -/
def IsBlockStart (p : Place) : Prop :=
  ∃ k m j, ms[k]? = some m ∧ j < m.count ∧ p = blockPlace ms k m j

variable {ms} {k : Nat} {m : Member}

theorem startByte_succ (hm : ms[k]? = some m) : startByte ms (k + 1) = startByte ms k + m.size := by
  rw [startByte, startByte, List.take_add_one, hm, List.map_append, List.sum_append]
  simp

theorem startOut_succ (hm : ms[k]? = some m) : startOut ms (k + 1) = startOut ms k + m.usize := by
  rw [startOut, startOut, List.take_add_one, hm, List.map_append, List.sum_append]
  simp

theorem startByte_mono (ms : List Member) {i j : Nat} (h : i ≤ j) :
    startByte ms i ≤ startByte ms j := by
  obtain ⟨d, rfl⟩ := Nat.exists_eq_add_of_le h
  rw [startByte, startByte, List.take_add, List.map_append, List.sum_append]
  exact Nat.le_add_right _ _

theorem startOut_mono (ms : List Member) {i j : Nat} (h : i ≤ j) :
    startOut ms i ≤ startOut ms j := by
  obtain ⟨d, rfl⟩ := Nat.exists_eq_add_of_le h
  rw [startOut, startOut, List.take_add, List.map_append, List.sum_append]
  exact Nat.le_add_right _ _

theorem opos_le_startOut (hm : ms[k]? = some m) (j : Nat) :
    startOut ms k + m.outs j ≤ startOut ms (k + 1) := by
  rw [startOut_succ hm]
  exact Nat.add_le_add_left (m.outs_le_usize j) _

/-- A decoder of the members does not come to more output than there is. -/
theorem TruePlace.opos_le {p : Place} (h : TruePlace ms p) : p.opos ≤ startOut ms ms.length := by
  cases h with
  | member hk => exact startOut_mono ms hk
  | block hm hj =>
      exact Nat.le_trans (opos_le_startOut hm _)
        (startOut_mono ms (List.getElem?_eq_some_iff.mp hm).1)

theorem length_of_startByte (hm : ms[k]? = some m)
    (h : startByte ms (k + 1) = startByte ms ms.length) : k + 1 = ms.length := by
  have hk := (List.getElem?_eq_some_iff.mp hm).1
  obtain hlt | hge := Nat.lt_or_ge (k + 1) ms.length
  · have hnext := List.getElem?_eq_getElem hlt
    have hle := startByte_mono ms (Nat.succ_le_of_lt hlt)
    rw [startByte_succ hnext, Member.size] at hle
    omega
  · omega

/-- The bit a block starts at tells it from every other one. -/
theorem Place.bit_blockPlace {j : Nat} :
    8 * (blockPlace ms k m j).ipos - (blockPlace ms k m j).ibits = blockBit ms k m j := by
  simp only [blockPlace]
  omega

/-- No block starts between the end of a member's last block and the first block of
the next member. -/
theorem not_isBlockStart {p : Place} (hm : ms[k]? = some m)
    (h : p = blockPlace ms k m m.count ∨ p = memberPlace ms k) : ¬ IsBlockStart ms p := by
  rintro ⟨k', m', j, hm', hj, hp⟩
  have hbit : 8 * p.ipos - p.ibits = blockBit ms k' m' j := by
    rw [hp, Place.bit_blockPlace]
  have hbits' := m'.bits_lt hj hj
  have hlast' : blockBit ms k' m' j < 8 * startByte ms (k' + 1) := by
    rw [startByte_succ hm', Member.size, blockBit]
    omega
  have hfirst' : 8 * startByte ms k' < blockBit ms k' m' j := by
    have := m'.header_pos
    rw [blockBit]
    omega
  obtain hlt | rfl | hlt := Nat.lt_trichotomy k k'
  · have hle := startByte_mono ms (show k + 1 ≤ k' from hlt)
    rw [startByte_succ hm, Member.size] at hle
    obtain rfl | rfl := h
    · rw [Place.bit_blockPlace, blockBit] at hbit
      omega
    · simp only [memberPlace] at hbit
      omega
  · rw [hm] at hm'
    cases hm'
    obtain rfl | rfl := h
    · rw [Place.bit_blockPlace, blockBit, blockBit] at hbit
      omega
    · simp only [memberPlace] at hbit
      omega
  · have hle := startByte_mono ms (show k' + 1 ≤ k from hlt)
    have hheader := m.header_pos
    obtain rfl | rfl := h
    · rw [Place.bit_blockPlace, blockBit] at hbit
      omega
    · simp only [memberPlace] at hbit
      omega

end Layout

/-- A raw stream primed with the bits of the byte before a place. -/
def primedAt (z : Zlib) (file : Buffer) (p : Place) : z.Stream :=
  if p.ibits ≠ 0 then
    z.prime (z.init .Raw) p.ibits
      (UInt8.ofNat (((file.drop (p.ipos - 1)).headD 0).toNat >>> (8 - p.ibits)))
  else z.init .Raw

/-- What `inflate` answers on the way to the `j`-th stop of member `k`, where it was
started at uncompressed offset `start` and has come to `ipos` and `opos`. -/
inductive Answer {z : Zlib} (ms : List Member)
    (Mid : Wrapper → Nat → Nat → Nat → Nat → Nat → z.Stream → Prop) (w : Wrapper)
    (k : Nat) (m : Member) (j start ipos opos : Nat) {availIn availOut : Nat}
    (r : Inflated z.Stream availIn availOut) : Prop where
  | midway (hret : r.ret = .ok) (hstop : ¬ r.dataType / 128 % 2 = 1)
      (hle : opos + r.out.length ≤ startOut ms k + m.outs j)
      (hmid : Mid w k j start (ipos + r.consumed) (opos + r.out.length) r.stream)
  | atBlock (hret : r.ret = .ok) (hstop : r.dataType / 128 % 2 = 1) (hj : j ≤ m.count)
      (hplace : blockPlace ms k m j = ⟨opos + r.out.length, ipos + r.consumed, r.dataType % 8⟩)
      (hmid : Mid w k (j + 1) start (ipos + r.consumed) (opos + r.out.length) r.stream)
  | atEnd (hret : r.ret = .streamEnd) (hj : j = m.count + 1)
      (hopos : opos + r.out.length = startOut ms (k + 1))
      (hipos : ipos + r.consumed + (if w = .Gzip then 0 else 8) = startByte ms (k + 1))
      (hbits : r.dataType % 8 = 0)
  | refused {code : Int} (hret : r.ret = .error code) (hstart : startOut ms k < start)

/-- zlib decodes the members of a file. `Mid` are the streams that are on the way to
a stop: the blocks of the member in turn, then its end. -/
structure Decodes (z : Zlib) (file : Buffer) (ms : List Member) where
  Mid : Wrapper → (k j start ipos opos : Nat) → z.Stream → Prop
  gzip : ∀ {k m}, ms[k]? = some m →
    Mid .Gzip k 0 (startOut ms k) (startByte ms k) (startOut ms k) (z.init .Gzip)
  raw : ∀ {k m j}, ms[k]? = some m → j < m.count →
    Mid .Raw k (j + 1) (blockPlace ms k m j).opos (blockPlace ms k m j).ipos
      (blockPlace ms k m j).opos (primedAt z file (blockPlace ms k m j))
  inflate : ∀ {w k m j start ipos opos stream} {input : Buffer} {availOut : Nat},
    ms[k]? = some m → Mid w k j start ipos opos stream → input ≠ [] →
    input <+: file.drop ipos → 0 < availOut →
    Answer ms Mid w k m j start ipos opos (z.inflate stream input availOut)

end GzipFile

end Lzopfs
