import Mathlib.Data.List.Basic
import Mathlib.Tactic.Ring

/-!
# Fixed-size byte blocks with little-endian fields

A block of `n` bytes, read and written at natural number offsets: single bytes, runs of bytes,
16 and 32 bit little-endian fields, arrays of 32 bit fields and single bits. A read at an
offset that a write does not cover sees the block as it was before the write.
-/

namespace Xv6.Data

/-- A block of `n` bytes. -/
def Bytes (n : Nat) : Type := Fin n → UInt8

namespace Bytes

variable {n off o i k j : Nat} {a b : Bytes n} {f : Nat → UInt32}

/-- The byte at offset `i`; outside of the block it is zero. -/
def get (b : Bytes n) (i : Nat) : UInt8 := if h : i < n then b ⟨i, h⟩ else 0

def zero : Bytes n := fun _ => 0

@[simp] theorem get_zero (i : Nat) : (zero : Bytes n).get i = 0 := by
  unfold get
  split <;> rfl

theorem ext (h : ∀ i, i < n → a.get i = b.get i) : a = b := by
  funext i
  have hi := h i.val i.isLt
  simpa [get, i.isLt] using hi

/-! ## Runs of bytes -/

/-- Write the bytes `l` at offset `off`. -/
def blit (b : Bytes n) (off : Nat) (l : List UInt8) : Bytes n := fun i =>
  if off ≤ i.val ∧ i.val < off + l.length then l.getD (i.val - off) 0 else b i

/-- The `len` bytes at offset `off`. -/
def slice (b : Bytes n) (off len : Nat) : List UInt8 := (List.range len).map fun i => b.get (off + i)

theorem get_blit (b : Bytes n) (off : Nat) (l : List UInt8) (i : Nat) :
    (b.blit off l).get i =
      if off ≤ i ∧ i < off + l.length ∧ i < n then l.getD (i - off) 0 else b.get i := by
  unfold get blit
  by_cases hi : i < n
  · by_cases hin : off ≤ i ∧ i < off + l.length
    · simp [hi, hin]
    · have hin' : ¬ (off ≤ i ∧ i < off + l.length ∧ i < n) := fun h => hin ⟨h.1, h.2.1⟩
      simp [hi, hin]
  · simp [hi]

@[simp] theorem length_slice (b : Bytes n) (off len : Nat) : (b.slice off len).length = len := by
  simp [slice]

theorem slice_congr {len : Nat}
    (h : ∀ i, off ≤ i → i < off + len → a.get i = b.get i) : a.slice off len = b.slice off len := by
  refine List.map_congr_left ?_
  intro i hi
  have hi' : i < len := List.mem_range.mp hi
  exact h (off + i) (by omega) (by omega)

theorem slice_blit_of_disjoint {l : List UInt8} {len : Nat}
    (h : o + len ≤ off ∨ off + l.length ≤ o) : (b.blit off l).slice o len = b.slice o len := by
  refine slice_congr ?_
  intro i h1 h2
  rw [get_blit, if_neg (by omega)]

theorem slice_blit_self {l : List UInt8} (h : off + l.length ≤ n) : (b.blit off l).slice off l.length = l := by
  refine List.ext_getElem (by simp) ?_
  intro i h1 h2
  have hi : i < l.length := h2
  simp only [slice, List.getElem_map, List.getElem_range, get_blit]
  rw [if_pos (by omega)]
  have he : off + i - off = i := by omega
  simp [he, hi]

/-! ## Little-endian numbers -/

/-- The number with the little-endian bytes `l`. -/
def le : List UInt8 → Nat
  | [] => 0
  | b :: l => b.toNat + 256 * le l

/-- The `k` little-endian bytes of `v`. -/
def leBytes : Nat → Nat → List UInt8
  | 0, _ => []
  | k + 1, v => UInt8.ofNat v :: leBytes k (v / 256)

@[simp] theorem length_leBytes (k v : Nat) : (leBytes k v).length = k := by
  induction k generalizing v with
  | zero => rfl
  | succ k ih => simp [leBytes, ih]

theorem le_leBytes (k v : Nat) : le (leBytes k v) = v % 256 ^ k := by
  induction k generalizing v with
  | zero => simp [leBytes, le, Nat.mod_one]
  | succ k ih =>
    simp only [leBytes, le, ih]
    have h1 : (UInt8.ofNat v).toNat = v % 256 := by simp
    rw [h1, pow_succ, Nat.mul_comm (256 ^ k) 256, Nat.mod_mul]

/-- The 32 bit field at offset `off`. -/
def u32 (b : Bytes n) (off : Nat) : UInt32 := UInt32.ofNat (le (b.slice off 4))

def putU32 (b : Bytes n) (off : Nat) (v : UInt32) : Bytes n := b.blit off (leBytes 4 v.toNat)

/-- The 16 bit field at offset `off`. -/
def u16 (b : Bytes n) (off : Nat) : UInt16 := UInt16.ofNat (le (b.slice off 2))

def putU16 (b : Bytes n) (off : Nat) (v : UInt16) : Bytes n := b.blit off (leBytes 2 v.toNat)

theorem u32_congr (h : ∀ i, off ≤ i → i < off + 4 → a.get i = b.get i) : a.u32 off = b.u32 off := by
  unfold u32
  rw [slice_congr h]

theorem u16_congr (h : ∀ i, off ≤ i → i < off + 2 → a.get i = b.get i) : a.u16 off = b.u16 off := by
  unfold u16
  rw [slice_congr h]

theorem u32_putU32_self {v : UInt32} (h : off + 4 ≤ n) : (b.putU32 off v).u32 off = v := by
  have hs : (b.blit off (leBytes 4 v.toNat)).slice off 4 = leBytes 4 v.toNat := by
    have h' := @slice_blit_self _ off b (leBytes 4 v.toNat) (by simpa using h)
    rwa [length_leBytes] at h'
  unfold u32 putU32
  rw [hs, le_leBytes, Nat.mod_eq_of_lt (by have := v.toNat_lt; omega)]
  simp

theorem u16_putU16_self {v : UInt16} (h : off + 2 ≤ n) : (b.putU16 off v).u16 off = v := by
  have hs : (b.blit off (leBytes 2 v.toNat)).slice off 2 = leBytes 2 v.toNat := by
    have h' := @slice_blit_self _ off b (leBytes 2 v.toNat) (by simpa using h)
    rwa [length_leBytes] at h'
  unfold u16 putU16
  rw [hs, le_leBytes, Nat.mod_eq_of_lt (by have := v.toNat_lt; omega)]
  simp

theorem get_putU32 {v : UInt32} (h : i < off ∨ off + 4 ≤ i) : (b.putU32 off v).get i = b.get i := by
  rw [putU32, get_blit, length_leBytes, if_neg (by omega)]

theorem get_putU16 {v : UInt16} (h : i < off ∨ off + 2 ≤ i) : (b.putU16 off v).get i = b.get i := by
  rw [putU16, get_blit, length_leBytes, if_neg (by omega)]

theorem u32_putU32 {v : UInt32} (h : o + 4 ≤ off ∨ off + 4 ≤ o) : (b.putU32 off v).u32 o = b.u32 o :=
  u32_congr fun _ h1 h2 => get_putU32 (by omega)

theorem u16_putU32 {v : UInt32} (h : o + 2 ≤ off ∨ off + 4 ≤ o) : (b.putU32 off v).u16 o = b.u16 o :=
  u16_congr fun _ h1 h2 => get_putU32 (by omega)

theorem u16_putU16 {v : UInt16} (h : o + 2 ≤ off ∨ off + 2 ≤ o) : (b.putU16 off v).u16 o = b.u16 o :=
  u16_congr fun _ h1 h2 => get_putU16 (by omega)

@[simp] theorem u32_zero (off : Nat) : (zero : Bytes n).u32 off = 0 := by
  simp [u32, slice, le, List.range_succ]

/-! ## Arrays of 32 bit fields -/

/-- Write `k` consecutive 32 bit fields from offset `off` on. -/
def putWords (b : Bytes n) (off : Nat) (f : Nat → UInt32) : Nat → Bytes n
  | 0 => b
  | k + 1 => (putWords b off f k).putU32 (off + 4 * k) (f k)

theorem get_putWords (h : i < off ∨ off + 4 * k ≤ i) : (b.putWords off f k).get i = b.get i := by
  induction k with
  | zero => rfl
  | succ k ih =>
    rw [putWords, get_putU32 (by omega), ih (by omega)]

theorem u32_putWords (hj : j < k) (h : off + 4 * k ≤ n) : (b.putWords off f k).u32 (off + 4 * j) = f j := by
  induction k with
  | zero => omega
  | succ k ih =>
    rw [putWords]
    by_cases hjk : j = k
    · subst hjk
      exact u32_putU32_self (by omega)
    · rw [u32_putU32 (by omega), ih (by omega) (by omega)]

theorem u32_putWords_of_disjoint (h : o + 4 ≤ off ∨ off + 4 * k ≤ o) : (b.putWords off f k).u32 o = b.u32 o :=
  u32_congr fun _ h1 h2 => get_putWords (by omega)

theorem u16_putWords_of_disjoint (h : o + 2 ≤ off ∨ off + 4 * k ≤ o) : (b.putWords off f k).u16 o = b.u16 o :=
  u16_congr fun _ h1 h2 => get_putWords (by omega)

/-! ## Bits -/

/-- `data[i / 8] & (1 << (i % 8))`, as a truth value. -/
def bit (b : Bytes n) (i : Nat) : Bool := b.get (i / 8) &&& (1 <<< UInt8.ofNat (i % 8)) != 0

/-- `data[i / 8] |= 1 << (i % 8)`. -/
def setBit (b : Bytes n) (i : Nat) : Bytes n := fun j =>
  if j.val = i / 8 then b j ||| (1 <<< UInt8.ofNat (i % 8)) else b j

/-- `data[i / 8] &= ~(1 << (i % 8))`. -/
def clearBit (b : Bytes n) (i : Nat) : Bytes n := fun j =>
  if j.val = i / 8 then b j &&& ~~~(1 <<< UInt8.ofNat (i % 8)) else b j

theorem get_setBit (hi : i / 8 < n) (j : Nat) :
    (b.setBit i).get j =
      if j = i / 8 then b.get j ||| (1 <<< UInt8.ofNat (i % 8)) else b.get j := by
  unfold get setBit
  by_cases hj : j < n
  · simp only [dif_pos hj]
  · rw [dif_neg hj, dif_neg hj, if_neg (by omega)]

theorem mask_bit : ∀ k < 8, ∀ j < 8, (1 <<< UInt8.ofNat k : UInt8).toBitVec.getLsbD j = decide (j = k) := by
  decide +kernel

theorem test_eq_getLsbD : ∀ x < 256, ∀ j < 8,
    (UInt8.ofNat x &&& (1 <<< UInt8.ofNat j) != 0) = (UInt8.ofNat x).toBitVec.getLsbD j := by
  decide +kernel

theorem bit_eq_getLsbD (b : Bytes n) (i : Nat) : b.bit i = (b.get (i / 8)).toBitVec.getLsbD (i % 8) := by
  have h := test_eq_getLsbD (b.get (i / 8)).toNat (b.get (i / 8)).toNat_lt (i % 8) (by omega)
  simpa [bit] using h

/-- Two bits of the same byte are the same bit when their positions in it agree. -/
theorem decide_mod_eq (h : j / 8 = i / 8) : decide (j % 8 = i % 8) = decide (j = i) :=
  decide_eq_decide.mpr ⟨fun _ => by omega, fun h => by rw [h]⟩

theorem bit_setBit (hi : i / 8 < n) : (b.setBit i).bit j = (decide (j = i) || b.bit j) := by
  rw [bit_eq_getLsbD, bit_eq_getLsbD, get_setBit hi]
  by_cases hb : j / 8 = i / 8
  · have hm := mask_bit (i % 8) (by omega) (j % 8) (by omega)
    rw [if_pos hb, UInt8.toBitVec_or, BitVec.getLsbD_or, hm, decide_mod_eq hb, Bool.or_comm]
  · have hij : j ≠ i := by rintro rfl; exact hb rfl
    rw [if_neg hb, decide_eq_false hij, Bool.false_or]

theorem get_clearBit (j : Nat) :
    (b.clearBit i).get j =
      if j = i / 8 then b.get j &&& ~~~(1 <<< UInt8.ofNat (i % 8)) else b.get j := by
  unfold get clearBit
  by_cases hj : j < n
  · simp only [dif_pos hj]
  · rw [dif_neg hj, dif_neg hj, UInt8.zero_and, ite_self]

theorem bit_clearBit_of_ne (h : j ≠ i) : (b.clearBit i).bit j = b.bit j := by
  rw [bit_eq_getLsbD, bit_eq_getLsbD, get_clearBit]
  by_cases hb : j / 8 = i / 8
  · have hm := mask_bit (i % 8) (by omega) (j % 8) (by omega)
    rw [decide_mod_eq hb, decide_eq_false h] at hm
    rw [if_pos hb, UInt8.toBitVec_and, UInt8.toBitVec_not, BitVec.getLsbD_and, BitVec.getLsbD_not, hm,
      decide_eq_true (show j % 8 < 8 by omega)]
    simp
  · rw [if_neg hb]

end Bytes

end Xv6.Data
