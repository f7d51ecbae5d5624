import Mathlib.Algebra.CharP.Two
import Mathlib.Algebra.Field.ZMod
import Mathlib.Algebra.Polynomial.Basic
import Mathlib.RingTheory.AdjoinRoot

/-!
# CRC-32

The reflected CRC-32 with the polynomial `0xedb88320`: the register starts with all bits set, takes up a byte in its low
bits and shifts eight times, and the checksum is the complement of the register. A register stands for a polynomial over
GF(2) of degree less than 32, and what the shifts keep is its class modulo the generator.
-/

namespace Xv6.Data

abbrev POLY : UInt32 := 0xedb88320

def crcStep (c : UInt32) : UInt32 := if c &&& 1 = 1 then (c >>> 1) ^^^ POLY else c >>> 1

def crcByte (c : UInt32) (b : UInt8) : UInt32 := crcStep^[8] (c ^^^ b.toUInt32)

def crc32 (data : List UInt8) : UInt32 := ~~~ data.foldl crcByte 0xffffffff

/-- The lowest bit, as a mask, selects the polynomial. -/
theorem crcStep_eq_mask (c : UInt32) : crcStep c = (c >>> 1) ^^^ (POLY &&& (0 - (c &&& 1))) := by
  have hbit : c &&& 1 = 0 ∨ c &&& 1 = 1 := by
    have hnat : (c &&& 1).toNat = c.toNat % 2 := by
      rw [UInt32.toNat_and]
      exact Nat.and_one_is_mod _
    rcases Nat.mod_two_eq_zero_or_one c.toNat with h | h
    · exact Or.inl (UInt32.toNat_inj.mp (hnat.trans h))
    · exact Or.inr (UInt32.toNat_inj.mp (hnat.trans h))
  unfold crcStep
  rcases hbit with h | h
  · rw [h, if_neg (by decide), show POLY &&& (0 - 0) = 0 by decide, UInt32.xor_zero]
  · rw [h, if_pos rfl, show POLY &&& (0 - 1) = POLY by decide]

/-! ## The remainder of a division of polynomials -/

open Polynomial

/-- The polynomial over GF(2) with these coefficients, the leading one first. -/
noncomputable def poly : List Bool → (ZMod 2)[X]
  | [] => 0
  | b :: bs => (if b then X ^ bs.length else 0) + poly bs

/-- The polynomial `0x04C11DB7` with its term of degree 32. -/
noncomputable def generator : (ZMod 2)[X] :=
  X ^ 32 + poly ((List.range 32).map fun i => Nat.testBit 0x04C11DB7 (31 - i))

/-- The reflected order: the lowest bit comes first. -/
def byteBits (b : UInt8) : List Bool := (List.range 8).map b.toNat.testBit

def wordBits (c : UInt32) : List Bool := (List.range 32).map c.toNat.testBit

theorem poly_append (a b : List Bool) : poly (a ++ b) = X ^ b.length * poly a + poly b := by
  induction a with
  | nil => simp [poly]
  | cons x a ih =>
    rw [List.cons_append, poly, ih, poly, List.length_append]
    split <;> ring

theorem poly_xor (l : List Nat) (f g : Nat → Bool) :
    poly (l.map fun i => f i ^^ g i) = poly (l.map f) + poly (l.map g) := by
  induction l with
  | nil => simp [poly]
  | cons i l ih =>
    simp only [List.map_cons, poly, ih, List.length_map]
    cases f i <;> cases g i
    · simp
    · simp [add_left_comm]
    · simp [add_assoc]
    · have h2 := CharTwo.add_self_eq_zero (X ^ l.length : (ZMod 2)[X])
      simp [add_add_add_comm, h2]

theorem degree_poly (bs : List Bool) : (poly bs).degree < bs.length := by
  induction bs with
  | nil => simp [poly]
  | cons b bs ih =>
    have hlt : ((bs.length : ℕ) : WithBot ℕ) < (b :: bs).length := by
      exact_mod_cast Nat.lt_succ_self _
    refine (degree_add_le _ _).trans_lt (max_lt ?_ (ih.trans hlt))
    split
    · rwa [degree_X_pow]
    · rw [degree_zero]
      exact WithBot.bot_lt_coe _

theorem poly_injective {a b : List Bool} (hlen : a.length = b.length) (h : poly a = poly b) : a = b := by
  induction a generalizing b with
  | nil => exact (List.length_eq_zero_iff.mp hlen.symm).symm
  | cons x a ih =>
    cases b with
    | nil => cases hlen
    | cons y b =>
      have hl : a.length = b.length := Nat.succ.inj hlen
      -- the coefficient of the leading term is the first bit
      have hcoeff : ∀ (z : Bool) (l : List Bool), (poly (z :: l)).coeff l.length = if z then 1 else 0 := by
        intro z l
        rw [poly, coeff_add, coeff_eq_zero_of_degree_lt (degree_poly l), add_zero]
        split <;> simp
      have hxy : x = y := by
        have hx := hcoeff x a
        rw [h, hl, hcoeff y b] at hx
        cases x <;> cases y <;> simp_all
      subst hxy
      rw [poly, poly, hl] at h
      rw [ih hl (add_left_cancel h)]

theorem wordBits_injective {c d : UInt32} (h : wordBits c = wordBits d) : c = d := by
  refine UInt32.toNat_inj.mp (Nat.eq_of_testBit_eq fun i => ?_)
  rcases Nat.lt_or_ge i 32 with hi | hi
  · exact List.map_inj_left.mp h i (List.mem_range.mpr hi)
  · have hz : ∀ c : UInt32, c.toNat.testBit i = false := fun c =>
      Nat.testBit_lt_two_pow (c.toNat_lt.trans_le (Nat.pow_le_pow_right (by decide) hi))
    rw [hz c, hz d]

theorem poly_wordBits_xor (c d : UInt32) : poly (wordBits (c ^^^ d)) = poly (wordBits c) + poly (wordBits d) := by
  rw [wordBits, wordBits, wordBits, ← poly_xor]
  simp only [UInt32.toNat_xor, ← Nat.testBit_xor]

/-- A shift is a multiplication by `X`, without the leading term. -/
theorem poly_shift (c : UInt32) :
    X * poly (wordBits c) = (if c.toNat.testBit 0 then X ^ 32 else 0) + poly (wordBits (c >>> 1)) := by
  have hbits : wordBits c = c.toNat.testBit 0 :: (List.range 31).map fun i => c.toNat.testBit (i + 1) := by
    rw [wordBits, List.range_succ_eq_map]
    simp [Function.comp_def]
  have hshift : wordBits (c >>> 1) = ((List.range 31).map fun i => c.toNat.testBit (i + 1)) ++ [false] := by
    have htop : c.toNat.testBit 32 = false := Nat.testBit_lt_two_pow c.toNat_lt
    rw [wordBits, List.range_succ, List.map_append]
    simp [Nat.testBit_shiftRight, Nat.add_comm, htop]
  rw [hbits, hshift, poly_append, poly]
  simp only [List.length_map, List.length_range, List.length_singleton, poly, Bool.false_eq_true, if_false]
  split <;> ring

theorem step_mod (c : UInt32) :
    AdjoinRoot.mk generator (poly (wordBits (crcStep c))) = AdjoinRoot.mk generator (X * poly (wordBits c)) := by
  have hbit : c &&& 1 = 1 ↔ c.toNat.testBit 0 = true := by
    rw [← UInt32.toNat_inj, UInt32.toNat_and, Nat.testBit_zero]
    simp
  rw [poly_shift, crcStep]
  by_cases h : c.toNat.testBit 0 = true
  · rw [if_pos (hbit.mpr h), if_pos h, poly_wordBits_xor, add_comm (poly _), map_add, map_add, add_left_inj,
      AdjoinRoot.mk_eq_mk]
    have hpoly : wordBits POLY = (List.range 32).map fun i => Nat.testBit 0x04C11DB7 (31 - i) := by decide
    rw [hpoly, CharTwo.sub_eq_add, add_comm, ← generator]
  · rw [if_neg (hbit.not.mpr h), if_neg h, zero_add]

theorem iterate_mod (n : Nat) (c : UInt32) :
    AdjoinRoot.mk generator (poly (wordBits (crcStep^[n] c))) = AdjoinRoot.mk generator (X ^ n * poly (wordBits c)) := by
  induction n with
  | zero => simp
  | succ n ih =>
    rw [Function.iterate_succ_apply', step_mod, map_mul, ih, ← map_mul, pow_succ', mul_assoc]

theorem poly_wordBits_byte (b : UInt8) : poly (wordBits b.toUInt32) = X ^ 24 * poly (byteBits b) := by
  have hbits : wordBits b.toUInt32 = byteBits b ++ List.replicate 24 false := by
    have hhigh : ∀ i, b.toNat.testBit (8 + i) = false := fun i =>
      Nat.testBit_lt_two_pow (b.toNat_lt.trans_le (Nat.pow_le_pow_right (by decide) (by omega)))
    rw [wordBits, byteBits, show 32 = 8 + 24 from rfl, List.range_add, List.map_append, List.map_map, Function.comp_def]
    simp only [UInt8.toNat_toUInt32, hhigh, List.map_const', List.length_range]
  have hzero : ∀ n, poly (List.replicate n false) = 0 := by
    intro n
    induction n with
    | zero => rfl
    | succ n ih => simp [List.replicate_succ, poly, ih]
  rw [hbits, poly_append, hzero, add_zero, List.length_replicate]

theorem fold_mod (data : List UInt8) (c : UInt32) :
    AdjoinRoot.mk generator (poly (wordBits (data.foldl crcByte c))) = AdjoinRoot.mk generator
      (X ^ (8 * data.length) * poly (wordBits c) + X ^ 32 * poly (data.flatMap byteBits)) := by
  induction data generalizing c with
  | nil => simp [poly]
  | cons b data ih =>
    have hlen : (data.flatMap byteBits).length = 8 * data.length := by
      simp [List.length_flatMap, byteBits, Nat.mul_comm]
    rw [List.foldl_cons, ih, map_add, map_mul, crcByte, iterate_mod, poly_wordBits_xor, poly_wordBits_byte,
      List.flatMap_cons, poly_append, hlen, ← map_mul, ← map_add, List.length_cons]
    refine congrArg _ ?_
    ring

/-- The reflected CRC-32 is the remainder of the message, with the initial value added to its first 32 bits, after the
division by the generator, up to the complement. -/
theorem crc32_eq_iff (data : List UInt8) (c : UInt32) :
    crc32 data = c ↔ poly (wordBits (~~~ c)) =
      (X ^ (8 * data.length) * poly (wordBits 0xffffffff) + X ^ 32 * poly (data.flatMap byteBits)) %ₘ generator := by
  have hlt : ∀ f : Nat → Bool, (poly ((List.range 32).map f)).degree < (32 : Nat) := by
    intro f
    have h := degree_poly ((List.range 32).map f)
    rwa [List.length_map, List.length_range] at h
  have hmonic : generator.Monic := monic_X_pow_add (hlt _)
  have hdeg : generator.degree = (32 : Nat) := by
    rw [generator, degree_add_eq_left_of_degree_lt (by rw [degree_X_pow]; exact hlt _), degree_X_pow]
  have hmod := modByMonic_eq_of_dvd_sub hmonic (AdjoinRoot.mk_eq_mk.mp (fold_mod data 0xffffffff))
  rw [(modByMonic_eq_self_iff hmonic).mpr (by rw [hdeg]; exact hlt _)] at hmod
  rw [← hmod, crc32]
  constructor
  · rintro rfl
    rw [UInt32.not_not]
  · intro h
    rw [← wordBits_injective (poly_injective (by simp [wordBits]) h), UInt32.not_not]

end Xv6.Data
