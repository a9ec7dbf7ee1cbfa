import Mathlib.Algebra.Order.Field.Basic
import Mathlib.Algebra.Order.Field.Rat
import Mathlib.Tactic.NormNum
import Mathlib.Tactic.Ring

/-! Words of a binary interchange format read as numbers: sign, biased exponent and fraction, from
the left. -/
namespace Orga.Ieee754

structure Format where
  exponentBits : ℕ
  fractionBits : ℕ
  two_le : 2 ≤ exponentBits

theorem two_le_eight : 2 ≤ 8 := by decide

def single : Format := ⟨8, 23, two_le_eight⟩

/-- What a word denotes. The flag tells a negative sign, the number is the magnitude. -/
inductive Datum where
  | zero (negative : Bool)
  | subnormal (negative : Bool) (magnitude : ℚ)
  | normal (negative : Bool) (magnitude : ℚ)
  | infinity (negative : Bool)
  | nan
  deriving DecidableEq

def Datum.value : Datum → Option ℚ
  | .zero _ => some 0
  | .subnormal negative q | .normal negative q => some (if negative then -q else q)
  | .infinity _ | .nan => none

namespace Format
variable (F : Format)

def bias : ℤ := 2 ^ (F.exponentBits - 1) - 1

/-- The exponent of the last bit of a subnormal number. -/
def ulpExponent : ℤ := 1 - F.bias - F.fractionBits

def decode (word : ℕ) : Datum :=
  let negative := word / 2 ^ (F.exponentBits + F.fractionBits) % 2 == 1
  let exponent := word / 2 ^ F.fractionBits % 2 ^ F.exponentBits
  let fraction := word % 2 ^ F.fractionBits
  if exponent = 2 ^ F.exponentBits - 1 then
    if fraction = 0 then .infinity negative else .nan
  else if exponent = 0 then
    if fraction = 0 then .zero negative
    else .subnormal negative (fraction * 2 ^ F.ulpExponent)
  else .normal negative ((2 ^ F.fractionBits + fraction) * 2 ^ (F.ulpExponent + (exponent - 1)))

theorem four_le : 4 ≤ 2 ^ F.exponentBits := by
  calc 4 = 2 ^ 2 := rfl
    _ ≤ 2 ^ F.exponentBits := Nat.pow_le_pow_right (by omega) F.two_le

section Fields
variable {e m : ℕ} (he : e < 2 ^ F.exponentBits) (hm : m < 2 ^ F.fractionBits)
include he hm

theorem fields : (e * 2 ^ F.fractionBits + m) /
      2 ^ (F.exponentBits + F.fractionBits) = 0 ∧
    (e * 2 ^ F.fractionBits + m) / 2 ^ F.fractionBits % 2 ^ F.exponentBits =
      e ∧
    (e * 2 ^ F.fractionBits + m) % 2 ^ F.fractionBits = m := by
  have hpos : 0 < 2 ^ F.fractionBits := Nat.two_pow_pos _
  have hlt : e * 2 ^ F.fractionBits + m < 2 ^ (F.exponentBits + F.fractionBits) := by
    rw [pow_add]
    calc e * 2 ^ F.fractionBits + m
        < e * 2 ^ F.fractionBits + 2 ^ F.fractionBits := by omega
      _ = (e + 1) * 2 ^ F.fractionBits := by ring
      _ ≤ 2 ^ F.exponentBits * 2 ^ F.fractionBits := Nat.mul_le_mul_right _ he
  refine ⟨Nat.div_eq_of_lt hlt, ?_, ?_⟩
  · rw [Nat.add_comm, Nat.add_mul_div_right _ _ hpos, Nat.div_eq_of_lt hm, Nat.zero_add,
      Nat.mod_eq_of_lt he]
  · rw [Nat.add_comm, Nat.add_mul_mod_self_right, Nat.mod_eq_of_lt hm]

theorem decode_fields : F.decode (e * 2 ^ F.fractionBits + m) =
    if e = 2 ^ F.exponentBits - 1 then
      if m = 0 then .infinity false else .nan
    else if e = 0 then
      if m = 0 then .zero false else .subnormal false (m * 2 ^ F.ulpExponent)
    else .normal false
      ((2 ^ F.fractionBits + m) * 2 ^ (F.ulpExponent + (e - 1))) := by
  obtain ⟨hsign, hexp, hfrac⟩ := F.fields he hm
  rw [decode, hsign, hexp, hfrac]
  rfl

end Fields

theorem decode_zero : F.decode 0 = .zero false := by
  have hfour := F.four_le
  have h := F.decode_fields (e := 0) (by omega) (Nat.two_pow_pos _)
  rw [Nat.zero_mul, Nat.zero_add, if_neg (by omega), if_pos rfl, if_pos rfl] at h
  exact h

theorem decode_infinity :
    F.decode ((2 ^ F.exponentBits - 1) * 2 ^ F.fractionBits) = .infinity false := by
  have hfour := F.four_le
  have h := F.decode_fields (e := 2 ^ F.exponentBits - 1) (by omega)
    (Nat.two_pow_pos F.fractionBits)
  rw [Nat.add_zero, if_pos rfl, if_pos rfl] at h
  exact h

/-- One bit of the fraction alone is a subnormal power of two. -/
theorem decode_two_pow {k : ℕ} (hk : k < F.fractionBits) :
    F.decode (2 ^ k) = .subnormal false (2 ^ (F.ulpExponent + k)) := by
  have hfour := F.four_le
  have hpos : 0 < 2 ^ k := Nat.two_pow_pos k
  have h := F.decode_fields (e := 0) (m := 2 ^ k) (by omega)
    (Nat.pow_lt_pow_right (by omega) hk)
  rw [Nat.zero_mul, Nat.zero_add, if_neg (by omega), if_pos rfl, if_neg (by omega)] at h
  rw [h, zpow_add₀ (by norm_num), mul_comm]
  norm_cast

theorem decode_exponent {e : ℕ} (hpos : 0 < e) (he : e < 2 ^ F.exponentBits - 1) :
    F.decode (e * 2 ^ F.fractionBits) = .normal false (2 ^ ((e : ℤ) - F.bias)) := by
  have h := F.decode_fields (e := e) (by omega) (Nat.two_pow_pos F.fractionBits)
  rw [Nat.add_zero, if_neg (by omega), if_neg (by omega)] at h
  have hexp : (F.fractionBits : ℤ) + (F.ulpExponent + (e - 1)) = e - F.bias := by
    rw [ulpExponent]
    ring
  rw [h, Nat.cast_zero, add_zero, ← zpow_natCast, ← zpow_add₀ (by norm_num), hexp]

end Format

end Orga.Ieee754
