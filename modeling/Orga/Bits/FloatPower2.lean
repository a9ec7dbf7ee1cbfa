import Orga.Lib.Ieee754

/-! `floatPower2` of `bits.c`: the word of the single-precision number `2 ^ x`. -/
namespace Orga.Bits
open Orga.Ieee754

def floatPower2 (x : Int32) : UInt32 :=
  let mask : Int32 := 0x7F
  if x < -150 then
    0
  else if x ≤ -127 ∧ x ≥ -150 then
    let displacement := -x - mask
    ((1 : Int32) <<< (23 - displacement)).toUInt32
  else if x ≤ 127 ∧ x ≥ -126 then
    let mask := mask + x
    (mask <<< 23).toUInt32
  else
    ((0xFF : Int32) <<< 23).toUInt32

/-- What the word of `2 ^ n` should denote. -/
def power2 (n : ℤ) : Datum :=
  if n < -149 then .zero false
  else if n ≤ -127 then .subnormal false (2 ^ n)
  else if n ≤ 127 then .normal false (2 ^ n)
  else .infinity false

theorem power2_value {n : ℤ} (h : n ≤ 127) :
    (power2 n).value = some (if n < -149 then 0 else 2 ^ n) := by
  unfold power2
  split_ifs <;> rfl

def denoted (x : Int32) : Datum := single.decode (floatPower2 x).toNat

theorem floatPower2_denormal :
    ∀ k < 24, (floatPower2 (Int32.ofInt ((k : ℕ) - 150))).toNat = 2 ^ k := by
  decide +kernel

theorem floatPower2_normal :
    ∀ e < 254, (floatPower2 (Int32.ofInt ((e : ℕ) - 126))).toNat = (e + 1) * 2 ^ 23 := by
  decide +kernel

section Ranges
variable {x : Int32}

theorem denoted_small (h : x.toInt < -150) : denoted x = .zero false := by
  have hx : x < -150 := Int32.lt_iff_toInt_lt.mpr h
  rw [denoted, floatPower2, if_pos hx]
  exact single.decode_zero

/-- The bit stands one place too far to the left, for `-127` in the field of the exponent. -/
theorem denoted_denormal (hlo : -150 ≤ x.toInt) (hhi : x.toInt ≤ -127) :
    (denoted x).value = some (2 ^ (x.toInt + 1)) := by
  obtain ⟨k, hk⟩ := Int.eq_ofNat_of_zero_le (show 0 ≤ x.toInt + 150 by omega)
  have hx : x = Int32.ofInt (k - 150) := by
    rw [← hk, Int.add_sub_cancel, Int32.ofInt_toInt]
  have hword : (floatPower2 x).toNat = 2 ^ k := by
    rw [hx]
    exact floatPower2_denormal k (by omega)
  obtain hlt | rfl : k < 23 ∨ k = 23 := by omega
  · have hexp : single.ulpExponent + k = x.toInt + 1 := by
      rw [← hk, show single.ulpExponent = -149 from rfl]
      ring
    rw [denoted, hword, single.decode_two_pow hlt, hexp]
    rfl
  · have hexp : ((1 : ℕ) : ℤ) - single.bias = x.toInt + 1 := by
      rw [show single.bias = 127 from rfl]
      omega
    have hdecode := single.decode_exponent (e := 1) (by omega) (by decide)
    rw [Nat.one_mul, hexp] at hdecode
    rw [denoted, hword]
    exact congrArg Datum.value hdecode

theorem denoted_normal (hlo : -126 ≤ x.toInt) (hhi : x.toInt ≤ 127) :
    denoted x = .normal false (2 ^ x.toInt) := by
  obtain ⟨e, he⟩ := Int.eq_ofNat_of_zero_le (show 0 ≤ x.toInt + 126 by omega)
  have hx : x = Int32.ofInt (e - 126) := by
    rw [← he, Int.add_sub_cancel, Int32.ofInt_toInt]
  have hword : (floatPower2 x).toNat = (e + 1) * 2 ^ 23 := by
    rw [hx]
    exact floatPower2_normal e (by omega)
  have hexp : ((e + 1 : ℕ) : ℤ) - single.bias = x.toInt := by
    rw [show single.bias = 127 from rfl]
    push_cast
    rw [← he]
    ring
  rw [denoted, hword, ← hexp]
  exact single.decode_exponent (Nat.succ_pos e) (show e + 1 < 2 ^ 8 - 1 by omega)

theorem denoted_large (h : 127 < x.toInt) : denoted x = .infinity false := by
  have h₁ : ¬ x < -150 := fun hlt => by
    have : x.toInt < -150 := Int32.lt_iff_toInt_lt.mp hlt
    omega
  have h₂ : ¬ x ≤ -127 := fun hle => by
    have : x.toInt ≤ -127 := Int32.le_iff_toInt_le.mp hle
    omega
  have h₃ : ¬ x ≤ 127 := fun hle => by
    have : x.toInt ≤ 127 := Int32.le_iff_toInt_le.mp hle
    omega
  rw [denoted, floatPower2, if_neg h₁, if_neg (fun h => h₂ h.1), if_neg (fun h => h₃ h.1)]
  exact single.decode_infinity

theorem toInt_succ (hlo : -149 ≤ x.toInt) (hhi : x.toInt ≤ 126) :
    (x + 1).toInt = x.toInt + 1 := by
  rw [Int32.toInt_add, show (1 : Int32).toInt = 1 from rfl]
  exact Int.bmod_eq_of_le (by omega) (by omega)

end Ranges

/-- The result denotes `2 ^ x`, and doubles from `x` to `x + 1`, exactly when `x` is not in the
denormal branch. -/
theorem floatPower2_exact (x : Int32) :
    (denoted x = power2 x.toInt ∧ (-149 ≤ x.toInt → x.toInt ≤ 126 →
      ∃ q, (denoted x).value = some q ∧ (denoted (x + 1)).value = some (2 * q))) ↔
      x.toInt < -150 ∨ -126 ≤ x.toInt := by
  constructor
  · rintro ⟨hx, -⟩
    by_contra hbranch
    have hvalue := denoted_denormal (x := x) (by omega) (by omega)
    rw [hx, power2_value (by omega), Option.some_inj] at hvalue
    split_ifs at hvalue
    · exact (zpow_ne_zero (x.toInt + 1) (by norm_num)) hvalue.symm
    · have := zpow_right_injective₀ (by norm_num) (by norm_num) hvalue
      omega
  · rintro (hsmall | hlarge)
    · refine ⟨?_, fun hlo => by omega⟩
      rw [denoted_small hsmall, power2, if_pos (by omega)]
    · refine ⟨?_, fun hlo hhi => ⟨2 ^ x.toInt, ?_, ?_⟩⟩
      · obtain hnormal | hinf := le_or_gt x.toInt 127
        · rw [denoted_normal hlarge hnormal, power2, if_neg (by omega), if_neg (by omega),
            if_pos hnormal]
        · rw [denoted_large hinf, power2, if_neg (by omega), if_neg (by omega), if_neg (by omega)]
      · rw [denoted_normal hlarge (by omega)]
        rfl
      · have hsucc := toInt_succ hlo hhi
        rw [denoted_normal (by omega) (by omega), hsucc, zpow_add_one₀ (by norm_num), mul_comm]
        rfl

/-- `2 ^ -150` is too small for a denormal number, the result is the word of the smallest one. -/
theorem floatPower2_border :
    floatPower2 (-150) = 1 ∧ power2 (-150) = .zero false ∧ denoted (-150) ≠ .zero false := by
  refine ⟨by decide, rfl, fun hzero => ?_⟩
  have hvalue := denoted_denormal (x := -150) (by decide) (by decide)
  rw [hzero, Datum.value, Option.some_inj] at hvalue
  exact zpow_ne_zero _ (by norm_num) hvalue.symm

end Orga.Bits
