import Orga.Bits.FloatPower2
import Orga.Lib.BitFields
import Orga.Lib.FloatWords

/-! The puzzles of `bits.c` on single-precision numbers against the functions of `tests.c`. A float
of C is its word, `u2f` and `f2u` change nothing, and the product is the rounded one. -/
namespace Orga.Bits
open Orga.Ieee754 Orga.BitFields

def floatNegate (uf : UInt32) : UInt32 :=
  let maskBitSignificant := (1 : Int32) <<< 31
  let maskFrac := (uf &&& (~~~(maskBitSignificant >>> 8)).toUInt32).toInt32
  let maskExp : Int32 := 0xFF
  let maskExp := maskExp <<< 23
  if maskExp.toUInt32 &&& uf = maskExp.toUInt32 ∧ maskFrac ≠ 0 then uf
  else uf ^^^ maskBitSignificant.toUInt32

def floatAbsVal (uf : UInt32) : UInt32 :=
  let maskBitSignificant := (1 : Int32) <<< 31
  let maskFrac := (uf &&& (~~~(maskBitSignificant >>> 8)).toUInt32).toInt32
  let maskExp : Int32 := 0xFF
  let maskExp := maskExp <<< 23
  if maskExp.toUInt32 &&& uf = maskExp.toUInt32 ∧ maskFrac ≠ 0 then uf
  else uf &&& (~~~maskBitSignificant).toUInt32

/-- The change of sign of a float. -/
def minus (f : UInt32) : UInt32 := UInt32.ofNat (single.neg f.toNat)

def testFloatNegate (uf : UInt32) : UInt32 :=
  let nf := minus uf
  if single.isNan uf.toNat then uf else nf

def testFloatAbsVal (uf : UInt32) : UInt32 :=
  let unf := minus uf
  if single.isNan uf.toNat then uf
  else if uf.toInt32 < 0 then unf
  else uf

/-- The loop of `test_floatPower2`, in which `x` is not negative. -/
def power2Loop (result p2 x : ℕ) : ℕ :=
  if 0 < x then
    power2Loop (if x % 2 = 1 then single.mul result p2 else result) (single.mul p2 p2) (x / 2)
  else result
termination_by x

def testFloatPower2 (x : Int32) : UInt32 :=
  let result := 0x3F800000
  let p2 := 0x40000000
  if x.toUInt32 = 0x80000000 then 0
  else
    let (x, p2) := if x < 0 then (-x, 0x3F000000) else (x, p2)
    UInt32.ofNat (power2Loop result p2 x.toInt.toNat)

section Signs
variable (uf : UInt32)

theorem toInt32_eq_zero : uf.toInt32 = 0 ↔ uf = 0 :=
  ⟨fun h => by rw [← UInt32.toUInt32_toInt32 uf, h]; rfl, fun h => by rw [h]; rfl⟩

theorem isNan_iff : (((0xFF : Int32) <<< 23).toUInt32 &&& uf = ((0xFF : Int32) <<< 23).toUInt32 ∧
    (uf &&& (~~~((1 : Int32) <<< 31 >>> 8)).toUInt32).toInt32 ≠ 0) ↔
      single.isNan uf.toNat = true := by
  have hexp : (((0xFF : Int32) <<< 23).toUInt32 &&& uf).toNat =
      uf.toNat / 2 ^ 23 % 2 ^ 8 * 2 ^ 23 := by
    rw [UInt32.and_comm, UInt32.toNat_and]
    exact and_field uf.toNat 8 23
  have hfrac : (uf &&& (~~~((1 : Int32) <<< 31 >>> 8)).toUInt32).toNat = uf.toNat % 2 ^ 23 :=
    toNat_mask 23 (by decide)
  have hmask : ((0xFF : Int32) <<< 23).toUInt32.toNat = (2 ^ 8 - 1) * 2 ^ 23 := by decide
  rw [← UInt32.toNat_inj, hexp, hmask, ne_eq, toInt32_eq_zero, ← UInt32.toNat_inj, hfrac]
  simp only [Format.isNan, Format.exponentField, Format.fraction, single, Bool.and_eq_true,
    beq_iff_eq, bne_iff_ne]
  exact and_congr (Nat.mul_left_inj (by norm_num)) Iff.rfl

theorem xor_sign : uf ^^^ ((1 : Int32) <<< 31).toUInt32 = minus uf := by
  have hlt := uf.toNat_lt
  have hmask : ((1 : Int32) <<< 31).toUInt32.toNat = 2 ^ 31 := by decide
  apply UInt32.toNat_inj.mp
  rw [UInt32.toNat_xor, hmask, xor_two_pow hlt, minus, UInt32.toNat_ofNat']
  simp only [Format.neg, Format.negative, single, beq_iff_eq]
  split_ifs <;> omega

theorem floatNegate_eq : floatNegate uf = testFloatNegate uf := by
  unfold floatNegate testFloatNegate
  dsimp only
  rw [xor_sign]
  exact if_congr (isNan_iff uf) rfl rfl

theorem toNat_minus : (minus uf).toNat = single.neg uf.toNat := by
  have hlt := uf.toNat_lt
  rw [minus, UInt32.toNat_ofNat', Nat.mod_eq_of_lt]
  simp only [Format.neg, Format.negative, single, beq_iff_eq]
  split_ifs <;> omega

/-- The result is the number with the other sign, and the same word where there is no number. -/
theorem decode_floatNegate :
    single.decode (floatNegate uf).toNat = (single.decode uf.toNat).neg ∧
      (single.decode uf.toNat = .nan → floatNegate uf = uf) := by
  have hlt : uf.toNat < 2 ^ (single.exponentBits + single.fractionBits + 1) := uf.toNat_lt
  rw [floatNegate_eq, testFloatNegate]
  by_cases hnan : single.isNan uf.toNat = true
  · rw [if_pos hnan, Format.decode_isNan.mp hnan]
    exact ⟨rfl, fun _ => rfl⟩
  · rw [if_neg hnan, toNat_minus, Format.decode_neg hlt]
    exact ⟨rfl, fun h => absurd (Format.decode_isNan.mpr h) hnan⟩

theorem toInt_toInt32 : uf.toInt32.toInt = (uf.toNat : ℤ).bmod (2 ^ 32) := by
  rw [← Int32.toInt_toBitVec, UInt32.toBitVec_toInt32, BitVec.toInt_eq_toNat_bmod]
  rfl

theorem toInt32_neg_iff : uf.toInt32 < 0 ↔ 2 ^ 31 ≤ uf.toNat := by
  have hlt := uf.toNat_lt
  rw [Int32.lt_iff_toInt_lt, toInt_toInt32, show (0 : Int32).toInt = 0 from rfl, Int.bmod]
  omega

theorem floatAbsVal_eq : floatAbsVal uf = testFloatAbsVal uf := by
  have hlt := uf.toNat_lt
  have hand : (uf &&& (~~~((1 : Int32) <<< 31)).toUInt32).toNat = uf.toNat % 2 ^ 31 :=
    toNat_mask 31 (by decide)
  have habs : uf &&& (~~~((1 : Int32) <<< 31)).toUInt32 =
      if uf.toInt32 < 0 then minus uf else uf := by
    apply UInt32.toNat_inj.mp
    rw [hand]
    by_cases hneg : uf.toInt32 < 0
    · rw [if_pos hneg, minus, UInt32.toNat_ofNat']
      rw [toInt32_neg_iff] at hneg
      simp only [Format.neg, Format.negative, single, beq_iff_eq]
      split_ifs <;> omega
    · rw [if_neg hneg]
      rw [toInt32_neg_iff] at hneg
      omega
  unfold floatAbsVal testFloatAbsVal
  dsimp only
  rw [habs]
  exact if_congr (isNan_iff uf) rfl rfl

theorem negative_iff : single.negative uf.toNat = true ↔ uf.toInt32 < 0 := by
  have hlt := uf.toNat_lt
  rw [toInt32_neg_iff]
  simp only [Format.negative, single, beq_iff_eq]
  omega

theorem decode_floatAbsVal :
    single.decode (floatAbsVal uf).toNat = (single.decode uf.toNat).abs ∧
      (single.decode uf.toNat = .nan → floatAbsVal uf = uf) := by
  have hlt : uf.toNat < 2 ^ (single.exponentBits + single.fractionBits + 1) := uf.toNat_lt
  rw [floatAbsVal_eq, testFloatAbsVal]
  by_cases hnan : single.isNan uf.toNat = true
  · rw [if_pos hnan, Format.decode_isNan.mp hnan]
    exact ⟨rfl, fun _ => rfl⟩
  · rw [if_neg hnan, ← Format.decode_abs hlt]
    refine ⟨?_, fun h => absurd (Format.decode_isNan.mpr h) hnan⟩
    rw [apply_ite UInt32.toNat, toNat_minus]
    exact congrArg _ (if_congr (negative_iff uf).symm rfl rfl)

end Signs

section Powers
variable {a b : ℤ}

theorem power_zero : single.power 0 = 0x3F800000 := by decide

/-- The loop multiplies the powers whose bits are in `x`; neither they nor the result cross one. -/
theorem power2Loop_power (h : 0 ≤ a ∧ 0 ≤ b ∨ a ≤ 0 ∧ b ≤ 0) (x : ℕ) :
    power2Loop (single.power a) (single.power b) x = single.power (a + b * x) := by
  induction x using Nat.strong_induction_on generalizing a b with
  | _ x ih =>
    rw [power2Loop]
    by_cases hx : 0 < x
    · have hhalf : (x : ℤ) = 2 * (x / 2 : ℕ) + (x % 2 : ℕ) := by omega
      have hstep : (if x % 2 = 1 then single.mul (single.power a) (single.power b)
          else single.power a) = single.power (a + b * (x % 2 : ℕ)) := by
        obtain hbit | hbit := Nat.mod_two_eq_zero_or_one x
        · rw [hbit, if_neg (by omega), Nat.cast_zero, mul_zero, add_zero]
        · rw [hbit, if_pos rfl, single.mul_power h, Nat.cast_one, mul_one]
      have hsign : 0 ≤ a + b * (x % 2 : ℕ) ∧ 0 ≤ b + b ∨ a + b * (x % 2 : ℕ) ≤ 0 ∧ b + b ≤ 0 := by
        obtain hbit | hbit := Nat.mod_two_eq_zero_or_one x <;> rw [hbit] <;> push_cast <;> omega
      rw [if_pos hx, hstep, single.mul_power (by omega), ih (x / 2) (by omega) hsign]
      congr 1
      rw [hhalf]
      ring
    · rw [if_neg hx, Nat.eq_zero_of_not_pos hx, Nat.cast_zero, mul_zero, add_zero]

variable (x : Int32)

theorem testFloatPower2_eq : testFloatPower2 x = UInt32.ofNat (single.power x.toInt) := by
  have hlo := Int32.le_toInt x
  have hhi := Int32.toInt_lt x
  have htwo : single.power 1 = 0x40000000 := by decide
  have hhalf : single.power (-1) = 0x3F000000 := by decide
  unfold testFloatPower2
  dsimp only
  by_cases hmin : x.toUInt32 = 0x80000000
  · have hx : x.toInt = -2 ^ 31 := by
      rw [← Int32.toInt32_toUInt32 x, hmin]
      rfl
    rw [if_pos hmin, hx, Format.power_small (by decide)]
    rfl
  · have hne : x.toInt ≠ -2 ^ 31 := fun h => hmin <| by
      rw [← Int32.ofInt_toInt x, h]
      rfl
    rw [if_neg hmin, ← power_zero]
    by_cases hneg : x < 0
    · have hsign : x.toInt < 0 := Int32.lt_iff_toInt_lt.mp hneg
      have hflip : (-x).toInt = -x.toInt := by
        rw [Int32.toInt_neg]
        exact Int.bmod_eq_of_le (by omega) (by omega)
      rw [if_pos hneg]
      dsimp only
      rw [← hhalf, power2Loop_power (by omega), hflip]
      congr 2
      omega
    · have hsign : ¬ x.toInt < 0 := fun h => hneg (Int32.lt_iff_toInt_lt.mpr h)
      rw [if_neg hneg]
      dsimp only
      rw [← htwo, power2Loop_power (by omega)]
      congr 2
      omega

theorem decode_power (n : ℤ) : single.decode (single.power n) = power2 n := by
  have hulp : single.ulpExponent = -149 := rfl
  have hbias : single.bias = 127 := rfl
  unfold power2
  split_ifs with hzero hsub hnormal
  · rw [Format.power_small (by omega)]
    exact single.decode_zero
  · rw [Format.power_subnormal (by omega) (by omega),
      single.decode_two_pow (show _ < 23 by omega)]
    congr 2
    omega
  · rw [Format.power_normal (by omega) (by omega),
      single.decode_exponent (by omega) (show _ < 2 ^ 8 - 1 by omega)]
    congr 2
    omega
  · rw [Format.power_large (by omega)]
    exact single.decode_infinity

theorem power_lt (n : ℤ) : single.power n < 2 ^ 32 := by
  have hinf : single.infinityWord < 2 ^ 32 := by decide
  have hulp : single.ulpExponent = -149 := rfl
  have hbias : single.bias = 127 := rfl
  rcases lt_or_ge n single.ulpExponent with hsmall | hsmall
  · rw [Format.power_small hsmall]
    norm_num
  rcases lt_or_ge n (1 - single.bias) with hnormal | hnormal
  · rw [Format.power_subnormal hsmall hnormal]
    exact Nat.pow_lt_pow_right (by omega) (by omega)
  rw [Format.power, if_neg hsmall.not_gt, if_neg hnormal.not_gt]
  exact (Nat.min_le_right _ _).trans_lt hinf

theorem toNat_floatPower2 : (floatPower2 x).toNat =
    if -150 ≤ x.toInt ∧ x.toInt ≤ -127 then 2 ^ (x.toInt + 150).toNat
    else single.power x.toInt := by
  have hulp : single.ulpExponent = -149 := rfl
  have hbias : single.bias = 127 := rfl
  by_cases hbranch : -150 ≤ x.toInt ∧ x.toInt ≤ -127
  · obtain ⟨k, hk⟩ := Int.eq_ofNat_of_zero_le (show 0 ≤ x.toInt + 150 by omega)
    have hx : x = Int32.ofInt (k - 150) := by
      rw [← hk, Int.add_sub_cancel, Int32.ofInt_toInt]
    rw [if_pos hbranch, hk, Int.toNat_natCast, hx]
    exact floatPower2_denormal k (by omega)
  rw [if_neg hbranch]
  rcases lt_or_ge x.toInt (-150) with hsmall | hsmall
  · have hx : x < -150 := Int32.lt_iff_toInt_lt.mpr hsmall
    rw [floatPower2, if_pos hx, Format.power_small (by omega)]
    rfl
  rcases le_or_gt x.toInt 127 with hnormal | hlarge
  · obtain ⟨e, he⟩ := Int.eq_ofNat_of_zero_le (show 0 ≤ x.toInt + 126 by omega)
    have hx : x = Int32.ofInt (e - 126) := by
      rw [← he, Int.add_sub_cancel, Int32.ofInt_toInt]
    have hfield : (x.toInt + single.bias).toNat = e + 1 := by omega
    rw [Format.power_normal (by omega) (by omega), hfield, hx]
    exact floatPower2_normal e (by omega)
  · have hx : ¬ x < -150 ∧ ¬ x ≤ -127 ∧ ¬ x ≤ 127 := by
      rw [Int32.lt_iff_toInt_lt, Int32.le_iff_toInt_le, Int32.le_iff_toInt_le]
      exact ⟨hsmall.not_gt, fun h => hbranch ⟨hsmall, h⟩, hlarge.not_ge⟩
    rw [floatPower2, if_neg hx.1, if_neg (fun h => hx.2.1 h.1), if_neg (fun h => hx.2.2 h.1),
      Format.power_large hlarge]
    rfl

theorem decode_testFloatPower2 : single.decode (testFloatPower2 x).toNat = power2 x.toInt := by
  rw [testFloatPower2_eq, UInt32.toNat_ofNat', Nat.mod_eq_of_lt (power_lt _), decode_power]

/-- The denormal branch is the only one that departs from the reference, and everywhere. -/
theorem floatPower2_eq_iff :
    floatPower2 x = testFloatPower2 x ↔ x.toInt < -150 ∨ -126 ≤ x.toInt := by
  have hulp : single.ulpExponent = -149 := rfl
  have hword : (testFloatPower2 x).toNat = single.power x.toInt := by
    rw [testFloatPower2_eq, UInt32.toNat_ofNat', Nat.mod_eq_of_lt (power_lt _)]
  rw [← UInt32.toNat_inj, hword, toNat_floatPower2]
  split_ifs with hbranch
  · refine iff_of_false ?_ (by omega)
    rcases lt_or_ge x.toInt (-149) with hborder | hborder
    · rw [Format.power_small hborder]
      exact (Nat.two_pow_pos _).ne'
    · rw [Format.power_subnormal hborder (show x.toInt < -126 by omega)]
      exact (Nat.pow_lt_pow_right (by omega) (by omega)).ne'
  · exact iff_of_true rfl (by omega)

end Powers

end Orga.Bits
