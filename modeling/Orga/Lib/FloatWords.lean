import Orga.Lib.Ieee754

/-! Arithmetic on the words of a binary interchange format: the change of sign, and the product
rounded to nearest with ties to even. -/
namespace Orga.Ieee754
def Datum.neg : Datum → Datum
  | .zero negative => .zero !negative
  | .subnormal negative q => .subnormal (!negative) q
  | .normal negative q => .normal (!negative) q
  | .infinity negative => .infinity !negative
  | .nan => .nan

def Datum.abs : Datum → Datum
  | .zero _ => .zero false
  | .subnormal _ q => .subnormal false q
  | .normal _ q => .normal false q
  | .infinity _ => .infinity false
  | .nan => .nan

namespace Format
variable (F : Format)

def exponentField (word : ℕ) : ℕ := word / 2 ^ F.fractionBits % 2 ^ F.exponentBits
def fraction (word : ℕ) : ℕ := word % 2 ^ F.fractionBits
def negative (word : ℕ) : Bool := word / 2 ^ (F.exponentBits + F.fractionBits) % 2 == 1

def isNan (word : ℕ) : Bool :=
  F.exponentField word == 2 ^ F.exponentBits - 1 && F.fraction word != 0

def isInfinity (word : ℕ) : Bool :=
  F.exponentField word == 2 ^ F.exponentBits - 1 && F.fraction word == 0

/-- The magnitude of a finite word is `significand * 2 ^ scale`. -/
def significand (word : ℕ) : ℕ :=
  if F.exponentField word = 0 then F.fraction word else 2 ^ F.fractionBits + F.fraction word

def scale (word : ℕ) : ℤ := F.ulpExponent + (F.exponentField word - 1 : ℕ)

def infinityWord : ℕ := (2 ^ F.exponentBits - 1) * 2 ^ F.fractionBits
def nanWord : ℕ := F.infinityWord + 2 ^ (F.fractionBits - 1)

def neg (word : ℕ) : ℕ :=
  if F.negative word then word - 2 ^ (F.exponentBits + F.fractionBits)
  else word + 2 ^ (F.exponentBits + F.fractionBits)

/-- The quotient of `m` by `2 ^ s`, rounded to nearest, ties to even. -/
def nearest (m s : ℕ) : ℕ :=
  if 2 * (m % 2 ^ s) < 2 ^ s then m / 2 ^ s
  else if 2 ^ s < 2 * (m % 2 ^ s) then m / 2 ^ s + 1
  else m / 2 ^ s + m / 2 ^ s % 2

/-- The word of `m * 2 ^ k`, rounded; too large a number becomes the infinity. A significand that
is rounded up to a power of two carries into the exponent. -/
def encode (m : ℕ) (k : ℤ) : ℕ :=
  if m = 0 then 0
  else
    let exponent := max (m.log2 + k) (1 - F.bias)
    let shift := exponent - F.fractionBits - k
    let rounded := if shift ≤ 0 then m * 2 ^ (-shift).toNat else nearest m shift.toNat
    min ((exponent - (1 - F.bias)).toNat * 2 ^ F.fractionBits + rounded) F.infinityWord

def mul (a b : ℕ) : ℕ :=
  let sign := if F.negative a == F.negative b then 0 else 2 ^ (F.exponentBits + F.fractionBits)
  if F.isNan a || F.isNan b then F.nanWord
  else if F.isInfinity a then if F.significand b = 0 then F.nanWord else sign + F.infinityWord
  else if F.isInfinity b then if F.significand a = 0 then F.nanWord else sign + F.infinityWord
  else sign + F.encode (F.significand a * F.significand b) (F.scale a + F.scale b)

def power (n : ℤ) : ℕ :=
  if n < F.ulpExponent then 0
  else if n < 1 - F.bias then 2 ^ (n - F.ulpExponent).toNat
  else min ((n + F.bias).toNat * 2 ^ F.fractionBits) F.infinityWord

section Powers
variable {F}

/-- A quotient of powers of two is exact or rounds to zero. -/
theorem nearest_two_pow (j s : ℕ) : nearest (2 ^ j) s = if s ≤ j then 2 ^ (j - s) else 0 := by
  by_cases hs : s ≤ j
  · have hmod : 2 ^ j % 2 ^ s = 0 := Nat.mod_eq_zero_of_dvd (pow_dvd_pow 2 hs)
    rw [nearest, hmod, if_pos (Nat.two_pow_pos s), if_pos hs, Nat.pow_div hs (by omega)]
  · have hlt : 2 ^ j < 2 ^ s := Nat.pow_lt_pow_right (by omega) (by omega)
    have hle : 2 * 2 ^ j ≤ 2 ^ s := by
      rw [← pow_succ']
      exact Nat.pow_le_pow_right (by omega) (by omega)
    rw [nearest, Nat.mod_eq_of_lt hlt, Nat.div_eq_of_lt hlt, if_neg hs, if_neg hle.not_gt]
    split_ifs <;> rfl

theorem rounded_two_pow (j : ℕ) (shift : ℤ) :
    (if shift ≤ 0 then 2 ^ j * 2 ^ (-shift).toNat else nearest (2 ^ j) shift.toNat) =
      if shift ≤ j then 2 ^ (j - shift).toNat else 0 := by
  by_cases hneg : shift ≤ 0
  · rw [if_pos hneg, if_pos (by omega), ← pow_add]
    congr 1
    omega
  · rw [if_neg hneg, nearest_two_pow]
    refine if_congr (by omega) ?_ rfl
    congr 1
    omega

theorem infinityWord_ge : 2 ^ F.fractionBits ≤ F.infinityWord := by
  have hfour := F.four_le
  exact Nat.le_mul_of_pos_left _ (by omega)

theorem encode_two_pow (j : ℕ) (k : ℤ) : F.encode (2 ^ j) k = F.power (j + k) := by
  have hpos : (2 ^ j : ℕ) ≠ 0 := (Nat.two_pow_pos j).ne'
  have hulp : F.ulpExponent = 1 - F.bias - F.fractionBits := rfl
  rw [encode, if_neg hpos, Nat.log2_two_pow]
  dsimp only
  rw [rounded_two_pow, power]
  by_cases hnormal : (j : ℤ) + k < 1 - F.bias
  · rw [max_eq_right hnormal.le, sub_self, Int.toNat_zero, Nat.zero_mul, Nat.zero_add]
    by_cases hsmall : (j : ℤ) + k < F.ulpExponent
    · rw [if_neg (by omega), if_pos hsmall, Nat.zero_min]
    · have hexp : ((j : ℤ) - (1 - F.bias - F.fractionBits - k)).toNat =
          ((j : ℤ) + k - F.ulpExponent).toNat := by
        congr 1
        omega
      have hle : 2 ^ ((j : ℤ) + k - F.ulpExponent).toNat ≤ 2 ^ F.fractionBits :=
        Nat.pow_le_pow_right (by omega) (by omega)
      rw [if_pos (by omega), if_neg hsmall, if_pos hnormal, hexp]
      exact Nat.min_eq_left (hle.trans infinityWord_ge)
  · rw [max_eq_left (by omega), if_pos (by omega), if_neg (by omega), if_neg hnormal]
    congr 1
    have hexp : ((j : ℤ) - ((j : ℤ) + k - F.fractionBits - k)).toNat = F.fractionBits := by omega
    have hfield : ((j : ℤ) + k + F.bias).toNat = ((j : ℤ) + k - (1 - F.bias)).toNat + 1 := by omega
    rw [hexp, hfield, Nat.add_mul, Nat.one_mul]

variable (F) in
theorem two_pow_exponentBits : ((2 ^ F.exponentBits : ℕ) : ℤ) = 2 * (F.bias + 1) := by
  obtain ⟨n, hn⟩ := Nat.exists_eq_add_of_le F.two_le
  rw [bias, hn, show 2 + n = n + 1 + 1 by omega, Nat.add_sub_cancel]
  push_cast
  ring

theorem fields_of_eq {word x m : ℕ} (hword : word = x * 2 ^ F.fractionBits + m)
    (hx : x < 2 ^ F.exponentBits) (hm : m < 2 ^ F.fractionBits) :
    F.negative word = false ∧ F.exponentField word = x ∧ F.fraction word = m := by
  obtain ⟨hsign, hexp, hfrac⟩ := F.fields hx hm
  rw [← hword] at hsign hexp hfrac
  exact ⟨by rw [negative, hsign]; rfl, hexp, hfrac⟩

variable (F) in
theorem one_le_bias : 1 ≤ F.bias := by
  have hbits := F.two_pow_exponentBits
  have hfour := F.four_le
  omega

section Ranges
variable {n : ℤ}

theorem power_small (h : n < F.ulpExponent) : F.power n = 0 := if_pos h

theorem power_large (h : F.bias < n) : F.power n = F.infinityWord := by
  have hbits := F.two_pow_exponentBits
  have hbias := F.one_le_bias
  have hulp : F.ulpExponent = 1 - F.bias - F.fractionBits := rfl
  rw [power, if_neg (by omega), if_neg (by omega)]
  exact Nat.min_eq_right (Nat.mul_le_mul_right _ (by omega))

theorem power_normal (hlo : 1 - F.bias ≤ n) (hhi : n ≤ F.bias) :
    F.power n = (n + F.bias).toNat * 2 ^ F.fractionBits := by
  have hbits := F.two_pow_exponentBits
  have hfour := F.four_le
  have hulp : F.ulpExponent = 1 - F.bias - F.fractionBits := rfl
  rw [power, if_neg (by omega), if_neg (by omega)]
  exact Nat.min_eq_left (Nat.mul_le_mul_right _ (by omega))

theorem power_subnormal (hlo : F.ulpExponent ≤ n) (hhi : n < 1 - F.bias) :
    F.power n = 2 ^ (n - F.ulpExponent).toNat := by
  rw [power, if_neg (by omega), if_pos hhi]

/-- In between, the fields of the word tell the power. -/
theorem power_finite (hlo : F.ulpExponent ≤ n) (hhi : n ≤ F.bias) :
    F.exponentField (F.power n) < 2 ^ F.exponentBits - 1 ∧ F.negative (F.power n) = false ∧
      ∃ j : ℕ, F.significand (F.power n) = 2 ^ j ∧ j + F.scale (F.power n) = n := by
  have hbits := F.two_pow_exponentBits
  have hfour := F.four_le
  have hulp : F.ulpExponent = 1 - F.bias - F.fractionBits := rfl
  rcases lt_or_ge n (1 - F.bias) with hsub | hnormal
  · have hpow : F.power n = 0 * 2 ^ F.fractionBits + 2 ^ (n - F.ulpExponent).toNat := by
      rw [power_subnormal hlo hsub, Nat.zero_mul, Nat.zero_add]
    obtain ⟨hneg, hexp, hfrac⟩ := fields_of_eq hpow (by omega)
      (Nat.pow_lt_pow_right (by omega) (by omega))
    refine ⟨by omega, hneg, (n - F.ulpExponent).toNat, ?_, ?_⟩
    · rw [significand, if_pos hexp, hfrac]
    · rw [scale, hexp]
      omega
  · have hword : F.power n = (n + F.bias).toNat * 2 ^ F.fractionBits + 0 := by
      rw [power_normal hnormal hhi, Nat.add_zero]
    obtain ⟨hneg, hexp, hfrac⟩ := fields_of_eq hword (by omega) (Nat.two_pow_pos _)
    refine ⟨by omega, hneg, F.fractionBits, ?_, ?_⟩
    · rw [significand, hexp, hfrac, if_neg (by omega), Nat.add_zero]
    · rw [scale, hexp]
      omega

end Ranges

theorem isFinite {word : ℕ} (h : F.exponentField word < 2 ^ F.exponentBits - 1) :
    F.isNan word = false ∧ F.isInfinity word = false := by
  have hne : (F.exponentField word == 2 ^ F.exponentBits - 1) = false :=
    beq_eq_false_iff_ne.mpr h.ne
  rw [isNan, isInfinity, hne]
  exact ⟨rfl, rfl⟩

variable (F) in
theorem zero_fields : F.exponentField 0 = 0 ∧ F.negative 0 = false ∧ F.significand 0 = 0 := by
  have hexp : F.exponentField 0 = 0 := by simp [exponentField]
  exact ⟨hexp, by simp [negative], by rw [significand, if_pos hexp]; simp [fraction]⟩

variable (F) in
theorem infinity_fields : F.isNan F.infinityWord = false ∧ F.isInfinity F.infinityWord = true ∧
    F.negative F.infinityWord = false ∧ F.significand F.infinityWord ≠ 0 := by
  have hfour := F.four_le
  have hword : F.infinityWord = (2 ^ F.exponentBits - 1) * 2 ^ F.fractionBits + 0 := rfl
  obtain ⟨hneg, hexp, hfrac⟩ := fields_of_eq hword (by omega) (Nat.two_pow_pos _)
  refine ⟨by simp [isNan, hfrac], by simp [isInfinity, hexp, hfrac], hneg, ?_⟩
  rw [significand, hexp, if_neg (by omega)]
  have := Nat.two_pow_pos F.fractionBits
  omega

section Products
variable {x y : ℕ}

theorem mul_finite (hx : F.exponentField x < 2 ^ F.exponentBits - 1)
    (hy : F.exponentField y < 2 ^ F.exponentBits - 1) (hsign : F.negative x = F.negative y) :
    F.mul x y = F.encode (F.significand x * F.significand y) (F.scale x + F.scale y) := by
  obtain ⟨hnx, hix⟩ := isFinite hx
  obtain ⟨hny, hiy⟩ := isFinite hy
  simp [mul, hnx, hix, hny, hiy, hsign]

theorem mul_infinity_left (hnan : F.isNan y = false) (hy : F.significand y ≠ 0)
    (hneg : F.negative y = false) : F.mul F.infinityWord y = F.infinityWord := by
  obtain ⟨hn, hi, hsign, -⟩ := F.infinity_fields
  simp [mul, hn, hi, hsign, hnan, hy, hneg]

theorem mul_infinity_right (hx : F.exponentField x < 2 ^ F.exponentBits - 1)
    (hx0 : F.significand x ≠ 0) (hneg : F.negative x = false) :
    F.mul x F.infinityWord = F.infinityWord := by
  obtain ⟨hnx, hix⟩ := isFinite hx
  obtain ⟨hn, hi, hsign, -⟩ := F.infinity_fields
  simp [mul, hn, hi, hsign, hnx, hix, hx0, hneg]

end Products

variable (F) in
/-- Products of powers of two, both at least one or both at most one. -/
theorem mul_power {a b : ℤ} (h : 0 ≤ a ∧ 0 ≤ b ∨ a ≤ 0 ∧ b ≤ 0) :
    F.mul (F.power a) (F.power b) = F.power (a + b) := by
  have hbits := F.two_pow_exponentBits
  have hfour := F.four_le
  have hbias := F.one_le_bias
  have hulp : F.ulpExponent = 1 - F.bias - F.fractionBits := rfl
  obtain ⟨hexp0, hneg0, hsig0⟩ := F.zero_fields
  have hzero : F.exponentField 0 < 2 ^ F.exponentBits - 1 := by omega
  rcases lt_or_ge a F.ulpExponent with ha | ha
  · -- the first factor is rounded to zero, and so is the product
    rw [power_small ha, power_small (show a + b < F.ulpExponent by omega)]
    rcases lt_or_ge b F.ulpExponent with hb | hb
    · rw [power_small hb, mul_finite hzero hzero rfl, hsig0]
      rfl
    · obtain ⟨hexp, hneg, -⟩ := power_finite hb (by omega)
      rw [mul_finite hzero hexp (hneg0.trans hneg.symm), hsig0, Nat.zero_mul]
      rfl
  rcases lt_or_ge b F.ulpExponent with hb | hb
  · obtain ⟨hexp, hneg, -⟩ := power_finite ha (by omega)
    rw [power_small hb, power_small (show a + b < F.ulpExponent by omega),
      mul_finite hexp hzero (hneg.trans hneg0.symm), hsig0, Nat.mul_zero]
    rfl
  rcases lt_or_ge F.bias a with hinf | hfin
  · rw [power_large hinf, power_large (show F.bias < a + b by omega)]
    rcases lt_or_ge F.bias b with hinf' | hfin'
    · obtain ⟨hnan, -, hneg, hsig⟩ := F.infinity_fields
      rw [power_large hinf', mul_infinity_left hnan hsig hneg]
    · obtain ⟨hexp, hneg, j, hsig, -⟩ := power_finite hb hfin'
      exact mul_infinity_left (isFinite hexp).1 (by rw [hsig]; exact (Nat.two_pow_pos j).ne') hneg
  obtain ⟨hexp, hneg, i, hsig, hscale⟩ := power_finite ha hfin
  rcases lt_or_ge F.bias b with hinf' | hfin'
  · rw [power_large hinf', power_large (show F.bias < a + b by omega)]
    exact mul_infinity_right hexp (by rw [hsig]; exact (Nat.two_pow_pos i).ne') hneg
  · obtain ⟨hexp', hneg', j, hsig', hscale'⟩ := power_finite hb hfin'
    rw [mul_finite hexp hexp' (hneg.trans hneg'.symm), hsig, hsig', ← pow_add, encode_two_pow]
    congr 1
    omega

end Powers

section Signs
variable {F} {word : ℕ}

theorem fields_neg (h : word < 2 ^ (F.exponentBits + F.fractionBits + 1)) :
    F.negative (F.neg word) = !F.negative word ∧
      F.exponentField (F.neg word) = F.exponentField word ∧
      F.fraction (F.neg word) = F.fraction word := by
  have hpow : 2 ^ (F.exponentBits + F.fractionBits) = 2 ^ F.exponentBits * 2 ^ F.fractionBits :=
    pow_add 2 _ _
  have hpos := Nat.two_pow_pos (F.exponentBits + F.fractionBits)
  have hfields (x : ℕ) : F.exponentField (x + 2 ^ (F.exponentBits + F.fractionBits)) =
      F.exponentField x ∧ F.fraction (x + 2 ^ (F.exponentBits + F.fractionBits)) = F.fraction x := by
    rw [exponentField, fraction, hpow]
    constructor
    · rw [Nat.add_mul_div_right _ _ (Nat.two_pow_pos _), Nat.add_mod_right]
      rfl
    · rw [Nat.add_mul_mod_self_right]
      rfl
  rw [pow_succ] at h
  by_cases hlt : word < 2 ^ (F.exponentBits + F.fractionBits)
  · have hneg : F.negative word = false := by
      rw [negative, Nat.div_eq_of_lt hlt]
      rfl
    rw [neg, hneg, if_neg Bool.false_ne_true]
    refine ⟨?_, hfields word⟩
    rw [negative, Nat.add_div_right _ hpos, Nat.div_eq_of_lt hlt]
    rfl
  · have hquot : word / 2 ^ (F.exponentBits + F.fractionBits) = 1 :=
      Nat.div_eq_of_lt_le (by omega) (by omega)
    have hneg : F.negative word = true := by
      rw [negative, hquot]
      rfl
    have hback := hfields (word - 2 ^ (F.exponentBits + F.fractionBits))
    rw [Nat.sub_add_cancel (not_lt.mp hlt)] at hback
    rw [neg, hneg, if_pos rfl]
    refine ⟨?_, hback.1.symm, hback.2.symm⟩
    rw [negative, Nat.div_eq_of_lt (by omega)]
    rfl

theorem decode_eq : F.decode word =
    if F.exponentField word = 2 ^ F.exponentBits - 1 then
      if F.fraction word = 0 then .infinity (F.negative word) else .nan
    else if F.exponentField word = 0 then
      if F.fraction word = 0 then .zero (F.negative word)
      else .subnormal (F.negative word) (F.fraction word * 2 ^ F.ulpExponent)
    else .normal (F.negative word)
      ((2 ^ F.fractionBits + F.fraction word) * 2 ^ (F.ulpExponent + (F.exponentField word - 1))) :=
  rfl

theorem decode_neg (h : word < 2 ^ (F.exponentBits + F.fractionBits + 1)) :
    F.decode (F.neg word) = (F.decode word).neg := by
  obtain ⟨hsign, hexp, hfrac⟩ := fields_neg h
  rw [decode_eq, decode_eq, hsign, hexp, hfrac]
  split_ifs <;> rfl

theorem decode_abs (h : word < 2 ^ (F.exponentBits + F.fractionBits + 1)) :
    F.decode (if F.negative word then F.neg word else word) = (F.decode word).abs := by
  split_ifs with hneg
  · obtain ⟨hsign, hexp, hfrac⟩ := fields_neg h
    rw [decode_eq, decode_eq, hsign, hexp, hfrac, hneg]
    split_ifs <;> rfl
  · rw [decode_eq, Bool.eq_false_of_not_eq_true hneg]
    split_ifs <;> rfl

theorem decode_isNan : F.isNan word = true ↔ F.decode word = .nan := by
  rw [decode_eq, isNan, Bool.and_eq_true, beq_iff_eq, bne_iff_ne]
  by_cases hexp : F.exponentField word = 2 ^ F.exponentBits - 1
  · rw [if_pos hexp]
    split_ifs with hfrac <;> simp [hexp, hfrac]
  · rw [if_neg hexp]
    refine iff_of_false (fun h => hexp h.1) ?_
    split_ifs <;> simp

end Signs

end Format

end Orga.Ieee754
