import Mathlib.Algebra.Group.Int.Defs
import Mathlib.Logic.Equiv.Basic
import Orga.Lib.Words

/-! The puzzles of `bits.c` without branches, and the functions of `tests.c` they are
compared with. Sums and shifts are those of 32-bit words. -/
namespace Orga.Bits
open Orga.Words

/-- The operator `!` of C. -/
def logicalNot (x : Int32) : Int32 := if x = 0 then 1 else 0

def byteSwap (x n m : Int32) : Int32 :=
  let maskFf : Int32 := 0xFF
  let bitsN := n <<< 3
  let bitsM := m <<< 3
  let byteN := (x >>> bitsN) &&& maskFf
  let byteM := (x >>> bitsM) &&& maskFf
  let bytesSwapped := (byteN <<< bitsM) ||| (byteM <<< bitsN)
  let mask1 := ~~~((maskFf <<< bitsM) ||| (maskFf <<< bitsN))
  let mask1 := x &&& mask1
  mask1 ||| bytesSwapped

def allOddBits (x : Int32) : Int32 :=
  let mask : Int32 := 0xAA
  let mask := (mask <<< 8) ||| mask
  let mask := (mask <<< 16) ||| mask
  logicalNot ((x &&& mask) ^^^ mask)

def bitMask (highbit lowbit : Int32) : Int32 :=
  let allOnesMask : Int32 := ~~~0
  let highBits := (allOnesMask <<< highbit) <<< 1
  let lowBits := allOnesMask <<< lowbit
  (highBits ^^^ lowBits) &&& lowBits

def isAsciiDigit (x : Int32) : Int32 :=
  let lowerLimit : Int32 := 0x2F
  let upperLimit : Int32 := 0x3A
  let lowerLimit := ~~~lowerLimit + x
  let lowerLimit := lowerLimit >>> 31
  let upperLimit := upperLimit + ~~~x
  let upperLimit := upperLimit >>> 31
  logicalNot (lowerLimit ||| upperLimit)

/-- One of the two `switch` of `test_byteSwap`: the byte it takes, and `x` without it. -/
def switchByte (x k : Int32) : UInt32 × Int32 :=
  if k = 0 then ((x &&& 0xFF).toUInt32, x &&& 0xFFFFFF00)
  else if k = 1 then (((x &&& 0xFF00) >>> 8).toUInt32, x &&& 0xFFFF00FF)
  else if k = 2 then (((x &&& 0xFF0000) >>> 16).toUInt32, x &&& 0xFF00FFFF)
  else ((x &&& 0xFF000000).toUInt32 >>> 24, x &&& 0x00FFFFFF)

def testByteSwap (x n m : Int32) : Int32 :=
  let (nmask, x) := switchByte x n
  let (mmask, x) := switchByte x m
  let nmask := nmask <<< (8 * m).toUInt32
  let mmask := mmask <<< (8 * n).toUInt32
  (x.toUInt32 ||| nmask ||| mmask).toInt32

/-- The loop of `test_allOddBits` from `i` on. -/
def testAllOddBitsLoop (x : Int32) (i : ℕ) : Int32 :=
  if i < 32 then
    if x &&& (1 <<< Int32.ofNat i) = 0 then 0 else testAllOddBitsLoop x (i + 2)
  else
    1
termination_by 32 - i

def testAllOddBits (x : Int32) : Int32 := testAllOddBitsLoop x 1

/-- The loop of `test_bitMask` from `i` on; below 32 the counter does not overflow. -/
def testBitMaskLoop (highbit i : ℤ) (result : Int32) : Int32 :=
  if i ≤ highbit then testBitMaskLoop highbit (i + 1) (result ||| 1 <<< Int32.ofInt i)
  else result
termination_by (highbit + 1 - i).toNat

def testBitMask (highbit lowbit : Int32) : Int32 :=
  testBitMaskLoop highbit.toInt lowbit.toInt 0

def testIsAsciiDigit (x : Int32) : Int32 := if 0x30 ≤ x ∧ x ≤ 0x39 then 1 else 0

section Bytes
variable {x : Int32} {n m k i : ℕ}

theorem shifted_byte : ∀ n < 4, Int32.ofNat n <<< 3 = Int32.ofNat (8 * n) := by
  decide

theorem bit_byteSwap (hn : n < 4) (hm : m < 4) (hk : k < 4) (hi : i < 8) :
    bit (byteSwap x (Int32.ofNat n) (Int32.ofNat m)) (8 * k + i) =
      bit x (8 * Equiv.swap n m k + i) := by
  have hff : ∀ j < 32, 8 ≤ j → bit 0xFF j = false := by decide
  have hlow (l : ℕ) (hl : l < 4) : ∀ j < 32, 8 ≤ j →
      bit ((x >>> Int32.ofNat (8 * l)) &&& 0xFF) j = false := by
    intro j hj hj8
    rw [bit_taken hl j hj, decide_eq_false (by omega), Bool.false_and]
  unfold byteSwap
  simp only [shifted_byte n hn, shifted_byte m hm]
  rw [bit_or, bit_and, bit_not (by omega), bit_or, bit_or, bit_placed hm hk hi hff,
    bit_placed hn hk hi hff, bit_placed hm hk hi (hlow n hn), bit_placed hn hk hi (hlow m hm),
    bit_taken hn i (by omega), bit_taken hm i (by omega), bit_lowByte i (by omega)]
  simp only [hi, decide_true, Bool.and_true, Bool.true_and]
  by_cases hkn : k = n
  · subst hkn
    rw [Equiv.swap_apply_left]
    by_cases hkm : k = m
    · simp [hkm]
    · simp [hkm]
  · by_cases hkm : k = m
    · subst hkm
      simp [hkn]
    · simp [hkn, hkm, Equiv.swap_apply_of_ne_of_ne]

/-- A byte below the last, taken with its mask: no bit of the sign is left. -/
theorem bit_masked (hk : k < 3) : ∀ j < 32,
    bit ((x &&& 0xFF <<< Int32.ofNat (8 * k)) >>> Int32.ofNat (8 * k)) j =
      (decide (j < 8) && bit x (8 * k + j)) := by
  intro j hj
  rw [bit_shiftRight (by omega) hj, bit_and, bit_byteMask k (by omega) _ (by omega), Bool.and_comm]
  by_cases hj8 : j < 8
  · rw [Nat.min_eq_left (by omega), decide_eq_true (by omega), decide_eq_true hj8]
  · rw [decide_eq_false (by omega), decide_eq_false hj8, Bool.false_and, Bool.false_and]

theorem bit_switchByte_fst : ∀ k < 4, ∀ j < 32,
    bit (switchByte x (Int32.ofNat k)).1.toInt32 j = (decide (j < 8) && bit x (8 * k + j))
  | 0, _, j, hj => by
    have h : bit (x &&& 0xFF) j = _ := bit_and
    rw [bit_lowByte j hj, Bool.and_comm] at h
    rwa [Nat.mul_zero, Nat.zero_add]
  | 1, _, j, hj => bit_masked (k := 1) (by omega) j hj
  | 2, _, j, hj => bit_masked (k := 2) (by omega) j hj
  | 3, _, j, hj => by
    have h : bit ((x &&& 0xFF <<< Int32.ofNat (8 * 3)).toUInt32 >>> UInt32.ofNat 24).toInt32 j =
        bit (x &&& 0xFF <<< Int32.ofNat (8 * 3)) (24 + j) := bit_shiftRight_unsigned (by omega)
    rw [bit_and, Bool.and_comm] at h
    by_cases hj8 : j < 8
    · rw [bit_byteMask 3 (by omega) _ (by omega), decide_eq_true (by omega)] at h
      rw [decide_eq_true hj8]
      exact h
    · rw [bit_of_ge (x := x) (show 32 ≤ 24 + j by omega), Bool.and_false] at h
      rw [decide_eq_false hj8, Bool.false_and]
      exact h

theorem bit_switchByte_snd (hk : k < 4) {l : ℕ} (hl : l < 4) (hi : i < 8) :
    bit (switchByte x (Int32.ofNat k)).2 (8 * l + i) = (!decide (l = k) && bit x (8 * l + i)) := by
  have hsnd : ∀ k < 4, (switchByte x (Int32.ofNat k)).2 =
      x &&& ~~~(0xFF <<< Int32.ofNat (8 * k)) := by
    intro k hk
    match k, hk with
    | 0, _ => rfl
    | 1, _ => rfl
    | 2, _ => rfl
    | 3, _ => rfl
  rw [hsnd k hk, bit_and, bit_not (by omega), bit_byteMask k hk _ (by omega), Bool.and_comm]
  by_cases hlk : l = k
  · rw [decide_eq_true (by omega), decide_eq_true hlk]
  · rw [decide_eq_false (by omega), decide_eq_false hlk]

theorem bit_testByteSwap (hn : n < 4) (hm : m < 4) (hk : k < 4) (hi : i < 8) :
    bit (testByteSwap x (Int32.ofNat n) (Int32.ofNat m)) (8 * k + i) =
      bit x (8 * Equiv.swap n m k + i) := by
  have hdist : ∀ l < 4, (8 * Int32.ofNat l).toUInt32 = UInt32.ofNat (8 * l) := by decide
  have hlow (y : Int32) (l : ℕ) (hl : l < 4) : ∀ j < 32, 8 ≤ j →
      bit (switchByte y (Int32.ofNat l)).1.toInt32 j = false := by
    intro j hj hj8
    rw [bit_switchByte_fst l hl j hj, decide_eq_false (by omega), Bool.false_and]
  unfold testByteSwap
  simp only [hdist n hn, hdist m hm, UInt32.toInt32_or,
    toInt32_shiftLeft (show 8 * n < 32 by omega), toInt32_shiftLeft (show 8 * m < 32 by omega),
    Int32.toInt32_toUInt32]
  rw [bit_or, bit_or, bit_placed hm hk hi (hlow x n hn), bit_placed hn hk hi (hlow _ m hm),
    bit_switchByte_snd hm hk hi, bit_switchByte_snd hn hk hi, bit_switchByte_fst n hn i (by omega),
    bit_switchByte_fst m hm i (by omega), bit_switchByte_snd hn hm hi]
  simp only [hi, decide_true, Bool.true_and]
  by_cases hkn : k = n
  · subst hkn
    rw [Equiv.swap_apply_left]
    by_cases hkm : k = m
    · simp [hkm]
    · simp [hkm, Ne.symm hkm]
  · by_cases hkm : k = m
    · subst hkm
      simp [hkn]
    · simp [hkn, hkm, Equiv.swap_apply_of_ne_of_ne]

theorem byteSwap_eq (hn : n < 4) (hm : m < 4) :
    byteSwap x (Int32.ofNat n) (Int32.ofNat m) =
      testByteSwap x (Int32.ofNat n) (Int32.ofNat m) := by
  apply ext_byte
  intro k hk i hi
  rw [bit_byteSwap hn hm hk hi, bit_testByteSwap hn hm hk hi]

theorem byteSwap_byteSwap (hn : n < 4) (hm : m < 4) :
    byteSwap (byteSwap x (Int32.ofNat n) (Int32.ofNat m)) (Int32.ofNat n) (Int32.ofNat m) = x := by
  apply ext_byte
  intro k hk i hi
  have hswap : Equiv.swap n m k < 4 := by
    rw [Equiv.swap_apply_def]
    split_ifs
    · exact hm
    · exact hn
    · exact hk
  rw [bit_byteSwap hn hm hk hi, bit_byteSwap hn hm hswap hi, Equiv.swap_apply_self]

end Bytes

theorem small_argument {n b : Int32} (h0 : 0 ≤ n) (hb : n ≤ b) :
    n.toNatClampNeg ≤ b.toNatClampNeg ∧ Int32.ofNat n.toNatClampNeg = n ∧
      n.toInt = n.toNatClampNeg := by
  have hle := Int32.le_iff_toInt_le.mp hb
  have hnonneg : 0 ≤ n.toInt := Int32.le_iff_toInt_le.mp h0
  refine ⟨?_, Int32.ofNat_toNatClampNeg n h0, (Int.toNat_of_nonneg hnonneg).symm⟩
  unfold Int32.toNatClampNeg
  omega

section Odd
variable {x : Int32}

theorem bit_oddMask : ∀ i < 32, bit 0xAAAAAAAA i = decide (i % 2 = 1) := by
  decide

theorem allOddBits_eq (x : Int32) :
    allOddBits x = if ∀ i < 32, i % 2 = 1 → bit x i = true then 1 else 0 := by
  have hmask : allOddBits x = logicalNot ((x &&& 0xAAAAAAAA) ^^^ 0xAAAAAAAA) := rfl
  have hbit : ∀ i < 32, bit ((x &&& 0xAAAAAAAA) ^^^ 0xAAAAAAAA) i =
      (decide (i % 2 = 1) && !bit x i) := by
    intro i hi
    rw [bit_xor, bit_and, bit_oddMask i hi]
    cases bit x i <;> simp
  have hodd : (x &&& 0xAAAAAAAA) ^^^ 0xAAAAAAAA = 0 ↔ ∀ i < 32, i % 2 = 1 → bit x i = true := by
    rw [eq_zero_iff_bit]
    refine forall_congr' fun i => forall_congr' fun hi => ?_
    rw [hbit i hi]
    simp
  rw [hmask, logicalNot]
  exact if_congr hodd rfl rfl

theorem testAllOddBitsLoop_eq (x : Int32) (i : ℕ) (hi : i % 2 = 1) : testAllOddBitsLoop x i =
    if ∀ j < 32, j % 2 = 1 → i ≤ j → bit x j = true then 1 else 0 := by
  fun_induction testAllOddBitsLoop x i with
  | case1 i hlt hzero =>
    rw [and_one_shift_eq_zero hlt] at hzero
    rw [if_neg]
    intro h
    have hset := h i hlt hi (Nat.le_refl i)
    rw [hzero] at hset
    contradiction
  | case2 i hlt hne ih =>
    rw [and_one_shift_eq_zero hlt, Bool.not_eq_false] at hne
    rw [ih (by omega)]
    refine if_congr ⟨fun h j hj hodd hij => ?_, fun h j hj hodd hij => ?_⟩ rfl rfl
    · obtain rfl | hlt := Nat.eq_or_lt_of_le hij
      · exact hne
      · exact h j hj hodd (by omega)
    · exact h j hj hodd (by omega)
  | case3 i hge =>
    rw [if_pos]
    intro j hj _ hij
    omega

theorem testAllOddBits_eq (x : Int32) : testAllOddBits x = allOddBits x := by
  rw [testAllOddBits, testAllOddBitsLoop_eq x 1 rfl, allOddBits_eq]
  refine if_congr ⟨fun h j hj hodd => ?_, fun h j hj hodd _ => ?_⟩ rfl rfl
  · exact h j hj hodd (by omega)
  · exact h j hj hodd

end Odd

section Mask
variable {high low : ℕ}

theorem bit_bitMask (hhigh : high < 32) (hlow : low < 32) : ∀ i < 32,
    bit (bitMask (Int32.ofNat high) (Int32.ofNat low)) i = decide (low ≤ i ∧ i ≤ high) := by
  intro i hi
  have hones : ∀ j < 32, bit (~~~0) j = true := by decide
  have hhighBits : bit ((~~~0 <<< Int32.ofNat high) <<< Int32.ofNat 1) i =
      decide (high < i) := by
    rw [bit_shiftLeft (by omega) hi, bit_shiftLeft hhigh (by omega), hones _ (by omega),
      Bool.and_true, ← Bool.decide_and]
    exact decide_eq_decide.mpr (by omega)
  have hlowBits : bit (~~~0 <<< Int32.ofNat low) i = decide (low ≤ i) := by
    rw [bit_shiftLeft hlow hi, hones _ (by omega), Bool.and_true]
  have hmask : bit (bitMask (Int32.ofNat high) (Int32.ofNat low)) i = _ := bit_and
  rw [bit_xor, hlowBits] at hmask
  rw [hmask]
  change ((bit ((~~~0 <<< Int32.ofNat high) <<< Int32.ofNat 1) i ^^ _) && _) = _
  rw [hhighBits]
  by_cases hlo : low ≤ i
  · by_cases hhi : i ≤ high
    · simp [hlo, hhi, Nat.not_lt.mpr hhi]
    · simp [hlo, hhi, Nat.lt_of_not_le hhi]
  · simp [hlo]

theorem bit_testBitMaskLoop {high i : ℤ} (hhigh : high < 32) (hi : 0 ≤ i) (result : Int32) :
    ∀ j < 32, bit (testBitMaskLoop high i result) j =
      (bit result j || decide (i ≤ (j : ℕ) ∧ (j : ℤ) ≤ high)) := by
  intro j hj
  fun_induction testBitMaskLoop high i result with
  | case1 i result hle ih =>
    obtain ⟨k, rfl⟩ := Int.eq_ofNat_of_zero_le hi
    rw [ih (by omega), Int32.ofInt_eq_ofNat, bit_or, bit_one_shift (by omega) hj, Bool.or_assoc,
      ← Bool.decide_or]
    congr 1
    exact decide_eq_decide.mpr (by omega)
  | case2 i result hgt =>
    rw [decide_eq_false (by omega), Bool.or_false]

end Mask

section Digits
variable {x : Int32}

theorem lowerLimit_sign (x : Int32) :
    0 ≤ (~~~(0x2F : Int32) + x).toInt ↔ 0x30 ≤ x.toInt ∨ x.toInt < 0x30 - 2 ^ 31 := by
  have hlo := Int32.le_toInt x
  have hhi := Int32.toInt_lt x
  rw [Int32.toInt_add, show (~~~(0x2F : Int32)).toInt = -0x30 from rfl, Int.bmod]
  omega

theorem upperLimit_sign (x : Int32) :
    0 ≤ ((0x3A : Int32) + ~~~x).toInt ↔ x.toInt ≤ 0x39 ∧ 0x3A - 2 ^ 31 ≤ x.toInt := by
  have hlo := Int32.le_toInt x
  have hhi := Int32.toInt_lt x
  rw [Int32.toInt_add, Int32.toInt_not, show (0x3A : Int32).toInt = 0x3A from rfl, Int.bmod,
    Int.bmod]
  omega

/-- Where one sum wraps, the other one is negative. -/
theorem isAsciiDigit_eq (x : Int32) : isAsciiDigit x = testIsAsciiDigit x := by
  have h : isAsciiDigit x = logicalNot
      ((~~~(0x2F : Int32) + x) >>> Int32.ofNat 31 ||| (0x3A + ~~~x) >>> Int32.ofNat 31) := rfl
  rw [h, logicalNot, testIsAsciiDigit]
  refine if_congr ?_ rfl rfl
  rw [or_eq_zero, shiftRight_31_eq_zero, shiftRight_31_eq_zero, lowerLimit_sign, upperLimit_sign,
    Int32.le_iff_toInt_le, Int32.le_iff_toInt_le, show (0x30 : Int32).toInt = 0x30 from rfl,
    show (0x39 : Int32).toInt = 0x39 from rfl]
  omega

end Digits

section References
variable {x n m high low : Int32}

theorem byteSwap_meets (hn : 0 ≤ n) (hn3 : n ≤ 3) (hm : 0 ≤ m) (hm3 : m ≤ 3) :
    byteSwap x n m = testByteSwap x n m ∧ byteSwap (byteSwap x n m) n m = x ∧
      ∀ k < 4, ∀ i < 8, bit (byteSwap x n m) (8 * k + i) =
        bit x (8 * Equiv.swap n.toNatClampNeg m.toNatClampNeg k + i) := by
  obtain ⟨hn4, hn', -⟩ := small_argument hn hn3
  obtain ⟨hm4, hm', -⟩ := small_argument hm hm3
  change _ ≤ 3 at hn4 hm4
  generalize n.toNatClampNeg = a at hn4 hn' ⊢
  generalize m.toNatClampNeg = b at hm4 hm' ⊢
  subst hn' hm'
  exact ⟨byteSwap_eq (by omega) (by omega), byteSwap_byteSwap (by omega) (by omega),
    fun k hk i hi => bit_byteSwap (by omega) (by omega) hk hi⟩

theorem allOddBits_meets (x : Int32) : allOddBits x = testAllOddBits x ∧
    (allOddBits x = 1 ↔ ∀ i < 32, i % 2 = 1 → bit x i = true) := by
  refine ⟨(testAllOddBits_eq x).symm, ?_⟩
  rw [allOddBits_eq]
  split_ifs with h
  · exact iff_of_true rfl h
  · exact iff_of_false (by decide) h

theorem isAsciiDigit_meets (x : Int32) : isAsciiDigit x = testIsAsciiDigit x ∧
    (isAsciiDigit x = 1 ↔ 0x30 ≤ x ∧ x ≤ 0x39) := by
  refine ⟨isAsciiDigit_eq x, ?_⟩
  rw [isAsciiDigit_eq, testIsAsciiDigit]
  split_ifs with h
  · exact iff_of_true rfl h
  · exact iff_of_false (by decide) h

theorem bitMask_meets (hhigh : 0 ≤ high) (hhigh31 : high ≤ 31) (hlow : 0 ≤ low)
    (hlow31 : low ≤ 31) :
    bitMask high low = testBitMask high low ∧
      (∀ i < 32, bit (bitMask high low) i = decide (low.toInt ≤ (i : ℕ) ∧ (i : ℤ) ≤ high.toInt)) ∧
      (high < low → bitMask high low = 0) := by
  obtain ⟨hhigh32, hhigh', hhighInt⟩ := small_argument hhigh hhigh31
  obtain ⟨hlow32, hlow', hlowInt⟩ := small_argument hlow hlow31
  change _ ≤ 31 at hhigh32 hlow32
  have hbits : ∀ i < 32, bit (bitMask high low) i =
      decide (low.toInt ≤ (i : ℕ) ∧ (i : ℤ) ≤ high.toInt) := by
    intro i hi
    have hbit := bit_bitMask (show high.toNatClampNeg < 32 by omega)
      (show low.toNatClampNeg < 32 by omega) i hi
    rw [hhigh', hlow'] at hbit
    rw [hbit, hhighInt, hlowInt]
    exact decide_eq_decide.mpr (by omega)
  refine ⟨?_, hbits, ?_⟩
  · apply ext_bit
    intro i hi
    rw [hbits i hi, testBitMask, bit_testBitMaskLoop (by omega) (by omega) 0 i hi, bit_zero,
      Bool.false_or]
  · intro hlt
    have hlt' := Int32.lt_iff_toInt_lt.mp hlt
    rw [eq_zero_iff_bit]
    intro i hi
    rw [hbits i hi, decide_eq_false (by omega)]

end References

/-- The routines without branches compute what the functions of `tests.c` do, and what their
comments say, on every word. -/
theorem puzzles_meet_references :
    (∀ x n m : Int32, 0 ≤ n → n ≤ 3 → 0 ≤ m → m ≤ 3 →
      byteSwap x n m = testByteSwap x n m ∧ byteSwap (byteSwap x n m) n m = x ∧
        ∀ k < 4, ∀ i < 8, bit (byteSwap x n m) (8 * k + i) =
          bit x (8 * Equiv.swap n.toNatClampNeg m.toNatClampNeg k + i)) ∧
    (∀ x, allOddBits x = testAllOddBits x ∧
      (allOddBits x = 1 ↔ ∀ i < 32, i % 2 = 1 → bit x i = true)) ∧
    (∀ x, isAsciiDigit x = testIsAsciiDigit x ∧
      (isAsciiDigit x = 1 ↔ 0x30 ≤ x ∧ x ≤ 0x39)) ∧
    ∀ high low : Int32, 0 ≤ high → high ≤ 31 → 0 ≤ low → low ≤ 31 →
      bitMask high low = testBitMask high low ∧
        (∀ i < 32, bit (bitMask high low) i =
          decide (low.toInt ≤ (i : ℕ) ∧ (i : ℤ) ≤ high.toInt)) ∧
        (high < low → bitMask high low = 0) :=
  ⟨fun _ _ _ => byteSwap_meets, allOddBits_meets, isAsciiDigit_meets, fun _ _ => bitMask_meets⟩

end Orga.Bits
