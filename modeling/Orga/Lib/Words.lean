import Mathlib.Data.Nat.Notation

/-! The bits and bytes of signed 32-bit words: a word operation is determined by what it does
to each bit, and a shift only moves the index. -/
namespace Orga.Words

/-- Bit `i` of a word, from the least significant. -/
def bit (x : Int32) (i : ℕ) : Bool := x.toBitVec.getLsbD i

section Bits
variable {x y : Int32} {i k : ℕ}

theorem bit_of_ge (h : 32 ≤ i) : bit x i = false := BitVec.getLsbD_of_ge _ _ h

theorem ext_bit (h : ∀ i < 32, bit x i = bit y i) : x = y :=
  Int32.toBitVec_inj.mp (BitVec.eq_of_getLsbD_eq h)

@[simp] theorem bit_zero (i : ℕ) : bit 0 i = false := BitVec.getLsbD_zero

theorem eq_zero_iff_bit : x = 0 ↔ ∀ i < 32, bit x i = false := by
  constructor
  · rintro rfl i -
    exact bit_zero i
  · intro h
    apply ext_bit
    intro i hi
    rw [h i hi, bit_zero]

@[simp] theorem bit_and : bit (x &&& y) i = (bit x i && bit y i) := BitVec.getLsbD_and

@[simp] theorem bit_or : bit (x ||| y) i = (bit x i || bit y i) := BitVec.getLsbD_or

@[simp] theorem bit_xor : bit (x ^^^ y) i = (bit x i ^^ bit y i) := BitVec.getLsbD_xor

theorem bit_not (hi : i < 32) : bit (~~~x) i = !bit x i := by
  have h : bit (~~~x) i = (decide (i < 32) && !bit x i) := BitVec.getLsbD_not
  rw [h, decide_eq_true hi, Bool.true_and]

theorem shift_distance : ∀ k < 32, ((Int32.ofNat k).toBitVec.smod 32).toNat = k := by
  decide

theorem bit_shiftLeft (hk : k < 32) (hi : i < 32) :
    bit (x <<< Int32.ofNat k) i = (decide (k ≤ i) && bit x (i - k)) := by
  rw [bit, Int32.toBitVec_shiftLeft, BitVec.getLsbD_shiftLeft', shift_distance k hk,
    decide_eq_true hi, Bool.true_and]
  simp only [bit, ← Nat.not_lt, decide_not]

theorem bit_one_shift (hk : k < 32) (hi : i < 32) :
    bit (1 <<< Int32.ofNat k) i = decide (i = k) := by
  have hone : ∀ j < 32, bit 1 j = decide (j = 0) := by decide
  rw [bit_shiftLeft hk hi, hone _ (by omega), ← Bool.decide_and]
  exact decide_eq_decide.mpr (by omega)

theorem and_one_shift_eq_zero (hk : k < 32) : x &&& 1 <<< Int32.ofNat k = 0 ↔ bit x k = false := by
  rw [eq_zero_iff_bit]
  constructor
  · intro h
    have hbit := h k hk
    rwa [bit_and, bit_one_shift hk hk, decide_eq_true rfl, Bool.and_true] at hbit
  · intro h i hi
    rw [bit_and, bit_one_shift hk hi]
    by_cases hik : i = k
    · rw [hik, h, Bool.false_and]
    · rw [decide_eq_false hik, Bool.and_false]

theorem bit_shiftRight (hk : k < 32) (hi : i < 32) :
    bit (x >>> Int32.ofNat k) i = bit x (min (k + i) 31) := by
  rw [bit, Int32.toBitVec_shiftRight, BitVec.sshiftRight', shift_distance k hk,
    BitVec.getLsbD_sshiftRight, decide_eq_false (by omega), Bool.not_false, Bool.true_and]
  by_cases hin : k + i < 32
  · rw [if_pos hin, Nat.min_eq_left (by omega), bit]
  · rw [if_neg hin, Nat.min_eq_right (by omega), bit, BitVec.msb_eq_getLsbD_last]

theorem or_eq_zero : x ||| y = 0 ↔ x = 0 ∧ y = 0 := by
  simp only [eq_zero_iff_bit, bit_or, Bool.or_eq_false_iff, forall_and]

theorem shiftRight_31_eq_zero : x >>> Int32.ofNat 31 = 0 ↔ 0 ≤ x.toInt := by
  have hsign : bit x 31 = decide (x.toInt < 0) :=
    (BitVec.msb_eq_getLsbD_last x.toBitVec).symm.trans BitVec.msb_eq_toInt
  have hall : ∀ i < 32, bit (x >>> Int32.ofNat 31) i = bit x 31 := by
    intro i hi
    rw [bit_shiftRight (by omega) hi, Nat.min_eq_right (by omega)]
  rw [eq_zero_iff_bit]
  constructor
  · intro h
    have hbit := h 0 (by omega)
    rw [hall 0 (by omega), hsign] at hbit
    exact Int.not_lt.mp (of_decide_eq_false hbit)
  · intro h i hi
    rw [hall i hi, hsign, decide_eq_false (by omega)]

theorem unsigned_distance : ∀ k < 32, ((UInt32.ofNat k).toBitVec % 32).toNat = k := by
  decide

/-- The sign makes no difference to a shift to the left. -/
theorem toInt32_shiftLeft {u : UInt32} (hk : k < 32) :
    (u <<< UInt32.ofNat k).toInt32 = u.toInt32 <<< Int32.ofNat k := by
  apply Int32.toBitVec_inj.mp
  rw [Int32.toBitVec_shiftLeft, UInt32.toBitVec_toInt32, UInt32.toBitVec_toInt32,
    UInt32.toBitVec_shiftLeft, BitVec.shiftLeft_eq', BitVec.shiftLeft_eq', unsigned_distance k hk,
    shift_distance k hk]

theorem bit_shiftRight_unsigned {u : UInt32} (hk : k < 32) :
    bit (u >>> UInt32.ofNat k).toInt32 i = bit u.toInt32 (k + i) := by
  rw [bit, bit, UInt32.toBitVec_toInt32, UInt32.toBitVec_toInt32, UInt32.toBitVec_shiftRight,
    BitVec.ushiftRight_eq', unsigned_distance k hk, BitVec.getLsbD_ushiftRight]

end Bits

section Bytes
variable {x : Int32} {n m k i : ℕ}

theorem ext_byte {y : Int32} (h : ∀ k < 4, ∀ i < 8, bit x (8 * k + i) = bit y (8 * k + i)) :
    x = y := by
  apply ext_bit
  intro j hj
  have hbyte := h (j / 8) (by omega) (j % 8) (by omega)
  rwa [Nat.div_add_mod] at hbyte

theorem bit_lowByte : ∀ j < 32, bit 0xFF j = decide (j < 8) := by
  decide

theorem bit_byteMask : ∀ k < 4, ∀ j < 32,
    bit (0xFF <<< Int32.ofNat (8 * k)) j = decide (8 * k ≤ j ∧ j < 8 * k + 8) := by
  decide

theorem bit_placed (hm : m < 4) (hk : k < 4) (hi : i < 8)
    (hx : ∀ j < 32, 8 ≤ j → bit x j = false) :
    bit (x <<< Int32.ofNat (8 * m)) (8 * k + i) = (decide (k = m) && bit x i) := by
  rw [bit_shiftLeft (by omega) (by omega)]
  rcases Nat.lt_trichotomy k m with hlt | rfl | hgt
  · rw [decide_eq_false (by omega), decide_eq_false (by omega), Bool.false_and, Bool.false_and]
  · rw [decide_eq_true (by omega), decide_eq_true rfl, Nat.add_sub_cancel_left]
  · rw [hx _ (by omega) (by omega), Bool.and_false, decide_eq_false (by omega), Bool.false_and]

theorem bit_taken (hn : n < 4) : ∀ j < 32, bit ((x >>> Int32.ofNat (8 * n)) &&& 0xFF) j =
    (decide (j < 8) && bit x (8 * n + j)) := by
  intro j hj
  rw [bit_and, bit_shiftRight (by omega) hj, bit_lowByte j hj, Bool.and_comm]
  by_cases hj8 : j < 8
  · rw [Nat.min_eq_left (by omega)]
  · simp [hj8]

end Bytes

end Orga.Words
