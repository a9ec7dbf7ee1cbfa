import Orga.Bits.BranchFree

/-! The other puzzles of `bits.c` on integers, and the functions of `tests.c` they are compared
with. -/
namespace Orga.Bits
open Orga.Words

def bitAnd (x y : Int32) : Int32 :=
  let result := ~~~x ||| ~~~y
  ~~~result

def bitXor (x y : Int32) : Int32 :=
  let operation1 := ~~~(x &&& y)
  let operation2 := ~~~(~~~x &&& ~~~y)
  operation1 &&& operation2

def negate (x : Int32) : Int32 :=
  let result := ~~~x + 1
  result

def conditional (x y z : Int32) : Int32 :=
  let x := logicalNot (logicalNot x)
  let x := ~~~x + 1
  (x &&& y) ||| (~~~x &&& z)

def isNonZero (x : Int32) : Int32 :=
  let notX := ~~~x + 1
  ((x ||| notX) >>> 31) &&& 1

def logicalNeg (x : Int32) : Int32 :=
  let notX := ~~~x + 1
  let mask : Int32 := ~~~0
  (((x ||| notX) >>> 31) ^^^ mask) &&& 1

def testBitAnd (x y : Int32) : Int32 := x &&& y
def testBitXor (x y : Int32) : Int32 := x ^^^ y
def testNegate (x : Int32) : Int32 := -x
def testConditional (x y z : Int32) : Int32 := if x ≠ 0 then y else z
def testIsNonZero (x : Int32) : Int32 := if x ≠ 0 then 1 else 0
def testLogicalNeg (x : Int32) : Int32 := logicalNot x

section Integers
variable (x y z : Int32)

theorem bitAnd_eq : bitAnd x y = testBitAnd x y := by
  apply ext_bit
  intro i hi
  unfold bitAnd testBitAnd
  rw [bit_not hi, bit_or, bit_not hi, bit_not hi, bit_and]
  cases bit x i <;> cases bit y i <;> rfl

theorem bitXor_eq : bitXor x y = testBitXor x y := by
  apply ext_bit
  intro i hi
  unfold bitXor testBitXor
  rw [bit_and, bit_not hi, bit_not hi, bit_and, bit_and, bit_not hi, bit_not hi, bit_xor]
  cases bit x i <;> cases bit y i <;> rfl

theorem not_add_one : ~~~x + 1 = -x := by
  apply Int32.toBitVec_inj.mp
  exact (BitVec.neg_eq_not_add x.toBitVec).symm

theorem negate_eq : negate x = testNegate x := not_add_one x

theorem logicalNot_logicalNot : logicalNot (logicalNot x) = if x = 0 then 0 else 1 := by
  unfold logicalNot
  by_cases hx : x = 0
  · rw [if_pos hx, if_pos hx]
    rfl
  · rw [if_neg hx, if_neg hx]
    rfl

theorem conditional_eq : conditional x y z = testConditional x y z := by
  unfold conditional testConditional
  simp only [not_add_one, logicalNot_logicalNot]
  apply ext_bit
  intro i hi
  rw [bit_or, bit_and, bit_and, bit_not hi]
  by_cases hx : x = 0
  · rw [if_pos hx, if_neg (not_not.mpr hx), show bit (-0) i = false from bit_zero i]
    simp
  · have hones : ∀ j < 32, bit (-1) j = true := by decide
    rw [if_neg hx, if_pos hx, hones i hi]
    simp

theorem bit_31 : bit x 31 = decide (x.toInt < 0) :=
  (BitVec.msb_eq_getLsbD_last x.toBitVec).symm.trans BitVec.msb_eq_toInt

theorem bit_or_neg : bit (x ||| -x) 31 = decide (x ≠ 0) := by
  have hlo := Int32.le_toInt x
  have hhi := Int32.toInt_lt x
  have hzero : x = 0 ↔ x.toInt = 0 := Int32.toInt_inj.symm
  rw [bit_or, bit_31, bit_31, ← Bool.decide_or, Int32.toInt_neg, Int.bmod]
  refine decide_eq_decide.mpr ?_
  rw [ne_eq, hzero]
  omega

theorem bit_shiftRight_31 {i : ℕ} (hi : i < 32) :
    bit ((x ||| -x) >>> Int32.ofNat 31) i = decide (x ≠ 0) := by
  rw [bit_shiftRight (by omega) hi, Nat.min_eq_right (by omega), bit_or_neg]

theorem isNonZero_eq : isNonZero x = testIsNonZero x := by
  have h : isNonZero x = ((x ||| (~~~x + 1)) >>> Int32.ofNat 31) &&& 1 := rfl
  rw [h, not_add_one]
  apply ext_bit
  intro i hi
  rw [bit_and, bit_shiftRight_31 x hi, testIsNonZero]
  by_cases hx : x = 0 <;> simp [hx]

theorem logicalNeg_eq : logicalNeg x = testLogicalNeg x := by
  have h : logicalNeg x = (((x ||| (~~~x + 1)) >>> Int32.ofNat 31) ^^^ ~~~0) &&& 1 := rfl
  rw [h, not_add_one]
  apply ext_bit
  intro i hi
  rw [bit_and, bit_xor, bit_shiftRight_31 x hi, bit_not hi, bit_zero, testLogicalNeg, logicalNot]
  by_cases hx : x = 0 <;> simp [hx]

end Integers

end Orga.Bits
