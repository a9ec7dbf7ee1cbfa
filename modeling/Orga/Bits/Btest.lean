import Mathlib.Data.Fin.VecNotation
import Orga.Bits.Floats
import Orga.Bits.Puzzles

/-! The harness `btest.c` over the table of `decl.c`: the values it generates for each argument, the
loops that stop at the first error, and the table of points. Random values and the roots of the
library are whatever they are. -/
namespace Orga.Bits

def TEST_RANGE : ℕ := 500000
def MAX_TEST_VALS : ℕ := 13 * TEST_RANGE

/-- The two functions of a record, cast to the number of their arguments. -/
inductive Functs where
  | zero (solution test : Int32)
  | one (solution test : Int32 → Int32)
  | two (solution test : Int32 → Int32 → Int32)
  | three (solution test : Int32 → Int32 → Int32 → Int32)

def Functs.args : Functs → ℕ
  | .zero .. => 0
  | .one .. => 1
  | .two .. => 2
  | .three .. => 3

structure TestRec where
  name : String
  functs : Functs
  rating : ℕ
  argRanges : Fin 3 → Int32 × Int32

/-- The options of the command line; `arg` are those of `-1`, `-2` and `-3`. -/
structure Options where
  grade : Bool
  testFname : Option String
  globalRating : ℕ
  arg : Fin 3 → Option UInt32

/-- The roots of `TEST_RANGE`, and the random values for the arguments of each record. -/
structure Library where
  squareRoot : ℕ
  cubeRoot : ℕ
  randomVal : ℕ → Fin 3 → ℕ → Int32

structure Failure where
  args : List Int32
  r : Int32
  rt : Int32
  deriving DecidableEq

def floatVals (testRange : ℕ) : List UInt32 :=
  let smallestNorm : UInt32 := 0x00800000
  let one : UInt32 := 0x3f800000
  let largestNorm : UInt32 := 0x7f000000
  let inf : UInt32 := 0x7f800000
  let nan : UInt32 := 0x7fc00000
  let sign : UInt32 := 0x80000000
  let testRange := if 1 <<< 23 < testRange then 1 <<< 23 else testRange
  (List.range testRange).flatMap (fun n =>
    let i := UInt32.ofNat n
    [i, sign ||| i,
      smallestNorm + i, smallestNorm - i, sign ||| (smallestNorm + i), sign ||| (smallestNorm - i),
      one + i, one - i, sign ||| (one + i), sign ||| (one - i),
      largestNorm - i, sign ||| (largestNorm - i)]) ++
    [inf, sign ||| inf, nan, sign ||| nan]

/-- The values from `min` to `max`, which is not the largest integer. -/
def exhaustiveVals (min max : Int32) : List Int32 :=
  (List.range (max.toInt - min.toInt + 1).toNat).map fun n => min + Int32.ofNat n

def sampledVals (randomVal : ℕ → Int32) (min max : Int32) (testRange : ℕ) : List Int32 :=
  (List.range testRange).flatMap fun n =>
    let i := Int32.ofNat n
    [min + i, max - i] ++ (if i ≥ min ∧ i ≤ max then [i] else []) ++
      (if -i ≥ min ∧ -i ≤ max then [-i] else []) ++ [randomVal n]

def genVals (arg : Option UInt32) (randomVal : ℕ → Int32) (min max : Int32) (testRange : ℕ) :
    List Int32 :=
  match arg with
  | some argval => [argval.toInt32]
  | none =>
    if min = 1 ∧ max = 1 then (floatVals testRange).map UInt32.toInt32
    else if max - Int32.ofNat MAX_TEST_VALS ≤ min then exhaustiveVals min max
    else sampledVals randomVal min max testRange

def test0Arg (f ft : Int32) : Option Failure :=
  if f ≠ ft then some ⟨[], f, ft⟩ else none

def test1Arg (f ft : Int32 → Int32) (arg1 : Int32) : Option Failure :=
  if f arg1 ≠ ft arg1 then some ⟨[arg1], f arg1, ft arg1⟩ else none

def test2Arg (f ft : Int32 → Int32 → Int32) (arg1 arg2 : Int32) : Option Failure :=
  if f arg1 arg2 ≠ ft arg1 arg2 then some ⟨[arg1, arg2], f arg1 arg2, ft arg1 arg2⟩ else none

def test3Arg (f ft : Int32 → Int32 → Int32 → Int32) (arg1 arg2 arg3 : Int32) : Option Failure :=
  if f arg1 arg2 arg3 ≠ ft arg1 arg2 arg3 then
    some ⟨[arg1, arg2, arg3], f arg1 arg2 arg3, ft arg1 arg2 arg3⟩
  else none

/-- The range of each argument, so that the number of tests does not depend on that of arguments. -/
def argTestRange (lib : Library) : Functs → ℕ
  | .one .. => max 1 TEST_RANGE
  | .two .. => max 1 lib.squareRoot
  | .zero .. | .three .. => max 1 lib.cubeRoot

def argTestVals (lib : Library) (o : Options) (index : ℕ) (t : TestRec) (i : Fin 3) : List Int32 :=
  genVals (o.arg i) (lib.randomVal index i) (t.argRanges i).1 (t.argRanges i).2
    (argTestRange lib t.functs)

/-- The loops of `test_function` over arrays of values; they end at the first error. -/
def Functs.firstFailure (vals : Fin 3 → List Int32) : Functs → Option Failure
  | .zero f ft => test0Arg f ft
  | .one f ft => (vals 0).findSome? fun a1 => test1Arg f ft a1
  | .two f ft => (vals 0).findSome? fun a1 => (vals 1).findSome? fun a2 => test2Arg f ft a1 a2
  | .three f ft => (vals 0).findSome? fun a1 => (vals 1).findSome? fun a2 =>
      (vals 2).findSome? fun a3 => test3Arg f ft a1 a2 a3

/-- The failure that stops the test of a record; the number of errors is one or zero. -/
def testFunction (lib : Library) (o : Options) (index : ℕ) (t : TestRec) : Option Failure :=
  t.functs.firstFailure (argTestVals lib o index t)

structure Row where
  points : ℕ
  rating : ℕ
  errors : ℕ
  name : String
  deriving DecidableEq

structure Results where
  failures : List (String × Failure)
  rows : List Row
  points : ℕ
  maxPoints : ℕ
  errors : ℕ

/-- The option `-f` tests one function only. -/
def Options.Tests (o : Options) (t : TestRec) : Prop :=
  o.testFname = none ∨ o.testFname = some t.name

instance (o : Options) (t : TestRec) : Decidable (o.Tests t) :=
  inferInstanceAs (Decidable (_ ∨ _))

/-- The option `-r` gives all puzzles one weight. -/
def Options.rating (o : Options) (t : TestRec) : ℕ :=
  if o.globalRating ≠ 0 then o.globalRating else t.rating

/-- The body of the loop of `run_tests`. -/
def runTest (lib : Library) (o : Options) (index : ℕ) (t : TestRec) (s : Results) : Results :=
  if o.Tests t then
    let failure := testFunction lib o index t
    let terrors := if failure = none then 0 else 1
    let tpoints := if terrors = 0 then o.rating t else 0
    { failures := s.failures ++ if o.grade then [] else (failure.map (Prod.mk t.name)).toList
      rows := s.rows ++
        if o.grade ∨ terrors < 1 then [⟨tpoints, o.rating t, terrors, t.name⟩] else []
      points := s.points + tpoints
      maxPoints := s.maxPoints + o.rating t
      errors := s.errors + terrors }
  else s

def runTestsFrom (lib : Library) (o : Options) : ℕ → List TestRec → Results → Results
  | _, [], s => s
  | index, t :: rest, s => runTestsFrom lib o (index + 1) rest (runTest lib o index t s)

def runTests (lib : Library) (o : Options) (testSet : List TestRec) : Results :=
  runTestsFrom lib o 0 testSet ⟨[], [], 0, 0, 0⟩

section Table

def TMin : Int32 := Int32.minValue
def TMax : Int32 := Int32.maxValue

def wholeRange : Fin 3 → Int32 × Int32 := fun _ => (TMin, TMax)

/-- The ranges that mark a puzzle on floats. -/
def floatRange : Fin 3 → Int32 × Int32 := fun _ => (1, 1)

def byteSwapRec : TestRec :=
  ⟨"byteSwap", .three byteSwap testByteSwap, 2, ![(TMin, TMax), (0, 3), (0, 3)]⟩

def floatPower2Rec : TestRec :=
  ⟨"floatPower2", .one (fun x => (floatPower2 x).toInt32) (fun x => (testFloatPower2 x).toInt32), 4,
    floatRange⟩

def testSet : List TestRec := [
  ⟨"bitAnd", .two bitAnd testBitAnd, 1, wholeRange⟩,
  ⟨"bitXor", .two bitXor testBitXor, 1, wholeRange⟩,
  ⟨"negate", .one negate testNegate, 2, wholeRange⟩,
  byteSwapRec,
  ⟨"allOddBits", .one allOddBits testAllOddBits, 2, wholeRange⟩,
  ⟨"bitMask", .two bitMask testBitMask, 3, ![(0, 31), (0, 31), (TMin, TMax)]⟩,
  ⟨"conditional", .three conditional testConditional, 3, wholeRange⟩,
  ⟨"isAsciiDigit", .one isAsciiDigit testIsAsciiDigit, 3, wholeRange⟩,
  ⟨"isNonZero", .one isNonZero testIsNonZero, 4, wholeRange⟩,
  ⟨"logicalNeg", .one logicalNeg testLogicalNeg, 4, wholeRange⟩,
  ⟨"floatNegate", .one (fun uf => (floatNegate uf.toUInt32).toInt32)
    (fun uf => (testFloatNegate uf.toUInt32).toInt32), 2, floatRange⟩,
  ⟨"floatAbsVal", .one (fun uf => (floatAbsVal uf.toUInt32).toInt32)
    (fun uf => (testFloatAbsVal uf.toUInt32).toInt32), 2, floatRange⟩,
  floatPower2Rec]

end Table

section Verdicts

def Functs.Agree (D : Fin 3 → Int32 → Prop) : Functs → Prop
  | .zero f ft => f = ft
  | .one f ft => ∀ a, D 0 a → f a = ft a
  | .two f ft => ∀ a, D 0 a → ∀ b, D 1 b → f a b = ft a b
  | .three f ft => ∀ a, D 0 a → ∀ b, D 1 b → ∀ c, D 2 c → f a b c = ft a b c

def Functs.Shows (D : Fin 3 → Int32 → Prop) (failure : Failure) : Functs → Prop
  | .zero f ft => failure = ⟨[], f, ft⟩ ∧ f ≠ ft
  | .one f ft => ∃ a, D 0 a ∧ failure = ⟨[a], f a, ft a⟩ ∧ f a ≠ ft a
  | .two f ft => ∃ a, D 0 a ∧ ∃ b, D 1 b ∧ failure = ⟨[a, b], f a b, ft a b⟩ ∧ f a b ≠ ft a b
  | .three f ft => ∃ a, D 0 a ∧ ∃ b, D 1 b ∧ ∃ c, D 2 c ∧
      failure = ⟨[a, b, c], f a b c, ft a b c⟩ ∧ f a b c ≠ ft a b c

section Domains
variable {D D' : Fin 3 → Int32 → Prop} {fs : Functs}

theorem Functs.Agree.mono (h : ∀ i : Fin 3, i < fs.args → ∀ a, D' i a → D i a)
    (hagree : fs.Agree D) : fs.Agree D' := by
  cases fs with
  | zero f ft => exact hagree
  | one f ft =>
    have h0 := h 0 (show 0 < 1 by decide)
    exact fun a ha => hagree a (h0 a ha)
  | two f ft =>
    have h0 := h 0 (show 0 < 2 by decide)
    have h1 := h 1 (show 1 < 2 by decide)
    exact fun a ha b hb => hagree a (h0 a ha) b (h1 b hb)
  | three f ft =>
    have h0 := h 0 (show 0 < 3 by decide)
    have h1 := h 1 (show 1 < 3 by decide)
    have h2 := h 2 (show 2 < 3 by decide)
    exact fun a ha b hb c hc => hagree a (h0 a ha) b (h1 b hb) c (h2 c hc)

theorem Functs.Shows.mono (h : ∀ i : Fin 3, i < fs.args → ∀ a, D i a → D' i a)
    {failure : Failure} (hshows : fs.Shows D failure) : fs.Shows D' failure := by
  cases fs with
  | zero f ft => exact hshows
  | one f ft =>
    obtain ⟨a, ha, hshows⟩ := hshows
    exact ⟨a, h 0 (show 0 < 1 by decide) a ha, hshows⟩
  | two f ft =>
    obtain ⟨a, ha, b, hb, hshows⟩ := hshows
    exact ⟨a, h 0 (show 0 < 2 by decide) a ha, b, h 1 (show 1 < 2 by decide) b hb, hshows⟩
  | three f ft =>
    obtain ⟨a, ha, b, hb, c, hc, hshows⟩ := hshows
    exact ⟨a, h 0 (show 0 < 3 by decide) a ha, b, h 1 (show 1 < 3 by decide) b hb,
      c, h 2 (show 2 < 3 by decide) c hc, hshows⟩

end Domains

theorem firstFailure_none_iff (vals : Fin 3 → List Int32) (fs : Functs) :
    fs.firstFailure vals = none ↔ fs.Agree (fun i a => a ∈ vals i) := by
  cases fs <;>
    simp only [Functs.firstFailure, Functs.Agree, List.findSome?_eq_none_iff, test0Arg, test1Arg,
      test2Arg, test3Arg, ite_eq_right_iff, reduceCtorEq, imp_false, not_not, ne_eq]

end Verdicts

end Orga.Bits
