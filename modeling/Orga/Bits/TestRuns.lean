import Orga.Bits.TestVals

/-! The runs of `run_tests`: the points of any table, and the run on the table of `decl.c`. -/
namespace Orga.Bits
open Orga.Ieee754

section Runs
variable (lib : Library) (o : Options)

def failing : ℕ → List TestRec → List (TestRec × Failure)
  | _, [] => []
  | index, t :: rest =>
    (if o.Tests t then (testFunction lib o index t).toList.map (Prod.mk t) else []) ++
      failing (index + 1) rest

def worth (testSet : List TestRec) : ℕ :=
  ((testSet.filter (o.Tests ·)).map o.rating).sum

section Step
variable {lib o} {index : ℕ} {t : TestRec} (htests : o.Tests t) (s : Results)
include htests

theorem runTest_none (h : testFunction lib o index t = none) :
    (runTest lib o index t s).errors = s.errors ∧
    (runTest lib o index t s).failures = s.failures ∧
    (runTest lib o index t s).maxPoints = s.maxPoints + o.rating t ∧
    (runTest lib o index t s).points = s.points + o.rating t := by
  rw [runTest, if_pos htests, h]
  refine ⟨rfl, ?_, rfl, rfl⟩
  cases o.grade <;> exact List.append_nil _

theorem runTest_some {failure : Failure} (h : testFunction lib o index t = some failure) :
    (runTest lib o index t s).errors = s.errors + 1 ∧
    (runTest lib o index t s).failures =
      s.failures ++ (if o.grade then [] else [(t.name, failure)]) ∧
    (runTest lib o index t s).maxPoints = s.maxPoints + o.rating t ∧
    (runTest lib o index t s).points = s.points := by
  rw [runTest, if_pos htests, h]
  exact ⟨rfl, rfl, rfl, rfl⟩

end Step

theorem runTestsFrom_counts (testSet : List TestRec) (index : ℕ) (s : Results) :
    (runTestsFrom lib o index testSet s).errors =
      s.errors + (failing lib o index testSet).length ∧
    (runTestsFrom lib o index testSet s).failures = s.failures ++
      (if o.grade then [] else (failing lib o index testSet).map fun f => (f.1.name, f.2)) ∧
    (runTestsFrom lib o index testSet s).maxPoints = s.maxPoints + worth o testSet ∧
    (runTestsFrom lib o index testSet s).points +
        ((failing lib o index testSet).map fun f => o.rating f.1).sum =
      s.points + worth o testSet := by
  induction testSet generalizing index s with
  | nil => simp [runTestsFrom, failing, worth]
  | cons t rest ih =>
    obtain ⟨herrors, hfailures, hmax, hpoints⟩ := ih (index + 1) (runTest lib o index t s)
    rw [runTestsFrom, herrors, hfailures, hmax]
    by_cases htests : o.Tests t
    · have hworth : worth o (t :: rest) = o.rating t + worth o rest := by
        simp [worth, htests]
      cases hfailure : testFunction lib o index t with
      | none =>
        have hfailing : failing lib o index (t :: rest) = failing lib o (index + 1) rest := by
          simp [failing, hfailure]
        obtain ⟨herrors', hfailures', hmax', hpoints'⟩ := runTest_none htests s hfailure
        rw [herrors', hfailures', hmax', hfailing, hworth]
        exact ⟨rfl, rfl, by omega, by omega⟩
      | some failure =>
        have hfailing : failing lib o index (t :: rest) =
            (t, failure) :: failing lib o (index + 1) rest := by
          simp [failing, hfailure, htests]
        obtain ⟨herrors', hfailures', hmax', hpoints'⟩ := runTest_some htests s hfailure
        rw [herrors', hfailures', hmax', hfailing, hworth, List.length_cons, List.map_cons,
          List.map_cons, List.sum_cons]
        dsimp only
        refine ⟨by omega, ?_, by omega, by omega⟩
        cases o.grade <;> simp
    · have hworth : worth o (t :: rest) = worth o rest := by
        simp [worth, htests]
      have hfailing : failing lib o index (t :: rest) = failing lib o (index + 1) rest := by
        simp [failing, htests]
      have hsame : runTest lib o index t s = s := if_neg htests
      rw [hsame] at hpoints ⊢
      rw [hworth, hfailing]
      exact ⟨rfl, rfl, rfl, hpoints⟩

theorem failing_eq_nil_iff (testSet : List TestRec) (index : ℕ) :
    failing lib o index testSet = [] ↔
      ∀ k t, testSet[k]? = some t → o.Tests t → testFunction lib o (index + k) t = none := by
  induction testSet generalizing index with
  | nil => simp [failing]
  | cons t rest ih =>
    rw [failing, List.append_eq_nil_iff, ih (index + 1)]
    constructor
    · rintro ⟨ht, hrest⟩ k t' hk htests
      cases k with
      | zero =>
        obtain rfl : t = t' := Option.some.inj hk
        rw [if_pos htests, List.map_eq_nil_iff, Option.toList_eq_nil_iff] at ht
        exact ht
      | succ k =>
        rw [show index + (k + 1) = index + 1 + k by omega]
        exact hrest k t' hk htests
    · intro h
      refine ⟨?_, fun k t' hk htests => ?_⟩
      · split_ifs with htests
        · rw [List.map_eq_nil_iff, Option.toList_eq_nil_iff]
          exact h 0 t rfl htests
        · rfl
      · rw [show index + 1 + k = index + (k + 1) by omega]
        exact h (k + 1) t' hk htests

theorem runTestsFrom_rows (testSet : List TestRec) (index : ℕ) (s : Results)
    (h : failing lib o index testSet = []) :
    (runTestsFrom lib o index testSet s).rows = s.rows ++
      (testSet.filter (o.Tests ·)).map fun t => ⟨o.rating t, o.rating t, 0, t.name⟩ := by
  induction testSet generalizing index s with
  | nil => exact (List.append_nil _).symm
  | cons t rest ih =>
    rw [failing, List.append_eq_nil_iff] at h
    rw [runTestsFrom, ih (index + 1) _ h.2]
    by_cases htests : o.Tests t
    · rw [if_pos htests, List.map_eq_nil_iff, Option.toList_eq_nil_iff] at h
      rw [runTest, if_pos htests, h.1, List.filter_cons_of_pos (by simpa using htests)]
      simp
    · rw [runTest, if_neg htests, List.filter_cons_of_neg (by simpa using htests)]

end Runs

section Solutions
variable {lib : Library} {o : Options} {index : ℕ}

theorem inRange_of_narrow {t : TestRec} {i : Fin 3} (harg : o.arg i = none) (hints : t.Integers i)
    (hnarrow : t.Narrow i) {a : Int32} (ha : a ∈ argTestVals lib o index t i) : t.InRange i a := by
  rw [argTestVals_eq harg hints, if_pos hnarrow] at ha
  exact mem_exhaustiveVals.mp ha

theorem exists_of_mem_floatRange {t : TestRec} {i : Fin 3} (harg : o.arg i = none)
    (hfloat : t.argRanges i = (1, 1)) {a : Int32} (ha : a ∈ argTestVals lib o index t i) :
    a.toUInt32.toNat ≤ 0xFFC00000 := by
  rw [argTestVals, harg, hfloat, genVals, if_pos ⟨rfl, rfl⟩, List.mem_map] at ha
  obtain ⟨uf, huf, rfl⟩ := ha
  exact floatVals_le huf

/-- Words as large as those of the negative floats that are generated are less than `-150`. -/
theorem not_denormal {x : Int32} (h : x.toUInt32.toNat ≤ 0xFFC00000) :
    x.toInt < -150 ∨ -126 ≤ x.toInt := by
  have hbmod := toInt_toInt32 x.toUInt32
  rw [Int32.toInt32_toUInt32, Int.bmod] at hbmod
  omega

theorem testSet_none (harg : ∀ i, o.arg i = none) : ∀ t ∈ testSet,
    testFunction lib o index t = none := by
  intro t ht
  rw [testFunction, firstFailure_none_iff]
  simp only [testSet, List.mem_cons, List.not_mem_nil, or_false] at ht
  obtain rfl | rfl | rfl | rfl | rfl | rfl | rfl | rfl | rfl | rfl | rfl | rfl | rfl := ht
  · exact fun x _ y _ => bitAnd_eq x y
  · exact fun x _ y _ => bitXor_eq x y
  · exact fun x _ => negate_eq x
  · intro x _ n hn m hm
    have hn := inRange_of_narrow (harg 1) ⟨by decide, by decide, by decide⟩ (by decide) hn
    have hm := inRange_of_narrow (harg 2) ⟨by decide, by decide, by decide⟩ (by decide) hm
    exact (byteSwap_meets hn.1 hn.2 hm.1 hm.2).1
  · exact fun x _ => (testAllOddBits_eq x).symm
  · intro high hhigh low hlow
    have hhigh := inRange_of_narrow (harg 0) ⟨by decide, by decide, by decide⟩ (by decide) hhigh
    have hlow := inRange_of_narrow (harg 1) ⟨by decide, by decide, by decide⟩ (by decide) hlow
    exact (bitMask_meets hhigh.1 hhigh.2 hlow.1 hlow.2).1
  · exact fun x _ y _ z _ => conditional_eq x y z
  · exact fun x _ => isAsciiDigit_eq x
  · exact fun x _ => isNonZero_eq x
  · exact fun x _ => logicalNeg_eq x
  · exact fun uf _ => congrArg UInt32.toInt32 (floatNegate_eq uf.toUInt32)
  · exact fun uf _ => congrArg UInt32.toInt32 (floatAbsVal_eq uf.toUInt32)
  · intro x hx
    have hx := not_denormal (exists_of_mem_floatRange (harg 0) rfl hx)
    exact congrArg UInt32.toInt32 ((floatPower2_eq_iff x).mpr hx)

/-- The puzzles against the functions of `tests.c` on every word, and what those on floats denote;
`floatPower2` is the only one that departs, and only in its denormal branch. -/
theorem solutions_meet_tests :
    (∀ x y, bitAnd x y = testBitAnd x y ∧ bitXor x y = testBitXor x y) ∧
    (∀ x, negate x = testNegate x ∧ isNonZero x = testIsNonZero x ∧
      logicalNeg x = testLogicalNeg x) ∧
    (∀ x y z, conditional x y z = testConditional x y z) ∧
    (∀ uf, floatNegate uf = testFloatNegate uf ∧
      single.decode (floatNegate uf).toNat = (single.decode uf.toNat).neg ∧
      (single.decode uf.toNat = .nan → floatNegate uf = uf)) ∧
    (∀ uf, floatAbsVal uf = testFloatAbsVal uf ∧
      single.decode (floatAbsVal uf).toNat = (single.decode uf.toNat).abs ∧
      (single.decode uf.toNat = .nan → floatAbsVal uf = uf)) ∧
    ∀ x, single.decode (testFloatPower2 x).toNat = power2 x.toInt ∧
      (floatPower2 x = testFloatPower2 x ↔ x.toInt < -150 ∨ -126 ≤ x.toInt) :=
  ⟨fun x y => ⟨bitAnd_eq x y, bitXor_eq x y⟩,
    fun x => ⟨negate_eq x, isNonZero_eq x, logicalNeg_eq x⟩, conditional_eq,
    fun uf => ⟨floatNegate_eq uf, decode_floatNegate uf⟩,
    fun uf => ⟨floatAbsVal_eq uf, decode_floatAbsVal uf⟩,
    fun x => ⟨decode_testFloatPower2 x, floatPower2_eq_iff x⟩⟩

/-- The run of the harness on the puzzles: the most points, although `floatPower2` is not always
the function of `tests.c`. No float that is generated is one of the arguments that tell. -/
theorem runTests_testSet (harg : ∀ i, o.arg i = none) :
    (runTests lib o testSet).errors = 0 ∧ (runTests lib o testSet).failures = [] ∧
    (runTests lib o testSet).points = worth o testSet ∧
    (runTests lib o testSet).maxPoints = worth o testSet ∧
    (runTests lib o testSet).rows = (testSet.filter (o.Tests ·)).map
      (fun t => ⟨o.rating t, o.rating t, 0, t.name⟩) ∧
    ∀ x : Int32, floatPower2 x ≠ testFloatPower2 x ↔ -150 ≤ x.toInt ∧ x.toInt ≤ -127 := by
  have hnil : failing lib o 0 testSet = [] := (failing_eq_nil_iff lib o testSet 0).mpr
    fun k t hk _ => testSet_none harg t (List.mem_of_getElem? hk)
  obtain ⟨herrors, hfailures, hmax, hpoints⟩ :=
    runTestsFrom_counts lib o testSet 0 ⟨[], [], 0, 0, 0⟩
  rw [hnil] at herrors hfailures hpoints
  rw [Nat.zero_add] at hmax hpoints
  refine ⟨herrors, ?_, hpoints, hmax, runTestsFrom_rows lib o testSet 0 _ hnil, fun x => ?_⟩
  · rw [runTests, hfailures]
    exact ite_self _
  · rw [ne_eq, floatPower2_eq_iff]
    omega

theorem runTests_testSet_plain :
    (runTests zeroLibrary plainOptions testSet).errors = 0 ∧
    (runTests zeroLibrary plainOptions testSet).failures = [] ∧
    (runTests zeroLibrary plainOptions testSet).points = worth plainOptions testSet ∧
    (runTests zeroLibrary plainOptions testSet).maxPoints = worth plainOptions testSet ∧
    (runTests zeroLibrary plainOptions testSet).rows = (testSet.filter (plainOptions.Tests ·)).map
      (fun t => ⟨plainOptions.rating t, plainOptions.rating t, 0, t.name⟩) ∧
    ∀ x : Int32, floatPower2 x ≠ testFloatPower2 x ↔ -150 ≤ x.toInt ∧ x.toInt ≤ -127 :=
  runTests_testSet fun _ => rfl

/-- With its argument on the command line `floatPower2` is tested there, and fails where it is
wrong. -/
theorem runTests_floatPower2 {v : UInt32} (hname : o.testFname = some "floatPower2")
    (harg : o.arg 0 = some v) : (runTests lib o testSet).errors =
      if -150 ≤ v.toInt32.toInt ∧ v.toInt32.toInt ≤ -127 then 1 else 0 := by
  have herrors := (runTestsFrom_counts lib o testSet 0 ⟨[], [], 0, 0, 0⟩).1
  rw [Nat.zero_add] at herrors
  have hfailing : failing lib o 0 testSet =
      (testFunction lib o 12 floatPower2Rec).toList.map (Prod.mk floatPower2Rec) := by
    have hpower2 : floatPower2Rec.name = "floatPower2" := rfl
    have hswap : byteSwapRec.name = "byteSwap" := rfl
    simp [failing, testSet, Options.Tests, hname, hpower2, hswap]
  have hvals : argTestVals lib o 12 floatPower2Rec 0 = [v.toInt32] := by
    rw [argTestVals, harg, genVals]
  have hiff : testFunction lib o 12 floatPower2Rec = none ↔
      floatPower2 v.toInt32 = testFloatPower2 v.toInt32 := by
    rw [testFunction, firstFailure_none_iff]
    constructor
    · intro hagree
      have hmem : v.toInt32 ∈ argTestVals lib o 12 floatPower2Rec 0 := by
        rw [hvals]
        exact List.mem_singleton_self _
      have hword := congrArg Int32.toUInt32 (hagree _ hmem)
      rwa [UInt32.toUInt32_toInt32, UInt32.toUInt32_toInt32] at hword
    · intro heq x hx
      rw [hvals, List.mem_singleton] at hx
      rw [hx]
      exact congrArg UInt32.toInt32 heq
  rw [runTests, herrors, hfailing, List.length_map]
  rw [floatPower2_eq_iff] at hiff
  cases htest : testFunction lib o 12 floatPower2Rec with
  | none =>
    have hbranch := hiff.mp htest
    rw [if_neg (by omega)]
    rfl
  | some failure =>
    have hne : testFunction lib o 12 floatPower2Rec ≠ none := by
      rw [htest]
      exact Option.some_ne_none failure
    have hbranch := mt hiff.mpr hne
    rw [if_pos (by omega)]
    rfl

/-- `-f floatPower2 -1 -127` -/
theorem runTests_floatPower2_border :
    (runTests zeroLibrary ⟨false, some "floatPower2", 0, ![some 0xFFFFFF81, none, none]⟩
      testSet).errors =
      if -150 ≤ (0xFFFFFF81 : UInt32).toInt32.toInt ∧ (0xFFFFFF81 : UInt32).toInt32.toInt ≤ -127
        then 1 else 0 :=
  runTests_floatPower2 rfl rfl

end Solutions

end Orga.Bits
