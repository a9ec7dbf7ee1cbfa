import Orga.Bits.Btest

/-! The values of `gen_vals`: how many they are, which values of a range are among them, and what
the verdict of `test_function` tells. -/
namespace Orga.Bits
open Orga.BitFields

section Values
variable {min max v : Int32} {testRange n : ℕ} {randomVal : ℕ → Int32}

theorem toInt_add_ofNat (h : v.toInt + n < 2 ^ 31) : (v + Int32.ofNat n).toInt = v.toInt + n := by
  have hlo := Int32.le_toInt v
  have hhi := Int32.toInt_lt v
  rw [Int32.toInt_add, Int32.toInt_ofNat', show Int32.size = 2 ^ 32 from rfl, Int.add_bmod_bmod]
  exact Int.bmod_eq_of_le (by omega) (by omega)

theorem toInt_sub_ofNat (h : -2 ^ 31 ≤ v.toInt - n) :
    (v - Int32.ofNat n).toInt = v.toInt - n := by
  have hlo := Int32.le_toInt v
  have hhi := Int32.toInt_lt v
  rw [Int32.toInt_sub, Int32.toInt_ofNat', show Int32.size = 2 ^ 32 from rfl, Int.sub_bmod_bmod]
  exact Int.bmod_eq_of_le (by omega) (by omega)

theorem mem_exhaustiveVals : v ∈ exhaustiveVals min max ↔ min ≤ v ∧ v ≤ max := by
  have hmin := Int32.le_toInt min
  have hmax := Int32.toInt_lt max
  rw [exhaustiveVals, List.mem_map, Int32.le_iff_toInt_le, Int32.le_iff_toInt_le]
  constructor
  · rintro ⟨n, hn, rfl⟩
    rw [List.mem_range] at hn
    rw [toInt_add_ofNat (by omega)]
    omega
  · rintro ⟨hlo, hhi⟩
    refine ⟨(v.toInt - min.toInt).toNat, List.mem_range.mpr (by omega), ?_⟩
    apply Int32.toInt_inj.mp
    rw [toInt_add_ofNat (by omega)]
    omega

theorem length_exhaustiveVals :
    (exhaustiveVals min max).length = (max.toInt - min.toInt + 1).toNat := by
  rw [exhaustiveVals, List.length_map, List.length_range]

/-- Neither the test for a small range nor the loop over one overflows. -/
structure Fits (min max : Int32) : Prop where
  test : -2 ^ 31 + (MAX_TEST_VALS : ℤ) ≤ max.toInt
  loop : max.toInt - min.toInt ≤ MAX_TEST_VALS → max.toInt < 2 ^ 31 - 1

theorem Fits.narrow_iff (h : Fits min max) :
    max - Int32.ofNat MAX_TEST_VALS ≤ min ↔ max.toInt - min.toInt ≤ MAX_TEST_VALS := by
  have htest := h.test
  rw [Int32.le_iff_toInt_le, toInt_sub_ofNat (by omega)]
  omega

theorem length_flatMap_le {α β : Type} {f : α → List β} {k : ℕ} (h : ∀ a, (f a).length ≤ k)
    (l : List α) : (l.flatMap f).length ≤ k * l.length := by
  induction l with
  | nil => exact Nat.le_refl 0
  | cons a l ih =>
    have ha := h a
    rw [List.flatMap_cons, List.length_append, List.length_cons, Nat.mul_succ]
    omega

theorem length_sampledVals :
    (sampledVals randomVal min max testRange).length ≤ 5 * testRange := by
  have h := length_flatMap_le (k := 5) (f := fun n => let i := Int32.ofNat n
    [min + i, max - i] ++ (if i ≥ min ∧ i ≤ max then [i] else []) ++
      (if -i ≥ min ∧ -i ≤ max then [-i] else []) ++ [randomVal n]) (fun n => by
        dsimp only
        split_ifs <;> simp) (List.range testRange)
  rwa [List.length_range] at h

theorem length_floatVals : (floatVals testRange).length ≤ 12 * testRange + 4 := by
  unfold floatVals
  dsimp only
  rw [List.length_append]
  refine Nat.add_le_add ((length_flatMap_le (fun n => Nat.le_refl 12) _).trans ?_) (Nat.le_refl 4)
  rw [List.length_range]
  split_ifs <;> omega

/-- The array of values is too short for exactly one width of a range, which is enumerated. -/
theorem length_genVals (hrange : testRange ≤ TEST_RANGE) (hfits : Fits min max) :
    (genVals none randomVal min max testRange).length ≤ MAX_TEST_VALS ↔
      max.toInt - min.toInt ≠ MAX_TEST_VALS := by
  have hrange' : TEST_RANGE = 500000 := rfl
  have hvals : MAX_TEST_VALS = 13 * TEST_RANGE := rfl
  rw [genVals]
  by_cases hfloat : min = 1 ∧ max = 1
  · have hlen := @length_floatVals testRange
    rw [if_pos hfloat, List.length_map, hfloat.1, hfloat.2]
    exact iff_of_true (by omega) (by omega)
  rw [if_neg hfloat]
  by_cases hnarrow : max - Int32.ofNat MAX_TEST_VALS ≤ min
  · rw [if_pos hnarrow, length_exhaustiveVals]
    rw [hfits.narrow_iff] at hnarrow
    omega
  · have hlen := @length_sampledVals min max testRange randomVal
    rw [if_neg hnarrow]
    rw [hfits.narrow_iff] at hnarrow
    exact iff_of_true (by omega) (by omega)

theorem length_genVals_full : (genVals none (fun _ => 0) 0 6500000 TEST_RANGE).length ≤
    MAX_TEST_VALS ↔ (6500000 : Int32).toInt - (0 : Int32).toInt ≠ MAX_TEST_VALS :=
  length_genVals (Nat.le_refl TEST_RANGE) ⟨by decide, by decide⟩

/-- No word of a float that the harness generates is a small negative integer. -/
theorem floatVals_le {uf : UInt32} (h : uf ∈ floatVals testRange) : uf.toNat ≤ 0xFFC00000 := by
  have hsign (y : UInt32) (hy : y.toNat ≤ 0x7FC00000) :
      ((0x80000000 : UInt32) ||| y).toNat ≤ 0xFFC00000 := by
    have htop : (0x80000000 : UInt32).toNat = 2 ^ 31 := rfl
    rw [toNat_join 31 (by decide) (by omega), htop]
    omega
  rw [floatVals, List.mem_append, List.mem_flatMap] at h
  obtain ⟨n, hn, h⟩ | h := h
  · have hn' : n < 2 ^ 23 := by
      rw [List.mem_range] at hn
      split_ifs at hn <;> omega
    have hi : (UInt32.ofNat n).toNat = n := by
      rw [UInt32.toNat_ofNat', Nat.mod_eq_of_lt (by omega)]
    have hadd (y : UInt32) (hy : y.toNat ≤ 0x3F800000) :
        (y + UInt32.ofNat n).toNat ≤ 0x7FC00000 := by
      rw [UInt32.toNat_add, hi]
      omega
    have hsub (y : UInt32) (hlo : 2 ^ 23 ≤ y.toNat) (hhi : y.toNat ≤ 0x7F000000) :
        (y - UInt32.ofNat n).toNat ≤ 0x7FC00000 := by
      rw [UInt32.toNat_sub_of_le _ _ (UInt32.le_iff_toNat_le.mpr (by omega)), hi]
      omega
    have hsmall : (0x00800000 : UInt32).toNat = 0x00800000 := rfl
    have hone : (0x3F800000 : UInt32).toNat = 0x3F800000 := rfl
    have hlarge : (0x7F000000 : UInt32).toNat = 0x7F000000 := rfl
    simp only [List.mem_cons, List.not_mem_nil, or_false] at h
    obtain rfl | rfl | rfl | rfl | rfl | rfl | rfl | rfl | rfl | rfl | rfl | rfl := h
    · omega
    · exact hsign _ (by omega)
    · exact (hadd _ (by omega)).trans (by norm_num)
    · exact (hsub _ (by omega) (by omega)).trans (by norm_num)
    · exact hsign _ (hadd _ (by omega))
    · exact hsign _ (hsub _ (by omega) (by omega))
    · exact (hadd _ (by omega)).trans (by norm_num)
    · exact (hsub _ (by omega) (by omega)).trans (by norm_num)
    · exact hsign _ (hadd _ (by omega))
    · exact hsign _ (hsub _ (by omega) (by omega))
    · exact (hsub _ (by omega) (by omega)).trans (by norm_num)
    · exact hsign _ (hsub _ (by omega) (by omega))
  · simp only [List.mem_cons, List.not_mem_nil, or_false] at h
    obtain rfl | rfl | rfl | rfl := h <;> decide

end Values

section Records

def TestRec.InRange (t : TestRec) (i : Fin 3) (a : Int32) : Prop :=
  (t.argRanges i).1 ≤ a ∧ a ≤ (t.argRanges i).2

/-- The argument is given all the values of its range. -/
def TestRec.Narrow (t : TestRec) (i : Fin 3) : Prop :=
  (t.argRanges i).2 - Int32.ofNat MAX_TEST_VALS ≤ (t.argRanges i).1

instance (t : TestRec) (i : Fin 3) : Decidable (t.Narrow i) :=
  inferInstanceAs (Decidable (_ ≤ _))

def TestRec.Integers (t : TestRec) (i : Fin 3) : Prop :=
  t.argRanges i ≠ (1, 1) ∧ Fits (t.argRanges i).1 (t.argRanges i).2

variable {lib : Library} {o : Options} {index : ℕ} {t : TestRec}

theorem argTestVals_eq {i : Fin 3} (harg : o.arg i = none) (hints : t.Integers i) :
    argTestVals lib o index t i =
      if t.Narrow i then exhaustiveVals (t.argRanges i).1 (t.argRanges i).2
      else sampledVals (lib.randomVal index i) (t.argRanges i).1 (t.argRanges i).2
        (argTestRange lib t.functs) := by
  have hfloat : ¬ ((t.argRanges i).1 = 1 ∧ (t.argRanges i).2 = 1) :=
    fun h => hints.1 (Prod.ext h.1 h.2)
  rw [argTestVals, harg, genVals, if_neg hfloat]
  rfl

/-- No options, and random values that are all zero; the roots are those of `TEST_RANGE`. -/
def plainOptions : Options := ⟨false, none, 0, fun _ => none⟩
def zeroLibrary : Library := ⟨707, 79, fun _ _ _ => 0⟩

end Records

end Orga.Bits
