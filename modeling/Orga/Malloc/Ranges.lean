import Mathlib.Data.List.Pairwise
import Orga.Malloc.Memlib

/-! The range list of `mdriver.c`: the payloads that the package has handed out, and the three
tests that a new one has to pass. -/
namespace Orga.Malloc

/-- The extent of a payload; both ends belong to it. -/
structure Range where
  lo : UInt64
  hi : UInt64
  deriving DecidableEq, Repr

inductive MallocError where
  /-- `mm_init failed.` -/
  | initFailed
  /-- `mm_malloc failed.` -/
  | mallocFailed
  /-- `mm_realloc failed.` -/
  | reallocFailed
  /-- `mm_realloc did not preserve the data from old block` -/
  | notPreserved
  /-- `Payload address (%p) not aligned to %d bytes` -/
  | notAligned (lo : UInt64)
  /-- `Payload (%p:%p) lies outside heap (%p:%p)` -/
  | outsideHeap (lo hi heapLo heapHi : UInt64)
  /-- `Payload (%p:%p) overlaps another payload (%p:%p)` -/
  | overlaps (lo hi plo phi : UInt64)
  deriving DecidableEq, Repr

/-- Where the driver stops without a result. -/
inductive Stop where
  | fault (f : Fault)
  /-- an access outside the arrays of the trace -/
  | slot (index : Int32)
  /-- a pointer or size that was never stored -/
  | unset (slot : ℕ)
  /-- `assert(size > 0)` -/
  | assertion
  | appError (msg : String)
  deriving DecidableEq, Repr

def ALIGNMENT : UInt32 := 8

/-- `IS_ALIGNED`, which looks at the low half of the pointer. -/
def isAligned (p : UInt64) : Bool := p.toUInt32 % ALIGNMENT == 0

/-- An `int` passed where a `size_t` is expected. -/
def sizeT (n : Int32) : UInt64 := n.toInt64.toUInt64

def highEnd (lo : UInt64) (size : Int32) : UInt64 := lo + sizeT size - 1

def outside (h : Heap) (lo hi : UInt64) : Bool :=
  lo < memHeapLo h || lo > memHeapHi h || hi < memHeapLo h || hi > memHeapHi h

/-- The overlap test of the loop: one end of the new payload lies in an old one. -/
def touches (lo hi : UInt64) (p : Range) : Bool :=
  (lo ≥ p.lo && lo ≤ p.hi) || (hi ≥ p.lo && hi ≤ p.hi)

/-- The result is an error of the package, which returns 0, or the new list. -/
def addRange (h : Heap) (ranges : List Range) (lo : UInt64) (size : Int32) :
    Except Stop (Except MallocError (List Range)) :=
  let hi := highEnd lo size
  if ¬ 0 < size then .error .assertion
  else if !isAligned lo then .ok (.error (.notAligned lo))
  else if outside h lo hi then .ok (.error (.outsideHeap lo hi (memHeapLo h) (memHeapHi h)))
  else match ranges.find? (touches lo hi) with
    | some p => .ok (.error (.overlaps lo hi p.lo p.hi))
    | none => .ok (.ok (⟨lo, hi⟩ :: ranges))

/-- The first record with this low end goes. -/
def removeRange (ranges : List Range) (lo : UInt64) : List Range :=
  ranges.eraseP fun p => p.lo == lo

def clearRanges (_ : List Range) : List Range := []

theorem toNat_sizeT {n : Int32} (hn : 0 ≤ n.toInt) : (sizeT n).toNat = n.toInt.toNat := by
  have h64 : n.toInt64.toInt = n.toInt := Int32.toInt_toInt64 n
  have hlt := n.toInt_lt
  have hcond : n.toInt64.toBitVec.toInt = n.toInt := h64
  rw [BitVec.toInt_eq_toNat_cond] at hcond
  have hto : (sizeT n).toNat = n.toInt64.toBitVec.toNat := rfl
  rw [hto]
  have hbound := n.toInt64.toBitVec.isLt
  split_ifs at hcond <;> omega

theorem isAligned_iff {p : UInt64} : isAligned p = true ↔ 8 ∣ p.toNat := by
  have hto : (p.toUInt32 % ALIGNMENT).toNat = p.toNat % 8 := by
    rw [UInt32.toNat_mod, UInt64.toNat_toUInt32]
    show p.toNat % 2 ^ 32 % 8 = _
    omega
  have h0 : (0 : UInt32).toNat = 0 := rfl
  rw [isAligned, beq_iff_eq, ← UInt32.toNat_inj, hto, h0]
  omega

namespace Range

def Apart (r s : Range) : Prop := r.hi.toNat < s.lo.toNat ∨ s.hi.toNat < r.lo.toNat

def Encloses (r s : Range) : Prop := r.lo.toNat < s.lo.toNat ∧ s.hi.toNat < r.hi.toNat

theorem Apart.symm {r s : Range} (h : r.Apart s) : s.Apart r := Or.symm h

end Range

/-- Looking at the ends finds every overlap but one. -/
theorem not_touches_iff {r s : Range} (hr : r.lo.toNat ≤ r.hi.toNat) :
    touches r.lo r.hi s = false ↔ r.Apart s ∨ r.Encloses s := by
  unfold touches Range.Apart Range.Encloses
  simp only [ge_iff_le, Bool.or_eq_false_iff, Bool.and_eq_false_iff, decide_eq_false_iff_not,
    UInt64.le_iff_toNat_le]
  omega

structure Bounded (h : Heap) : Prop where
  pos : 0 < h.memStartBrk.toNat
  start_le : h.memStartBrk.toNat ≤ h.memBrk.toNat
  brk_le : h.memBrk.toNat ≤ h.memMaxAddr.toNat
  user : h.memMaxAddr.toNat < 2 ^ 63

theorem Bounded.memHeapHi {h : Heap} (hb : Bounded h) :
    (memHeapHi h).toNat + 1 = h.memBrk.toNat := by
  have hpos := hb.pos
  have hstart := hb.start_le
  have hone : (1 : UInt64) ≤ h.memBrk := by
    rw [UInt64.le_iff_toNat_le]
    show 1 ≤ _
    omega
  rw [Malloc.memHeapHi, UInt64.toNat_sub_of_le _ _ hone]
  show h.memBrk.toNat - 1 + 1 = _
  omega

theorem toNat_highEnd {lo : UInt64} {size : Int32} (hlo : lo.toNat < 2 ^ 63)
    (hsize : 0 < size.toInt) : (highEnd lo size).toNat + 1 = lo.toNat + size.toInt.toNat := by
  have hlt := size.toInt_lt
  have hsum : (lo + sizeT size).toNat = lo.toNat + size.toInt.toNat := by
    rw [UInt64.toNat_add, toNat_sizeT hsize.le]
    exact Nat.mod_eq_of_lt (by omega)
  have hone : (1 : UInt64) ≤ lo + sizeT size := by
    rw [UInt64.le_iff_toNat_le, hsum]
    show 1 ≤ _
    omega
  rw [highEnd, UInt64.toNat_sub_of_le _ _ hone, hsum]
  show lo.toNat + size.toInt.toNat - 1 + 1 = _
  omega

structure WellPlaced (h : Heap) (lo : UInt64) (size : Int32) : Prop where
  positive : 0 < size.toInt
  aligned : 8 ∣ lo.toNat
  low : h.memStartBrk.toNat ≤ lo.toNat
  high : lo.toNat + size.toInt.toNat ≤ h.memBrk.toNat

section AddRange
variable {h : Heap} {ranges : List Range} {lo : UInt64} {size : Int32} (hb : Bounded h)
include hb

theorem WellPlaced.highEnd (hp : WellPlaced h lo size) :
    (highEnd lo size).toNat + 1 = lo.toNat + size.toInt.toNat := by
  have hpos := hp.positive
  have hhigh := hp.high
  have hbrk := hb.brk_le
  have huser := hb.user
  exact toNat_highEnd (by omega) hpos

theorem wellPlaced_iff : WellPlaced h lo size ↔
    0 < size ∧ isAligned lo = true ∧ outside h lo (Malloc.highEnd lo size) = false := by
  have htop := hb.memHeapHi
  have hbrk := hb.brk_le
  have huser := hb.user
  have hpos : 0 < size ↔ 0 < size.toInt := Int32.lt_iff_toInt_lt
  have hout : outside h lo (Malloc.highEnd lo size) = false ↔
      h.memStartBrk.toNat ≤ lo.toNat ∧ lo.toNat ≤ (Malloc.memHeapHi h).toNat ∧
      h.memStartBrk.toNat ≤ (Malloc.highEnd lo size).toNat ∧
      (Malloc.highEnd lo size).toNat ≤ (Malloc.memHeapHi h).toNat := by
    simp only [outside, memHeapLo, gt_iff_lt, Bool.or_eq_false_iff, decide_eq_false_iff_not,
      UInt64.lt_iff_toNat_lt, not_lt, and_assoc]
  rw [hout, isAligned_iff, hpos]
  constructor
  · intro hp
    have hend := hp.highEnd hb
    have hsize := hp.positive
    have hlow := hp.low
    have hhigh := hp.high
    exact ⟨hsize, hp.aligned, hlow, by omega, by omega, by omega⟩
  · rintro ⟨hsize, haligned, hlow, hlo, -, hhi⟩
    have hend : (Malloc.highEnd lo size).toNat + 1 = lo.toNat + size.toInt.toNat :=
      toNat_highEnd (by omega) hsize
    exact ⟨hsize, haligned, hlow, by omega⟩

/-- A payload is recorded when it is well placed and is apart from the recorded ones, or encloses
them. -/
theorem addRange_eq_ok_iff {ranges' : List Range} :
    addRange h ranges lo size = .ok (.ok ranges') ↔ WellPlaced h lo size ∧
      (∀ r ∈ ranges, Range.Apart ⟨lo, Malloc.highEnd lo size⟩ r ∨
        Range.Encloses ⟨lo, Malloc.highEnd lo size⟩ r) ∧
      ranges' = ⟨lo, Malloc.highEnd lo size⟩ :: ranges := by
  rw [wellPlaced_iff hb]
  constructor
  · intro hrun
    simp only [addRange] at hrun
    split_ifs at hrun with hsize haligned hout
    · cases hrun
    · cases hrun
    have htests : 0 < size ∧ isAligned lo = true ∧
        outside h lo (Malloc.highEnd lo size) = false :=
      ⟨hsize, by simpa using haligned, by simpa using hout⟩
    have hgood : WellPlaced h lo size := (wellPlaced_iff hb).mpr htests
    have hend := hgood.highEnd hb
    have hpos := hgood.positive
    cases hfind : ranges.find? (touches lo (Malloc.highEnd lo size)) with
    | some p =>
      rw [hfind] at hrun
      cases hrun
    | none =>
      rw [hfind] at hrun
      cases hrun
      refine ⟨htests, fun r hr => ?_, rfl⟩
      have hno := List.find?_eq_none.mp hfind r hr
      exact (not_touches_iff (r := ⟨lo, Malloc.highEnd lo size⟩) (by dsimp only; omega)).mp
        (by simpa using hno)
  · rintro ⟨⟨hsize, haligned, hout⟩, hapart, rfl⟩
    have hgood : WellPlaced h lo size := (wellPlaced_iff hb).mpr ⟨hsize, haligned, hout⟩
    have hend := hgood.highEnd hb
    have hpos := hgood.positive
    have hfind : ranges.find? (touches lo (Malloc.highEnd lo size)) = none := by
      refine List.find?_eq_none.mpr fun r hr => ?_
      have hno := (not_touches_iff (r := ⟨lo, Malloc.highEnd lo size⟩) (s := r)
        (by dsimp only; omega)).mpr (hapart r hr)
      simpa using hno
    simp only [addRange, hsize, haligned, hout, hfind, not_true_eq_false, if_false, Bool.not_true,
      Bool.false_eq_true]

end AddRange

end Orga.Malloc
