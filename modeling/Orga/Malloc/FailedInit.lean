import Orga.Malloc.Chains

/-! What a failed `mm_init` leaves behind. When the first `mem_sbrk` is refused, `heap_listp`
holds `(void *)-1`; when the second is, the list is the prologue alone. -/
namespace Orga.Malloc

theorem Barren.chain {h : Heap} {a : ℕ} (hB : Barren h (a + 8)) (hf : FullArena h) :
    Chain h a h.memMaxAddr.toNat [⟨16, true⟩] := by
  have hlow := hB.low
  exact ⟨by omega, rfl, hB.user, hf.le, hB.listp, ⟨hB.prologue.header, le_rfl, trivial⟩,
    hB.epilogue, hB.brk, hB.brk_le, [], _, rfl, hB.prologue.footer⟩

def ListsPrologue (h : Heap) : Prop :=
  blockSize h (obtenerHeader h.heapListp) = .ok 16 ∧
    isAllocated h (obtenerHeader h.heapListp) = .ok true

def ValidBlock (h : Heap) (p size : UInt64) : Prop :=
  isAllocated h (obtenerHeader p) = .ok true ∧
    ∃ w, blockSize h (obtenerHeader p) = .ok w ∧ size.toNat + 16 ≤ w.toNat

/-- Calls of `mm_malloc` one after another, each on a list that starts at a prologue, without
a fault, and with `NULL` or a valid block. -/
inductive Survives : Heap → List UInt64 → Prop where
  | nil (h : Heap) : Survives h []
  | cons {h h' : Heap} {size p : UInt64} {sizes : List UInt64}
      (hlisted : size ≠ 0 → ListsPrologue h) (hrun : mmMalloc h size = .ok (p, h'))
      (hp : p = NULL ∨ ValidBlock h' p size) (hrest : Survives h' sizes) :
      Survives h (size :: sizes)

theorem survives_zero_cons {h : Heap} {sizes : List UInt64} :
    Survives h (0 :: sizes) ↔ Survives h sizes := by
  constructor
  · intro hs
    cases hs with
    | cons hlisted hrun hp hrest =>
      cases hrun
      exact hrest
  · exact fun hs => .cons (fun h0 => absurd rfl h0) rfl (Or.inl rfl) hs

theorem not_survives_of_error {h : Heap} {size : UInt64} {sizes : List UInt64} {f : Fault}
    (hrun : mmMalloc h size = .error f) : ¬ Survives h (size :: sizes) := by
  intro hs
  cases hs with
  | cons hlisted hrun' hp hrest => exact absurd (hrun'.symm.trans hrun) (by simp)

section Prologue
variable {h : Heap} {a m : ℕ} (hC : Chain h a m [⟨16, true⟩])
include hC

theorem Chain.listsPrologue : ListsPrologue h := by
  have hC' : Chain h a m ([] ++ ⟨16, true⟩ :: []) := hC
  obtain ⟨htag, -, -⟩ := hC'.tile
  rw [ListsPrologue, hC.listp, obtenerHeader_payload]
  exact ⟨htag.blockSize, htag.isAllocated⟩

/-- A full arena without blocks refuses every request that it does not fault on. -/
theorem Chain.mmMalloc_prologue (hfull : m < a + 4128) {size : UInt64} (hsize : size ≠ 0) :
    (Harmless h (extendsize size).toNat →
      ∃ h', mmMalloc h size = .ok (NULL, h') ∧ Chain h' a m [⟨16, true⟩]) ∧
    (¬ Harmless h (extendsize size).toNat → ∃ f, mmMalloc h size = .error f) := by
  have hno : ∀ t ∈ [(⟨16, true⟩ : Tile)], ¬ t.Fits (adjustedSize size) := by simp [Tile.Fits]
  have hge := (extendsize_bounds size).2.1
  have hext : extent [⟨16, true⟩] = 16 := rfl
  rw [hC.harmless_iff, hext]
  constructor
  · intro hh
    exact hC.mmMalloc_refused hsize hno (by omega)
  · intro hh
    exact hC.mmMalloc_fault hsize hno (by omega) (by omega) (by omega)

theorem Chain.survives_iff (hfull : m < a + 4128) (sizes : List UInt64) :
    Survives h sizes ↔ ∀ n ∈ sizes, n = 0 ∨ Harmless h (extendsize n).toNat := by
  induction sizes generalizing h with
  | nil => simp [Survives.nil]
  | cons n sizes ih =>
    rw [List.forall_mem_cons]
    by_cases hn : n = 0
    · subst hn
      rw [survives_zero_cons, ih hC]
      simp
    obtain ⟨hok, herr⟩ := hC.mmMalloc_prologue hfull hn
    by_cases hh : Harmless h (extendsize n).toNat
    · obtain ⟨h', hrun, hC'⟩ := hok hh
      have hrest := ih hC'
      simp only [hC'.harmless_iff, ← hC.harmless_iff] at hrest
      constructor
      · intro hs
        cases hs with
        | cons hlisted hrun' hp hrest' =>
          cases hrun.symm.trans hrun'
          exact ⟨Or.inr hh, hrest.mp hrest'⟩
      · rintro ⟨-, hall⟩
        exact .cons (fun _ => hC.listsPrologue) hrun (Or.inl rfl) (hrest.mpr hall)
    · obtain ⟨f, hrun⟩ := herr hh
      refine ⟨fun hs => absurd hs (not_survives_of_error hrun), fun hall => ?_⟩
      rcases hall.1 with h0 | h1
      · exact absurd h0 hn
      · exact absurd h1 hh

end Prologue

/-- The arena of `mem_init` with `avail` bytes left above the break. -/
structure Available (h : Heap) (avail : ℕ) : Prop where
  low : h.memStartBrk.toNat ≤ h.memBrk.toNat
  left : h.memBrk.toNat + avail = h.memMaxAddr.toNat
  arena : FullArena h
  user : h.memMaxAddr.toNat < 2 ^ 63

section Available
variable {h : Heap} {avail : ℕ} (hA : Available h avail)
include hA

/-- Without room for four words `mm_init` stores `(void *)-1`. -/
theorem Available.mmInit_refused (hfew : avail < 32) :
    mmInit h = .ok (0, { h with heapListp := SBRK_FAILED }) := by
  have hleft := hA.left
  have hsbrk := memSbrk_full (h := h) (e := 32) (by omega) hA.user (by omega) (by omega)
  rw [mmInit, show 4 * WSIZE = UInt64.ofNat 32 from rfl, hsbrk]
  rfl

/-- `mm_malloc` takes `(void *)-1` for a block and reads the word before it. -/
theorem Available.mmMalloc_refused {size : UInt64} (hsize : size ≠ 0) :
    ∃ f, mmMalloc { h with heapListp := SBRK_FAILED } size = .error f := by
  have hleft := hA.left
  have huser := hA.user
  have hne : SBRK_FAILED ≠ NULL := by decide
  have hto : (obtenerHeader SBRK_FAILED).toNat = 2 ^ 64 - 9 := rfl
  have hout : ¬ InHeap { h with heapListp := SBRK_FAILED } (obtenerHeader SBRK_FAILED).toNat 8 := by
    rintro ⟨-, hhi⟩
    change _ ≤ h.memBrk.toNat at hhi
    rw [hto] at hhi
    omega
  refine ⟨.access (obtenerHeader SBRK_FAILED), ?_⟩
  rw [mmMalloc_listed hsize hne, findFit, blockSize, obtenerWord, if_neg hout]
  rfl

theorem Available.mmInit_chain (hfour : 32 ≤ avail) :
    ∃ h5, Chain h5 h.memBrk.toNat h.memMaxAddr.toNat [⟨16, true⟩] ∧
      (avail < 4128 → mmInit h = .ok (0, h5)) ∧
      (4128 ≤ avail → ∃ h', mmInit h = .ok (1, h')) := by
  have hleft := hA.left
  obtain ⟨h5, hB, hsame, hrun⟩ := Malloc.mmInit_barren hA.low (by omega) hA.user
  have hmax : h5.memMaxAddr = h.memMaxAddr := by rw [hsame]
  have hf : FullArena h5 := by
    have := hA.arena
    unfold FullArena at *
    rw [hsame]
    exact this
  have hC := hB.chain hf
  rw [hmax] at hC
  have hbrk := hC.brk
  have hext : extent [⟨16, true⟩] = 16 := rfl
  have hchunk : CHUNKSIZE / WSIZE = UInt64.ofNat (4096 / 8) := by decide
  rw [hchunk] at hrun
  refine ⟨h5, hC, fun hless => ?_, fun hmore => ?_⟩
  · have hsbrk := memSbrk_full (h := h5) (e := 4096) (by omega) hB.user hB.brk_le
      (by rw [hmax]; omega)
    rw [hrun, extendHeap_refused (by decide) (by decide) hsbrk, ok_bind, if_pos rfl]
  · have hC' : Chain h5 h.memBrk.toNat h.memMaxAddr.toNat ([] ++ [⟨16, true⟩]) := hC
    obtain ⟨h', hrun', hC''⟩ := hC'.extendHeap_room (e := ⟨4096, by decide⟩)
      (by rw [List.nil_append]; dsimp only; omega) (by decide)
    exact ⟨h', by rw [hrun, hrun', ok_bind, if_neg hC''.payload_ne_null]⟩

/-- After a failed `mm_init` later calls go well exactly when they ask for nothing, or the
prologue was written and each growth they need is harmless. -/
theorem Available.failedInit_iff {h1 : Heap} (hinit : mmInit h = .ok (0, h1))
    (sizes : List UInt64) :
    Survives h1 sizes ↔ (∀ n ∈ sizes, n = 0) ∨
      (32 ≤ avail ∧ ∀ n ∈ sizes, n = 0 ∨ Harmless (h.raise 32) (extendsize n).toNat) := by
  by_cases hfour : 32 ≤ avail
  · have hleft := hA.left
    obtain ⟨h5, hC, hless, hmore⟩ := hA.mmInit_chain hfour
    have hfew : avail < 4128 := by
      by_contra hmany
      obtain ⟨h', hrun⟩ := hmore (by omega)
      exact absurd (hinit.symm.trans hrun) (by simp)
    cases hinit.symm.trans (hless hfew)
    have hraise : (h.raise 32).memBrk.toNat = h.memBrk.toNat + 32 :=
      raise_memBrk hA.user (by omega)
    have hharm : ∀ e, Harmless h1 e ↔ Harmless (h.raise 32) e := by
      intro e
      rw [hC.harmless_iff, Harmless, hraise]
      exact Iff.rfl
    rw [hC.survives_iff (by omega) sizes]
    simp only [hharm, hfour, true_and]
    exact ⟨Or.inr, fun hor => hor.elim (fun hzero n hn => Or.inl (hzero n hn)) id⟩
  · rw [hA.mmInit_refused (by omega)] at hinit
    cases hinit
    simp only [hfour, false_and, or_false]
    induction sizes with
    | nil => simp [Survives.nil]
    | cons n sizes ih =>
      rw [List.forall_mem_cons, ← ih]
      by_cases hn : n = 0
      · subst hn
        rw [survives_zero_cons]
        simp
      · obtain ⟨f, hrun⟩ := hA.mmMalloc_refused hn
        simp [hn, not_survives_of_error hrun]

end Available

def sampleUsed (avail : UInt64) : Heap :=
  { sampleArena with memBrk := sampleArena.memMaxAddr - avail }

/-- 64 bytes take the prologue but no block. -/
theorem survives_sampleUsed : ∃ h1, mmInit (sampleUsed 64) = .ok (0, h1) ∧
    (Survives h1 [1, 5000] ↔ (∀ n ∈ ([1, 5000] : List UInt64), n = 0) ∨
      (32 ≤ 64 ∧ ∀ n ∈ ([1, 5000] : List UInt64), n = 0 ∨
        Harmless ((sampleUsed 64).raise 32) (extendsize n).toNat)) := by
  have hA : Available (sampleUsed 64) 64 := ⟨by decide, by decide, by decide, by decide⟩
  obtain ⟨h1, -, hless, -⟩ := hA.mmInit_chain (by decide)
  exact ⟨h1, hless (by decide), hA.failedInit_iff (hless (by decide)) [1, 5000]⟩

/-- With nothing left, the next request reads below `(void *)-1`. -/
theorem not_survives_sampleUsed : Available (sampleUsed 0) 0 ∧
    mmInit (sampleUsed 0) = .ok (0, { sampleUsed 0 with heapListp := SBRK_FAILED }) ∧
    ¬ Survives { sampleUsed 0 with heapListp := SBRK_FAILED } [1] := by
  have hA : Available (sampleUsed 0) 0 := ⟨by decide, by decide, by decide, by decide⟩
  obtain ⟨f, hrun⟩ := hA.mmMalloc_refused (show (1 : UInt64) ≠ 0 by decide)
  exact ⟨hA, hA.mmInit_refused (by decide), not_survives_of_error hrun⟩

end Orga.Malloc
