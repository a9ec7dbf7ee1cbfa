import Orga.Malloc.Outcomes

/-! What `mm_realloc` reads. The copy takes its length from the size of the block, which counts
the two tags as well. -/
namespace Orga.Malloc

theorem le_appendFree {e m : Size} {bs pre : List Bloque}
    (h : appendFree e bs = pre ++ [⟨m, false⟩]) : e.1 ≤ m.1 := by
  rcases List.eq_nil_or_concat' bs with rfl | ⟨pre', ⟨s, alloc⟩, rfl⟩
  · have h' : [] ++ [⟨e, false⟩] = pre ++ [⟨m, false⟩] := h
    obtain ⟨-, hlast⟩ := List.append_inj' h' rfl
    cases hlast
    exact le_rfl
  · cases alloc with
    | false =>
      rw [appendFree_free] at h
      obtain ⟨-, hlast⟩ := List.append_inj' h rfl
      cases hlast
      exact Nat.le_add_left _ _
    | true =>
      rw [appendFree_alloc, List.append_cons] at h
      obtain ⟨-, hlast⟩ := List.append_inj' h rfl
      cases hlast
      exact le_rfl

theorem le_growth_self (a : Size) : a.1 ≤ a.growth.1 := by
  unfold Size.growth
  split_ifs with h
  · exact h.le
  · exact le_rfl

theorem abstractMalloc_eq_none {r : ℕ} {a : Size} {bs : List Bloque} :
    (abstractMalloc r a bs).1 = none ↔
      (∀ b ∈ bs, b.alloc = false → b.size.1 < a.1) ∧ r < total bs + a.growth.1 := by
  have hnone : (∀ b ∈ bs, b.alloc = false → b.size.1 < a.1) ↔ firstFit a bs = none := by
    simp [firstFit_eq_none]
  rw [hnone]
  cases hff : firstFit a bs with
  | some q =>
    obtain ⟨o, cs⟩ := q
    rw [abstractMalloc_fit hff]
    simp
  | none =>
    by_cases hroom : total bs + a.growth.1 ≤ r
    · obtain ⟨pre, m, heq, -⟩ := appendFree_prefix a.growth bs
      have hm := (le_growth_self a).trans (le_appendFree heq)
      rw [abstractMalloc_grow hff hroom (firstFit_appendFree hff heq hm)]
      simp [hroom]
    · rw [abstractMalloc_full hff hroom]
      simp
      omega

/-- What `mm_realloc` copies from `p`, if it copies anything, lies in the payload of a block of
`size` bytes. -/
def CopiesPayload (h : Heap) (p m size : UInt64) : Prop :=
  ∃ q h', mmRealloc h p m = .ok (q, h') ∧ (q ≠ NULL → ∃ h1 h2 k,
    Copied h h' p m q h1 h2 k ∧ p.toNat + k.toNat ≤ p.toNat + size.toNat - 16)

theorem Copied.length_eq {h h' h1 h2 : Heap} {bs : List Bloque} {x t : ℕ} {m q k : UInt64}
    (hc : Copied h h' (payload x) m q h1 h2 k) (hL : Layout h bs)
    (ha : Allocated (base h) bs x t) (hm : m ≠ 0) (hfit : Fits m) (hq : q ≠ NULL) :
    k = if UInt64.ofNat t > m then m else UInt64.ofNat t := by
  obtain ⟨h1', hrun, hserved⟩ := hL.mmMalloc hm hfit
  cases hc.malloc.symm.trans hrun
  cases habs : (abstractMalloc (room h) (requestSize m.toNat) bs).1 with
  | none => exact absurd (hserved.pointer_eq_null.mpr habs) hq
  | some o =>
    -- the block of `p` is still there after `mm_malloc`
    obtain ⟨u, -, -, hal⟩ := hserved.granted o habs
    have ha1 := (hal (base h) x t).mpr (Or.inl ha)
    rw [← hserved.arena.base_eq] at ha1
    obtain ⟨old, hold, hk⟩ := hc.length
    rw [obtenerHeader_payload, (ha1.block hserved.layout.blocks).header.blockSize] at hold
    cases hold
    exact hk

theorem toNat_copyLength (size m : UInt64) :
    (if size > m then m else size).toNat = min m.toNat size.toNat := by
  split_ifs with hlt
  · rw [gt_iff_lt, UInt64.lt_iff_toNat_lt] at hlt
    omega
  · rw [gt_iff_lt, UInt64.lt_iff_toNat_lt] at hlt
    omega

/-- The copy keeps to the payload exactly when the request is shorter than the block by the two
tags, or nothing is copied because no block can be found. -/
theorem Reachable.copiesPayload_iff {s : State} (hs : Reachable s) {p n m : UInt64}
    (hp : (p, n) ∈ s.live) (hm : m ≠ 0) (hfit : Fits m) :
    ∃ bs size, Layout s.heap bs ∧ blockSize s.heap (obtenerHeader p) = .ok size ∧
      (CopiesPayload s.heap p m size ↔ m.toNat + 16 ≤ size.toNat ∨
        (∀ b ∈ bs, b.alloc = false → b.size.1 < (requestSize m.toNat).1) ∧
          room s.heap < total bs + (requestSize m.toNat).growth.1) := by
  obtain ⟨bs, hv⟩ := hs.valid
  obtain ⟨x, t, ha, rfl, -, -, -, -⟩ := hv.live_block hp
  have hown := ha.block hv.layout.blocks
  have hsize : blockSize s.heap (obtenerHeader (payload x)) = .ok (UInt64.ofNat t) := by
    rw [obtenerHeader_payload, hown.header.blockSize]
  have ht : (UInt64.ofNat t).toNat = t := toNat_ofNat_of_lt (by have := hown.inHeap.lt; omega)
  obtain ⟨h1, -, hserved⟩ := hv.layout.mmMalloc hm hfit
  obtain ⟨h', hrun, -, -⟩ := hv.layout.mmRealloc ha hm hfit
  have h32 := ha.bounds.2.2.1
  refine ⟨bs, UInt64.ofNat t, hv.layout, hsize, ?_⟩
  rw [← abstractMalloc_eq_none, ← hserved.pointer_eq_null, ht]
  constructor
  · rintro ⟨q, h'', hrun', hcopy⟩
    cases hrun.symm.trans hrun'
    by_cases hq : pointer s.heap (abstractMalloc (room s.heap) (requestSize m.toNat) bs).1 = NULL
    · exact Or.inr hq
    · obtain ⟨h1, h2, k, hc, hle⟩ := hcopy hq
      rw [hc.length_eq hv.layout ha hm hfit hq, toNat_copyLength, ht] at hle
      exact Or.inl (by omega)
  · intro hcond
    refine ⟨_, h', hrun, fun hq => ?_⟩
    obtain ⟨h1, h2, k, hc⟩ := hv.copied hp hm hfit hrun hq
    refine ⟨h1, h2, k, hc, ?_⟩
    have hle := hcond.resolve_right hq
    rw [hc.length_eq hv.layout ha hm hfit hq, toNat_copyLength, ht]
    omega

/-- 200 bytes for a block of 48, which was requested with 24: the copy takes all 48, the footer
and the header after it included. -/
theorem not_copiesPayload_sampleState : IsLive sampleState 65568 ∧
    blockSize sampleState.heap (obtenerHeader 65568) = .ok 48 ∧
    ¬ CopiesPayload sampleState.heap 65568 200 48 := by
  have hp : ((65568, 24) : UInt64 × UInt64) ∈ sampleState.live := by decide +kernel
  have hsize : blockSize sampleState.heap (obtenerHeader 65568) = .ok 48 := by decide +kernel
  refine ⟨⟨24, hp⟩, hsize, ?_⟩
  rintro ⟨q, h', hrun, hcopy⟩
  obtain ⟨bs, hv⟩ := reachable_sampleState.valid
  obtain ⟨x, t, ha, hx, hpx, -, -, -⟩ := hv.live_block hp
  have hq : q ≠ NULL := by
    have hserved : (mmRealloc sampleState.heap 65568 200).map Prod.fst ≠ .ok NULL := by
      decide +kernel
    rintro rfl
    rw [hrun] at hserved
    exact hserved rfl
  have ht : UInt64.ofNat t = 48 := by
    rw [hx, obtenerHeader_payload, (ha.block hv.layout.blocks).header.blockSize] at hsize
    exact Except.ok.inj hsize
  obtain ⟨h1, h2, k, hc, hle⟩ := hcopy hq
  rw [hx] at hc
  rw [hc.length_eq hv.layout ha (by decide) (by decide) hq, ht] at hle
  exact absurd hle (by decide)

/-- 30 bytes for the same block. -/
theorem copiesPayload_sampleState :
    ∃ bs size, Layout sampleState.heap bs ∧
      blockSize sampleState.heap (obtenerHeader 65568) = .ok size ∧
      (CopiesPayload sampleState.heap 65568 30 size ↔ (30 : UInt64).toNat + 16 ≤ size.toNat ∨
        (∀ b ∈ bs, b.alloc = false → b.size.1 < (requestSize (30 : UInt64).toNat).1) ∧
          room sampleState.heap < total bs + (requestSize (30 : UInt64).toNat).growth.1) :=
  reachable_sampleState.copiesPayload_iff (n := 24) (by decide +kernel) (by decide) (by decide)

end Orga.Malloc
