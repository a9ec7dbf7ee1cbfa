import Orga.Malloc.Integrity

/-! The two ways a request can end: it fails and nothing has happened, or `mm_realloc` hands
over the data. -/
namespace Orga.Malloc
open Relation

/-- A call that left the heap as it was. -/
structure Unchanged (s : State) (h' : Heap) : Prop where
  bytes : ∀ a, h'.bytes a = s.heap.bytes a
  brk : h'.memBrk = s.heap.memBrk
  listp : h'.heapListp = s.heap.heapListp
  state : (⟨h', s.live⟩ : State) = s
  later : ∀ t, ReflTransGen Step ⟨h', s.live⟩ t ↔ ReflTransGen Step s t

theorem Unchanged.refl (s : State) : Unchanged s s.heap :=
  ⟨fun _ => rfl, rfl, rfl, rfl, fun _ => Iff.rfl⟩

/-- A request that cannot be served leaves no trace, and the pointer that was to be resized
stays live. -/
theorem Reachable.failure {s : State} (hs : Reachable s) {n : UInt64} (hn : n ≠ 0)
    (hfit : Fits n) :
    (∃ p h', mmMalloc s.heap n = .ok (p, h') ∧ (p = NULL → Unchanged s h')) ∧
    ∀ p m, (p, m) ∈ s.live → ∃ q h', mmRealloc s.heap p n = .ok (q, h') ∧
      (q = NULL → Unchanged s h' ∧ IsLive ⟨h', s.live⟩ p ∧ Untouched s.heap h' p m) := by
  obtain ⟨bs, hv⟩ := hs.valid
  obtain ⟨h1, hrun1, hserved⟩ := hv.layout.mmMalloc hn hfit
  constructor
  · refine ⟨_, h1, hrun1, fun hnull => ?_⟩
    rw [hserved.failed (hserved.pointer_eq_null.mp hnull)]
    exact .refl s
  · intro p m hp
    obtain ⟨x, t, ha, rfl, -⟩ := hv.live_block hp
    obtain ⟨h', hrun, hfail, -⟩ := hv.layout.mmRealloc ha hn hfit
    refine ⟨_, h', hrun, fun hnull => ?_⟩
    rw [hfail (hserved.pointer_eq_null.mp hnull)]
    exact ⟨.refl s, ⟨m, hp⟩, fun i _ => rfl⟩

theorem failure_sampleState : (mmMalloc sampleState.heap 100000000).map Prod.fst = .ok NULL ∧
    (∃ p h', mmMalloc sampleState.heap 100000000 = .ok (p, h') ∧
      (p = NULL → Unchanged sampleState h')) ∧
    ∀ p m, (p, m) ∈ sampleState.live →
      ∃ q h', mmRealloc sampleState.heap p 100000000 = .ok (q, h') ∧
        (q = NULL → Unchanged sampleState h' ∧ IsLive ⟨h', sampleState.live⟩ p ∧
          Untouched sampleState.heap h' p m) :=
  ⟨by decide +kernel, reachable_sampleState.failure (by decide) (by decide)⟩

theorem memcpy_eq_ok {h h' : Heap} {dest src n : UInt64} (hrun : memcpy h dest src n = .ok h') :
    InHeap h dest.toNat n.toNat ∧ InHeap h src.toNat n.toNat ∧
      Apart src.toNat n.toNat dest.toNat n.toNat := by
  unfold memcpy at hrun
  split_ifs at hrun with hdest hsrc hover
  unfold Apart
  exact ⟨hdest, hsrc, by omega⟩

/-- The steps of a `mm_realloc` that succeeds: the copy of `k` bytes runs between two blocks
of the heap that `mm_malloc` left. -/
structure Copied (h h' : Heap) (p m q : UInt64) (h1 h2 : Heap) (k : UInt64) : Prop where
  malloc : mmMalloc h m = .ok (q, h1)
  length : ∃ old, blockSize h1 (obtenerHeader p) = .ok old ∧ k = if old > m then m else old
  memcpy : memcpy h1 q p k = .ok h2
  free : mmFree h2 p = .ok h'
  source : InHeap h1 p.toNat k.toNat
  dest : InHeap h1 q.toNat k.toNat
  apart : Apart p.toNat k.toNat q.toNat k.toNat

theorem Valid.copied {s : State} {bs : List Bloque} (hv : Valid s bs) {p n m q : UInt64}
    {h' : Heap} (hp : (p, n) ∈ s.live) (hm : m ≠ 0) (hfit : Fits m)
    (hrun : Malloc.mmRealloc s.heap p m = .ok (q, h')) (hq : q ≠ NULL) :
    ∃ h1 h2 k, Copied s.heap h' p m q h1 h2 k := by
  rw [hv.mmRealloc_eq hp hm] at hrun
  obtain ⟨⟨q1, h1⟩, hmalloc, hrun⟩ := bind_eq_ok hrun
  dsimp only at hrun
  split_ifs at hrun with hnull
  · cases hrun
    exact absurd rfl hq
  obtain ⟨q', h1', bs1, hmalloc', hv1, -⟩ := hv.mmMalloc hfit
  cases hmalloc.symm.trans hmalloc'
  rw [if_neg hnull] at hv1
  rw [hv1.checkHeap_live List.mem_cons_self, ok_bind] at hrun
  obtain ⟨old, hold, hrun⟩ := bind_eq_ok hrun
  obtain ⟨h2, hcopy, hrun⟩ := bind_eq_ok hrun
  obtain ⟨h3, hfree, hrun⟩ := bind_eq_ok hrun
  cases hrun
  obtain ⟨hdest, hsource, hapart⟩ := memcpy_eq_ok hcopy
  exact ⟨h1, h2, _, hmalloc, ⟨old, hold, rfl⟩, hcopy, hfree, hsource, hdest, hapart⟩

/-- The data moved from `p` to `q`, which takes its place among the live pointers. -/
structure Reallocated (s : State) (p n m q : UInt64) (h' : Heap) : Prop where
  data : ∀ i < min n.toNat m.toNat, h'.bytes (q.toNat + i) = s.heap.bytes (p.toNat + i)
  copied : ∃ h1 h2 k, Copied s.heap h' p m q h1 h2 k
  fresh : ¬ IsLive s q
  reachable : Reachable ⟨h', (q, m) :: forget p s.live⟩
  dead : ¬ IsLive ⟨h', (q, m) :: forget p s.live⟩ p
  others : ∀ r k, (r, k) ∈ s.live → r ≠ p →
    (r, k) ∈ (q, m) :: forget p s.live ∧ Untouched s.heap h' r k

/-- A `mm_realloc` that succeeds preserves the data. -/
theorem Reachable.reallocated {s : State} (hs : Reachable s) {p n m : UInt64}
    (hp : (p, n) ∈ s.live) (hm : m ≠ 0) (hfit : Fits m) :
    ∃ q h', mmRealloc s.heap p m = .ok (q, h') ∧ (q ≠ NULL → Reallocated s p n m q h') := by
  obtain ⟨bs, hv⟩ := hs.valid
  obtain ⟨q, h', bs', hrun, hv', hu⟩ := hv.mmRealloc (Or.inr ⟨n, hp⟩) hfit
  refine ⟨q, h', hrun, fun hq => ?_⟩
  have hstep := hs.step (.realloc (Or.inr ⟨n, hp⟩) hfit hrun)
  rw [if_neg hm, if_neg hq] at hstep
  obtain ⟨x, t, ha, rfl, hpx, hn, hlo, hhi⟩ := hv.live_block hp
  obtain ⟨h1, -, hserved⟩ := hv.layout.mmMalloc hm hfit
  obtain ⟨h'', hrun', -, hmoved⟩ := hv.layout.mmRealloc ha hm hfit
  cases hrun.symm.trans hrun'
  cases habs : (abstractMalloc (room s.heap) (requestSize m.toNat) bs).1 with
  | none =>
    rw [hserved.pointer_eq_null.mpr habs] at hq
    exact absurd rfl hq
  | some o =>
    have hm' := hmoved o habs
    have hlt := hserved.offset_lt habs
    have hqo : (pointer s.heap (some o)).toNat = base s.heap + o + 8 := toNat_ofNat_of_lt hlt
    have hfresh : ¬ IsLive s (pointer s.heap (some o)) := by
      rintro ⟨k, hk⟩
      obtain ⟨y, u, hy, heq⟩ := hv.ledger.block_of_live hk
      obtain ⟨-, -, hnone, -⟩ := hm'.allocated
      obtain rfl := payload_inj hlt (hv.ledger.small y u hy) heq
      exact hnone u hy
    rw [habs] at hq hrun hstep
    refine ⟨fun i hi => ?_, hv.copied hp hm hfit hrun hq, hfresh, hstep, ?_, fun r k hr hne => ?_⟩
    · obtain ⟨hin, him⟩ := lt_min_iff.mp hi
      rw [hqo, hpx]
      exact hm'.copied i him (by omega)
    · rintro ⟨k, hk⟩
      rcases List.mem_cons.mp hk with heq | hk
      · exact hfresh ⟨n, (Prod.mk.inj heq).1 ▸ hp⟩
      · exact (mem_forget.mp hk).2 rfl
    · exact ⟨List.mem_cons_of_mem _ (mem_forget.mpr ⟨hr, hne⟩), hu r k hr hne⟩

theorem reallocated_sampleState : ∃ q h', mmRealloc sampleState.heap 65568 200 = .ok (q, h') ∧
    (q ≠ NULL → Reallocated sampleState 65568 24 200 q h') :=
  reachable_sampleState.reallocated (by decide +kernel) (by decide) (by decide)

end Orga.Malloc
