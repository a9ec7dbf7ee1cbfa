import Orga.Malloc.Driver

/-! The heap of a run as `proximo_bloque` sees it: a walk from the block after the prologue
to the epilogue below the break, over blocks that tile the space between. -/
namespace Orga.Malloc
open Relation

/-- `proximo_bloque`, applied from `p` on, visits the blocks `ps` and stops at `q`. -/
inductive Walk (h : Heap) : UInt64 → List UInt64 → UInt64 → Prop where
  | nil (p : UInt64) : Walk h p [] p
  | cons {p p' q : UInt64} {ps : List UInt64} (hnext : proximoBloque h p = .ok p')
      (hwalk : Walk h p' ps q) : Walk h p (p :: ps) q

/-- Blocks, given by pointer and size, fill `[lo, hi)`: the header of each lies where the
block before it ends. -/
def Tiles : ℕ → List (UInt64 × ℕ) → ℕ → Prop
  | lo, [], hi => lo = hi
  | lo, (p, size) :: blocks, hi => p.toNat = lo + 8 ∧ Tiles (lo + size) blocks hi

/-- The header of `p` says `size`, and the footer repeats it. -/
structure WellTagged (h : Heap) (p : UInt64) (size : ℕ) : Prop where
  aligned : 16 ∣ size
  large : 32 ≤ size
  sized : ∃ w, blockSize h (obtenerHeader p) = .ok w ∧ w.toNat = size
  tagged : ∃ w, obtenerWord h (obtenerHeader p) = .ok w ∧
    (obtenerFooter h p >>= obtenerWord h) = .ok w

/-- The invariant of the implicit list, with the blocks of the walk as pointers and sizes. -/
structure HeapInvariant (s : State) (blocks : List (UInt64 × ℕ)) : Prop where
  walk : ∃ p, proximoBloque s.heap s.heap.heapListp = .ok p ∧
    Walk s.heap p (blocks.map Prod.fst) s.heap.memBrk
  epilogue : obtenerWord s.heap (s.heap.memBrk - 8) = .ok 1
  tiles : Tiles (s.heap.heapListp.toNat + 8) blocks (s.heap.memBrk.toNat - 8)
  tags : ∀ p size, (p, size) ∈ blocks → WellTagged s.heap p size
  live : ∀ p, (∃ size, (p, size) ∈ blocks ∧ isAllocated s.heap (obtenerHeader p) = .ok true) ↔
    IsLive s p

/-- The blocks of `bs` as pointers and sizes when the first header is at `c`. -/
def visited : ℕ → List Bloque → List (UInt64 × ℕ)
  | _, [] => []
  | c, b :: bs => (payload c, b.size.1) :: visited (c + b.size.1) bs

section Segment
variable {h : Heap} {c : ℕ} {bs : List Bloque}

theorem Segment.walk (hs : Segment h c bs) :
    Walk h (payload c) ((visited c bs).map Prod.fst) (payload (c + total bs)) := by
  induction bs generalizing c with
  | nil => exact .nil _
  | cons b bs ih =>
    have htail := ih hs.2
    rw [Nat.add_assoc] at htail
    exact .cons hs.1.header.proximoBloque htail

theorem tiles_visited (hlt : c + total bs + 8 < 2 ^ 64) :
    Tiles c (visited c bs) (c + total bs) := by
  induction bs generalizing c with
  | nil => rfl
  | cons b bs ih =>
    rw [total_cons, ← Nat.add_assoc] at hlt ⊢
    exact ⟨toNat_ofNat_of_lt (by omega), ih hlt⟩

theorem Block.wellTagged {s : ℕ} {b : Bool} (hb : Block h c s b) (hs : 32 ≤ s) :
    WellTagged h (payload c) s where
  aligned := hb.header.aligned
  large := hs
  sized := by
    have hlt := hb.header.lt
    refine ⟨UInt64.ofNat s, ?_, toNat_ofNat_of_lt (by omega)⟩
    rw [obtenerHeader_payload, hb.header.blockSize]
  tagged := by
    refine ⟨UInt64.ofNat (s + b.toNat), ?_, ?_⟩
    · rw [obtenerHeader_payload, hb.header.obtenerWord]
    · rw [hb.obtenerFooter, ok_bind, hb.footer.obtenerWord]

theorem mem_visited {p : UInt64} {size : ℕ} :
    (p, size) ∈ visited c bs ↔ ∃ x b, Placed c bs x b ∧ p = payload x ∧ size = b.size.1 := by
  induction bs generalizing c with
  | nil => simp [visited, Placed]
  | cons d bs ih =>
    rw [visited, List.mem_cons, ih, Prod.mk.injEq]
    constructor
    · rintro (⟨rfl, rfl⟩ | ⟨x, b, hb, hp⟩)
      · exact ⟨c, d, placed_cons.mpr (Or.inl ⟨rfl, rfl⟩), rfl, rfl⟩
      · exact ⟨x, b, placed_cons.mpr (Or.inr hb), hp⟩
    · rintro ⟨x, b, hb, hp⟩
      rcases placed_cons.mp hb with ⟨rfl, rfl⟩ | hb
      · exact Or.inl hp
      · exact Or.inr ⟨x, b, hb, hp⟩

end Segment

theorem Layout.heapListp_toNat {h : Heap} {bs : List Bloque} (hL : Layout h bs) :
    h.heapListp.toNat + 8 = base h := by
  have hlt := hL.prologue.inHeap.lt
  rw [hL.listp, payload, toNat_ofNat_of_lt (by omega)]
  rfl

theorem Valid.toHeapInvariant {s : State} {bs : List Bloque} (hv : Valid s bs) :
    HeapInvariant s (visited (base s.heap) bs) where
  walk := by
    have hL := hv.layout
    refine ⟨payload (base s.heap), ?_, ?_⟩
    · rw [hL.listp, hL.prologue.header.proximoBloque]
      rfl
    · rw [hL.memBrk_eq]
      exact hL.blocks.walk
  epilogue := by
    have hL := hv.layout
    rw [hL.memBrk_eq]
    show obtenerWord s.heap (payload _ - WSIZE) = _
    rw [payload_sub_WSIZE, hL.epilogue.obtenerWord]
    rfl
  tiles := by
    have hL := hv.layout
    have hlt := hL.total_lt
    rw [hL.heapListp_toNat, hL.brk, Nat.add_sub_cancel]
    exact tiles_visited (by omega)
  tags p size hp := by
    obtain ⟨x, b, hb, rfl, rfl⟩ := mem_visited.mp hp
    exact (hb.block hv.layout.blocks).wellTagged b.size.2.2
  live p := by
    constructor
    · rintro ⟨size, hp, halloc⟩
      obtain ⟨x, b, hb, rfl, rfl⟩ := mem_visited.mp hp
      rw [obtenerHeader_payload, (hb.block hv.layout.blocks).header.isAllocated] at halloc
      exact hv.ledger.owned x _ (allocated_iff.mpr ⟨b, hb, Except.ok.inj halloc, rfl⟩)
    · rintro ⟨n, hn⟩
      obtain ⟨x, t, ha, rfl, -⟩ := hv.ledger.backed p n hn
      obtain ⟨b, hb, halloc, rfl⟩ := allocated_iff.mp ha
      refine ⟨_, mem_visited.mpr ⟨x, b, hb, rfl, rfl⟩, ?_⟩
      rw [obtenerHeader_payload, (hb.block hv.layout.blocks).header.isAllocated, halloc]

/-- In every state of a run the implicit list is intact. -/
theorem Reachable.heapInvariant {s : State} (hs : Reachable s) :
    ∃ blocks, HeapInvariant s blocks := by
  obtain ⟨bs, hv⟩ := hs.valid
  exact ⟨_, hv.toHeapInvariant⟩

theorem heapInvariant_sampleState : ∃ blocks, HeapInvariant sampleState blocks :=
  reachable_sampleState.heapInvariant

end Orga.Malloc
