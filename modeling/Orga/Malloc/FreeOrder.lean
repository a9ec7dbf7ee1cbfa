import Orga.Malloc.Canonical
import Orga.Malloc.Chains

/-! Live blocks given back in any order leave the same list of blocks, and heaps with the same
list serve all later requests alike. -/
namespace Orga.Malloc

/-- `mm_free` on each pointer in turn. -/
def freeAll (h : Heap) (ps : List UInt64) : Except Fault Heap := ps.foldlM mmFree h

theorem freeAll_cons {h h1 : Heap} {p : UInt64} (ps : List UInt64) (hrun : mmFree h p = .ok h1) :
    freeAll h (p :: ps) = freeAll h1 ps := by
  rw [freeAll, List.foldlM_cons, hrun]
  rfl

theorem Layout.payload_eq_iff {h : Heap} {bs : List Bloque} (hL : Layout h bs) {x s y t : ℕ}
    (hx : Allocated (base h) bs x s) (hy : Allocated (base h) bs y t) :
    payload x = payload y ↔ x = y := by
  have hlt := hL.total_lt
  have hxb := hx.bounds
  have hyb := hy.bounds
  exact ⟨payload_inj (by omega) (by omega), fun heq => heq ▸ rfl⟩

/-- Allocated blocks given back one after another: what stays allocated does not depend on the
order. -/
theorem Layout.freeAll {h : Heap} {bs : List Bloque} (hL : Layout h bs) (hc : Coalesced bs)
    {ps : List UInt64} (hnd : ps.Nodup)
    (hall : ∀ p ∈ ps, ∃ x t, Allocated (base h) bs x t ∧ p = payload x) :
    ∃ h' cs, Malloc.freeAll h ps = .ok h' ∧ Layout h' cs ∧ Coalesced cs ∧ OnlyBytes h h' ∧
      ∀ x t, Allocated (base h) cs x t ↔ Allocated (base h) bs x t ∧ payload x ∉ ps := by
  induction ps generalizing h bs with
  | nil => exact ⟨h, bs, rfl, hL, hc, rfl, by simp⟩
  | cons p ps ih =>
    obtain ⟨hp, hnd'⟩ := List.nodup_cons.mp hnd
    obtain ⟨hfst, hrest⟩ := List.forall_mem_cons.mp hall
    obtain ⟨x, t, hx, rfl⟩ := hfst
    obtain ⟨h1, hrun, hfreed⟩ := hL.mmFree hx
    have hbase := hfreed.bytes.base_eq
    have hc1 : Coalesced (abstractFree (x - base h) bs) := hc.abstractFree _
    have hall1 : ∀ q ∈ ps, ∃ y u, Allocated (base h1) (abstractFree (x - base h) bs) y u ∧
        q = payload y := by
      intro q hq
      obtain ⟨y, u, hy, rfl⟩ := hrest q hq
      rw [hbase]
      refine ⟨y, u, (hfreed.allocated y u).mpr ⟨hy, ?_⟩, rfl⟩
      rintro rfl
      exact hp hq
    obtain ⟨h', cs, hrun', hL', hc', hbytes, hal⟩ := ih hfreed.layout hc1 hnd' hall1
    refine ⟨h', cs, by rw [freeAll_cons ps hrun, hrun'], hL', hc',
      hfreed.bytes.trans hbytes, fun y u => ?_⟩
    rw [← hbase, hal, hbase, hfreed.allocated, List.mem_cons, not_or, and_assoc]
    refine and_congr_right fun hy => and_congr_left fun _ => not_congr ?_
    exact (hL.payload_eq_iff hy hx).symm

/-- What a header says of a block. -/
def Bloque.tile (b : Bloque) : Tile := ⟨b.size.1, b.alloc⟩

@[simp] theorem extent_tile (bs : List Bloque) : extent (bs.map Bloque.tile) = total bs := by
  simp [extent, total, Bloque.tile, Function.comp_def]

theorem Segment.headers {h : Heap} {c : ℕ} {bs : List Bloque} (hs : Segment h c bs) :
    Headers h c (bs.map Bloque.tile) := by
  induction bs generalizing c with
  | nil => trivial
  | cons b bs ih => exact ⟨hs.1.header, hs.1.size, ih hs.2⟩

theorem Layout.chain {h : Heap} {bs : List Bloque} (hL : Layout h bs) (hf : FullArena h) :
    Chain h h.memStartBrk.toNat h.memMaxAddr.toNat (⟨16, true⟩ :: bs.map Bloque.tile) := by
  have hbase : base h = h.memStartBrk.toNat + 8 + 16 := rfl
  have hext : extent (⟨16, true⟩ :: bs.map Bloque.tile) = 16 + total bs := by simp
  have hpos : h.memStartBrk.toNat + 8 + (16 + total bs) = base h + total bs := by omega
  constructor
  case start => exact le_rfl
  case maxAddr => rfl
  case user => exact hL.arena.user
  case small => exact hf.le
  case listp => exact hL.listp
  case headers => exact ⟨hL.prologue.header, le_rfl, hL.blocks.headers⟩
  case epilogue =>
    rw [hext, hpos]
    exact hL.epilogue
  case brk =>
    rw [hext, hpos]
    exact hL.brk
  case brk_le => exact hL.brk_le
  case last =>
    rw [hext, hpos]
    rcases List.eq_nil_or_concat' bs with rfl | ⟨pre, b, rfl⟩
    · exact ⟨[], ⟨16, true⟩, rfl, hL.prologue.footer⟩
    · have hb := (segment_append.mp hL.blocks).2.1.footer
      refine ⟨⟨16, true⟩ :: pre.map Bloque.tile, b.tile, by simp, ?_⟩
      rw [total_append, total_cons, total_nil, Nat.add_zero, ← Nat.add_assoc]
      exact hb

/-- The order of frees does not matter: it leads to the same list of blocks and, on the arena of
`mem_init`, to the same answers to all later requests. -/
theorem Reachable.freeAll_perm {s : State} (hs : Reachable s) {ps qs : List UInt64}
    (hperm : ps.Perm qs) (hnd : ps.Nodup) (hlive : ∀ p ∈ ps, IsLive s p) :
    ∃ h₁ h₂ bs, freeAll s.heap ps = .ok h₁ ∧ freeAll s.heap qs = .ok h₂ ∧
      Layout h₁ bs ∧ Layout h₂ bs ∧ SameArena h₁ h₂ ∧
      (FullArena s.heap → ∀ sizes, addresses h₁ sizes = addresses h₂ sizes) := by
  obtain ⟨bs, hv, hc⟩ := hs.coalesced
  have hall : ∀ p ∈ ps, ∃ x t, Allocated (base s.heap) bs x t ∧ p = payload x := by
    intro p hp
    obtain ⟨n, hn⟩ := hlive p hp
    exact hv.ledger.block_of_live hn
  obtain ⟨h₁, cs, hrun₁, hL₁, hc₁, hb₁, hal₁⟩ := hv.layout.freeAll hc hnd hall
  obtain ⟨h₂, ds, hrun₂, hL₂, hc₂, hb₂, hal₂⟩ := hv.layout.freeAll hc (hperm.nodup_iff.mp hnd)
    fun q hq => hall q (hperm.mem_iff.mpr hq)
  have hsame : SameArena h₁ h₂ := by
    unfold SameArena
    rw [hb₁, hb₂]
  -- both lists fill the same arena and have lost the same blocks
  have heq : ds = cs := by
    have hbrk₁ := hL₁.brk
    have hbrk₂ := hL₂.brk
    have hmem : h₂.memBrk = h₁.memBrk := by rw [hb₁, hb₂]
    rw [hb₁.base_eq] at hbrk₁
    rw [hb₂.base_eq, hmem] at hbrk₂
    apply hc₂.ext hc₁ (by omega)
    intro x t
    rw [hal₁, hal₂, hperm.mem_iff]
  subst heq
  refine ⟨h₁, h₂, ds, hrun₁, hrun₂, hL₁, hL₂, hsame, fun hf sizes => ?_⟩
  have hf₁ : FullArena h₁ := hb₁.sameArena.fullArena hf
  have hC₁ := hL₁.chain hf₁
  have hC₂ := hL₂.chain (hsame.fullArena hf₁)
  have hstart : h₂.memStartBrk = h₁.memStartBrk := by rw [hsame]
  have hmax : h₂.memMaxAddr = h₁.memMaxAddr := by rw [hsame]
  rw [hstart, hmax] at hC₂
  exact hC₁.addresses_eq hC₂ sizes

/-- Between the two blocks of the sample run lies a free one. -/
theorem freeAll_perm_sampleState :
    ∃ h₁ h₂ bs, freeAll sampleState.heap [65568, 65696] = .ok h₁ ∧
      freeAll sampleState.heap [65696, 65568] = .ok h₂ ∧
      Layout h₁ bs ∧ Layout h₂ bs ∧ SameArena h₁ h₂ ∧
      ∀ sizes, addresses h₁ sizes = addresses h₂ sizes := by
  have hf : FullArena sampleState.heap := by decide +kernel
  have hfst : IsLive sampleState 65568 := ⟨24, by decide +kernel⟩
  have hsnd : IsLive sampleState 65696 := ⟨5000, by decide +kernel⟩
  have hlive : ∀ p ∈ ([65568, 65696] : List UInt64), IsLive sampleState p :=
    List.forall_mem_cons.mpr ⟨hfst, List.forall_mem_cons.mpr ⟨hsnd, by simp⟩⟩
  obtain ⟨h₁, h₂, bs, hrun₁, hrun₂, hL₁, hL₂, hsame, hsizes⟩ :=
    reachable_sampleState.freeAll_perm (.swap _ _ _) (by decide) hlive
  exact ⟨h₁, h₂, bs, hrun₁, hrun₂, hL₁, hL₂, hsame, hsizes hf⟩

end Orga.Malloc
