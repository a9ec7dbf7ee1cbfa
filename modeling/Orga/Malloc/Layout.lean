import Orga.Malloc.Coalesce
import Orga.Malloc.FirstFit

/-! How a block list lies in memory: adjacent blocks from the word after the prologue up
to the epilogue, which is the last word below the break. -/
namespace Orga.Malloc

/-- The blocks lie one after another from `c` on. -/
def Segment (h : Heap) : ℕ → List Bloque → Prop
  | _, [] => True
  | c, b :: bs => Block h c b.size.1 b.alloc ∧ Segment h (c + b.size.1) bs

theorem segment_append {h : Heap} {c : ℕ} {bs cs : List Bloque} :
    Segment h c (bs ++ cs) ↔ Segment h c bs ∧ Segment h (c + total bs) cs := by
  induction bs generalizing c with
  | nil => simp [Segment]
  | cons b bs ih => simp only [List.cons_append, Segment, ih, total_cons, Nat.add_assoc, and_assoc]

theorem OnlyWithin.segment {h h' : Heap} {lo hi c : ℕ} {bs : List Bloque}
    (hw : OnlyWithin h h' lo hi) (hs : Segment h c bs) (hd : c + total bs ≤ lo ∨ hi ≤ c) :
    Segment h' c bs := by
  induction bs generalizing c with
  | nil => trivial
  | cons b bs ih =>
    rw [total_cons] at hd
    exact ⟨hw.block hs.1 (by omega), ih hs.2 (by omega)⟩

/-- The block `b` lies at `x` when `bs` starts at `c`. -/
def Placed (c : ℕ) (bs : List Bloque) (x : ℕ) (b : Bloque) : Prop :=
  ∃ pre post, bs = pre ++ b :: post ∧ x = c + total pre

theorem placed_cons {c x : ℕ} {b d : Bloque} {bs : List Bloque} :
    Placed c (b :: bs) x d ↔ (d = b ∧ x = c) ∨ Placed (c + b.size.1) bs x d := by
  constructor
  · rintro ⟨pre, post, h, rfl⟩
    cases pre with
    | nil =>
      cases h
      exact Or.inl ⟨rfl, rfl⟩
    | cons e pre =>
      obtain ⟨rfl, rfl⟩ := List.cons.inj h
      exact Or.inr ⟨pre, post, rfl, by simp [Nat.add_assoc]⟩
  · rintro (⟨rfl, rfl⟩ | ⟨pre, post, rfl, rfl⟩)
    · exact ⟨[], bs, rfl, rfl⟩
    · exact ⟨b :: pre, post, rfl, by simp [Nat.add_assoc]⟩

section Placed
variable {c x : ℕ} {bs : List Bloque} {b : Bloque}

theorem Placed.bounds (hp : Placed c bs x b) : c ≤ x ∧ x + b.size.1 ≤ c + total bs := by
  obtain ⟨pre, post, rfl, rfl⟩ := hp
  refine ⟨by omega, ?_⟩
  rw [total_append, total_cons]
  omega

theorem Placed.block {h : Heap} (hp : Placed c bs x b) (hs : Segment h c bs) :
    Block h x b.size.1 b.alloc := by
  obtain ⟨pre, post, rfl, rfl⟩ := hp
  exact (segment_append.mp hs).2.1

theorem Placed.disjoint {y : ℕ} {d : Bloque} (hb : Placed c bs x b) (hd : Placed c bs y d) :
    (x = y ∧ b = d) ∨ x + b.size.1 ≤ y ∨ y + d.size.1 ≤ x := by
  induction bs generalizing c with
  | nil =>
    obtain ⟨pre, post, h, -⟩ := hb
    simp at h
  | cons e bs ih =>
    rw [placed_cons] at hb hd
    rcases hb with ⟨rfl, rfl⟩ | hb <;> rcases hd with ⟨rfl, rfl⟩ | hd
    · exact Or.inl ⟨rfl, rfl⟩
    · exact Or.inr (Or.inl hd.bounds.1)
    · exact Or.inr (Or.inr hb.bounds.1)
    · exact ih hb hd

end Placed

/-- An allocated block of `s` bytes lies at `x` when `bs` starts at `c`. -/
def Allocated (c : ℕ) (bs : List Bloque) (x s : ℕ) : Prop :=
  ∃ pre size post, bs = pre ++ ⟨size, true⟩ :: post ∧ x = c + total pre ∧ s = size.1

section Allocated
variable {c x s : ℕ} {bs cs : List Bloque}

@[simp] theorem allocated_nil : ¬ Allocated c [] x s := by
  rintro ⟨pre, size, post, h, -⟩
  simp at h

theorem allocated_cons {b : Bloque} :
    Allocated c (b :: bs) x s ↔
      (b.alloc = true ∧ x = c ∧ s = b.size.1) ∨ Allocated (c + b.size.1) bs x s := by
  constructor
  · rintro ⟨pre, size, post, h, rfl, rfl⟩
    cases pre with
    | nil =>
      cases h
      exact Or.inl ⟨rfl, by simp, rfl⟩
    | cons d pre =>
      obtain ⟨rfl, rfl⟩ := List.cons.inj h
      exact Or.inr ⟨pre, size, post, rfl, by simp [Nat.add_assoc], rfl⟩
  · rintro (⟨hb, rfl, rfl⟩ | ⟨pre, size, post, rfl, rfl, rfl⟩)
    · obtain ⟨size, alloc⟩ := b
      cases hb
      exact ⟨[], size, bs, rfl, by simp, rfl⟩
    · exact ⟨b :: pre, size, post, rfl, by simp [Nat.add_assoc], rfl⟩

theorem allocated_append :
    Allocated c (bs ++ cs) x s ↔ Allocated c bs x s ∨ Allocated (c + total bs) cs x s := by
  induction bs generalizing c with
  | nil => simp
  | cons b bs ih =>
    simp only [List.cons_append, allocated_cons, ih, total_cons, Nat.add_assoc, or_assoc]

theorem Allocated.bounds (ha : Allocated c bs x s) :
    c ≤ x ∧ x + s ≤ c + total bs ∧ 32 ≤ s ∧ 16 ∣ s := by
  obtain ⟨pre, size, post, rfl, rfl, rfl⟩ := ha
  refine ⟨by omega, ?_, size.2.2, size.2.1⟩
  simp
  omega

theorem Allocated.block {h : Heap} (ha : Allocated c bs x s) (hs : Segment h c bs) :
    Block h x s true := by
  obtain ⟨pre, size, post, rfl, rfl, rfl⟩ := ha
  exact (segment_append.mp hs).2.1

theorem allocated_iff : Allocated c bs x s ↔
    ∃ b, Placed c bs x b ∧ b.alloc = true ∧ s = b.size.1 := by
  constructor
  · rintro ⟨pre, size, post, rfl, rfl, rfl⟩
    exact ⟨⟨size, true⟩, ⟨pre, post, rfl, rfl⟩, rfl, rfl⟩
  · rintro ⟨⟨size, alloc⟩, ⟨pre, post, rfl, rfl⟩, rfl, rfl⟩
    exact ⟨pre, size, post, rfl, rfl, rfl⟩

theorem Allocated.disjoint {y t : ℕ} (hx : Allocated c bs x s) (hy : Allocated c bs y t) :
    (x = y ∧ s = t) ∨ x + s ≤ y ∨ y + t ≤ x := by
  obtain ⟨b, hb, -, rfl⟩ := allocated_iff.mp hx
  obtain ⟨d, hd, -, rfl⟩ := allocated_iff.mp hy
  rcases hb.disjoint hd with ⟨rfl, rfl⟩ | h
  · exact Or.inl ⟨rfl, rfl⟩
  · exact Or.inr h

theorem not_allocated_of_free (hfree : ∀ b ∈ bs, b.alloc = false) : ¬ Allocated c bs x s := by
  rintro ⟨pre, size, post, rfl, -⟩
  simpa using hfree ⟨size, true⟩ (by simp)

theorem not_allocated_at_free {pre post : List Bloque} {b : Bloque} (hb : b.alloc = false) :
    ¬ Allocated c (pre ++ b :: post) (c + total pre) s := by
  have hpos := b.size.2.2
  rw [allocated_append, allocated_cons, hb]
  rintro (ha | ⟨hf, -⟩ | ha)
  · have := ha.bounds
    omega
  · simp at hf
  · have := ha.bounds
    omega

end Allocated

/-- The first block starts after the three words of padding and prologue. -/
def base (h : Heap) : ℕ := h.memStartBrk.toNat + 24

/-- The arena may hold `room` bytes of blocks: all but the four words of `mm_init`. -/
def room (h : Heap) : ℕ := h.memMaxAddr.toNat - h.memStartBrk.toNat - 32

/-- The arena is an object of user space, aligned to 16 bytes. -/
structure Arena (h : Heap) : Prop where
  aligned : 16 ∣ h.memStartBrk.toNat
  pos : 0 < h.memStartBrk.toNat
  fits : h.memStartBrk.toNat + 32 ≤ h.memMaxAddr.toNat
  user : h.memMaxAddr.toNat < 2 ^ 63

/-- The heap holds exactly the block list `bs`. -/
structure Layout (h : Heap) (bs : List Bloque) : Prop where
  arena : Arena h
  listp : h.heapListp = payload (h.memStartBrk.toNat + 8)
  prologue : Block h (h.memStartBrk.toNat + 8) 16 true
  blocks : Segment h (base h) bs
  epilogue : Tag h (base h + total bs) 0 true
  brk : h.memBrk.toNat = base h + total bs + 8
  brk_le : h.memBrk.toNat ≤ h.memMaxAddr.toNat

/-- The bytes of the allocated blocks in `bs` are the same in both heaps. -/
def Keeps (h h' : Heap) (bs : List Bloque) : Prop :=
  ∀ x s, Allocated (base h) bs x s → ∀ y, x ≤ y → y < x + s → h'.bytes y = h.bytes y

namespace OnlyWithin
variable {h h' : Heap} {lo hi : ℕ}

theorem base_eq (hw : OnlyWithin h h' lo hi) : base h' = base h := by
  rw [hw.rest]
  rfl

theorem memStartBrk_eq (hw : OnlyWithin h h' lo hi) : h'.memStartBrk = h.memStartBrk := by
  rw [hw.rest]

end OnlyWithin

/-- Rewriting the blocks `mid` as `mid'` of the same extent, inside their own bytes. -/
theorem Layout.replace {h h' : Heap} {pre mid mid' post : List Bloque}
    (hL : Layout h (pre ++ mid ++ post)) {lo hi : ℕ} (hw : OnlyWithin h h' lo hi)
    (hlo : base h + total pre ≤ lo) (hhi : hi ≤ base h + total pre + total mid)
    (hmid : Segment h' (base h + total pre) mid') (htot : total mid' = total mid) :
    Layout h' (pre ++ mid' ++ post) := by
  obtain ⟨harena, hlistp, hpro, hseg, hepi, hbrk, hle⟩ := hL
  have hbase := hw.base_eq
  have hstart := hw.memStartBrk_eq
  have hmax : h'.memMaxAddr = h.memMaxAddr := by rw [hw.rest]
  have hb : h'.memBrk = h.memBrk := by rw [hw.rest]
  have hlp : h'.heapListp = h.heapListp := by rw [hw.rest]
  have htotal : total (pre ++ mid' ++ post) = total (pre ++ mid ++ post) := by simp [htot]
  have hparts := segment_append.mp hseg
  have hpre := (segment_append.mp hparts.1).1
  have hstart24 : base h = h.memStartBrk.toNat + 24 := rfl
  refine ⟨⟨hstart ▸ harena.aligned, hstart ▸ harena.pos, by rw [hstart, hmax]; exact harena.fits,
    hmax ▸ harena.user⟩, by rw [hlp, hstart, hlistp], ?_, ?_, ?_, ?_, ?_⟩
  · rw [hstart]
    exact hw.block hpro (by omega)
  · rw [hbase]
    refine segment_append.mpr ⟨segment_append.mpr ⟨hw.segment hpre (by omega), hmid⟩, ?_⟩
    have hpost := hw.segment hparts.2 (by simp; omega)
    simpa [htot] using hpost
  · rw [hbase, htotal]
    exact hw.tag hepi (by simp; omega)
  · rw [hb, hbase, htotal, hbrk]
  · rw [hb, hmax]
    exact hle

theorem OnlyWithin.keeps {h h' : Heap} {pre mid post : List Bloque} {lo hi : ℕ}
    (hw : OnlyWithin h h' lo hi) (hlo : base h + total pre ≤ lo)
    (hhi : hi ≤ base h + total pre + total mid) (hfree : ∀ b ∈ mid, b.alloc = false) :
    Keeps h h' (pre ++ mid ++ post) := by
  intro x s ha y hy1 hy2
  apply hw.bytes
  rw [allocated_append, allocated_append] at ha
  rcases ha with (ha | ha) | ha
  · have := ha.bounds
    omega
  · exact absurd ha (not_allocated_of_free hfree)
  · have := ha.bounds
    rw [total_append] at this
    omega

end Orga.Malloc
