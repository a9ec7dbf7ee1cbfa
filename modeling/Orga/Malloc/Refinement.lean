import Orga.Malloc.Driver

/-! The heap of a run holds one block list, and every call acts on it as the first-fit
allocator of `Orga.Malloc.FirstFit`. -/
namespace Orga.Malloc

theorem Tag.unique {h : Heap} {a s t : ℕ} {b d : Bool} (h1 : Tag h a s b) (h2 : Tag h a t d) :
    s = t ∧ b = d := by
  have hw := h1.word.symm.trans h2.word
  have hs := h1.aligned
  have ht := h2.aligned
  cases b <;> cases d <;> simp only [Bool.toNat_true, Bool.toNat_false] at hw
  · exact ⟨by omega, rfl⟩
  · omega
  · omega
  · exact ⟨by omega, rfl⟩

/-- The blocks up to the epilogue can be read back from memory. -/
theorem Segment.unique {h : Heap} {c : ℕ} {bs cs : List Bloque} (hb : Segment h c bs)
    (hc : Segment h c cs) (heb : Tag h (c + total bs) 0 true) (hec : Tag h (c + total cs) 0 true) :
    bs = cs := by
  induction bs generalizing c cs with
  | nil =>
    cases cs with
    | nil => rfl
    | cons d cs =>
      have hsize := d.size.2.2
      have heq := (heb.unique hc.1.header).1
      omega
  | cons b bs ih =>
    cases cs with
    | nil =>
      have hsize := b.size.2.2
      have heq := (hec.unique hb.1.header).1
      omega
    | cons d cs =>
      obtain ⟨bsize, balloc⟩ := b
      obtain ⟨dsize, dalloc⟩ := d
      obtain ⟨hsize, rfl⟩ := hb.1.header.unique hc.1.header
      obtain rfl := Subtype.ext hsize
      rw [total_cons, ← Nat.add_assoc] at heb hec
      rw [ih hb.2 hc.2 heb hec]

theorem Layout.unique {h : Heap} {bs cs : List Bloque} (h1 : Layout h bs) (h2 : Layout h cs) :
    bs = cs :=
  h1.blocks.unique h2.blocks h1.epilogue h2.epilogue

/-- The list held by the heap of `s`, and the calls as operations on it. -/
structure Refines (s : State) (bs : List Bloque) : Prop where
  layout : Layout s.heap bs
  unique : ∀ cs, Layout s.heap cs → cs = bs
  live : ∀ p, IsLive s p ↔ ∃ pre size post, bs = pre ++ ⟨size, true⟩ :: post ∧
    p = pointer s.heap (some (total pre))
  findFit : ∀ a : Size, a.1 < 2 ^ 64 → findFit s.heap (UInt64.ofNat a.1) =
    .ok (pointer s.heap ((firstFit a bs).map Prod.fst), s.heap)
  malloc : ∀ size, size ≠ 0 → Fits size → ∃ h',
    mmMalloc s.heap size =
      .ok (pointer s.heap (abstractMalloc (room s.heap) (requestSize size.toNat) bs).1, h') ∧
    Layout h' (abstractMalloc (room s.heap) (requestSize size.toNat) bs).2 ∧ SameArena s.heap h'
  free : ∀ pre size post, bs = pre ++ ⟨size, true⟩ :: post → ∃ h',
    mmFree s.heap (pointer s.heap (some (total pre))) = .ok h' ∧
    Layout h' (release pre size post) ∧ SameArena s.heap h'
  realloc : ∀ pre size post n, bs = pre ++ ⟨size, true⟩ :: post → n ≠ 0 → Fits n → ∃ h',
    mmRealloc s.heap (pointer s.heap (some (total pre))) n =
      .ok (pointer s.heap (abstractMalloc (room s.heap) (requestSize n.toNat) bs).1, h') ∧
    Layout h' (match abstractMalloc (room s.heap) (requestSize n.toNat) bs with
      | (none, _) => bs
      | (some _, cs) => abstractFree (total pre) cs) ∧ SameArena s.heap h'

theorem Valid.live_iff {s : State} {bs : List Bloque} (hv : Valid s bs) (p : UInt64) :
    IsLive s p ↔ ∃ pre size post, bs = pre ++ ⟨size, true⟩ :: post ∧
      p = pointer s.heap (some (total pre)) := by
  constructor
  · rintro ⟨n, hn⟩
    obtain ⟨x, t, ⟨pre, size, post, rfl, rfl, rfl⟩, rfl⟩ := hv.ledger.block_of_live hn
    exact ⟨pre, size, post, rfl, rfl⟩
  · rintro ⟨pre, size, post, rfl, rfl⟩
    exact hv.ledger.owned _ _ ⟨pre, size, post, rfl, rfl, rfl⟩

theorem Valid.toRefines {s : State} {bs : List Bloque} (hv : Valid s bs) : Refines s bs where
  layout := hv.layout
  unique cs hcs := hcs.unique hv.layout
  live := hv.live_iff
  findFit a ha := by
    rw [hv.layout.findFit a ha]
    cases firstFit a bs <;> rfl
  malloc size hsize hfit := by
    obtain ⟨h', hrun, hserved⟩ := hv.layout.mmMalloc hsize hfit
    exact ⟨h', hrun, hserved.layout, hserved.arena⟩
  free pre size post hbs := by
    have ha : Allocated (base s.heap) bs (base s.heap + total pre) size.1 :=
      ⟨pre, size, post, hbs, rfl, rfl⟩
    obtain ⟨h', hrun, hfreed⟩ := hv.layout.mmFree ha
    have hlayout := hfreed.layout
    rw [Nat.add_sub_cancel_left, hbs, abstractFree, locate_total] at hlayout
    exact ⟨h', hrun, hlayout, hfreed.bytes.sameArena⟩
  realloc pre size post n hbs hn hfit := by
    have ha : Allocated (base s.heap) bs (base s.heap + total pre) size.1 :=
      ⟨pre, size, post, hbs, rfl, rfl⟩
    obtain ⟨h', hrun, hfail, hmoved⟩ := hv.layout.mmRealloc ha hn hfit
    refine ⟨h', hrun, ?_⟩
    rcases habs : abstractMalloc (room s.heap) (requestSize n.toNat) bs with ⟨_ | o, cs⟩
    · rw [hfail (by rw [habs])]
      exact ⟨hv.layout, .refl _⟩
    · have hm := hmoved o (by rw [habs])
      have hlayout := hm.layout
      rw [Nat.add_sub_cancel_left, habs] at hlayout
      exact ⟨hlayout, hm.arena⟩

/-- The byte-level allocator refines the first-fit one in every state of a run. -/
theorem Reachable.refines {s : State} (hs : Reachable s) : ∃ bs, Refines s bs := by
  obtain ⟨bs, hv⟩ := hs.valid
  exact ⟨bs, hv.toRefines⟩

theorem refines_sampleState : ∃ bs, Refines sampleState bs := reachable_sampleState.refines

end Orga.Malloc
