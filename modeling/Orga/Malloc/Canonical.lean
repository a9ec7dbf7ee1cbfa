import Orga.Malloc.Coalescing

/-! A list without free neighbours is determined by its extent and its allocated blocks, so
giving back a block that was just granted leads to the list as it was. -/
namespace Orga.Malloc

theorem allocated_tail {c : ℕ} {b : Bloque} {bs cs : List Bloque}
    (ha : ∀ x s, Allocated c (b :: bs) x s ↔ Allocated c (b :: cs) x s) (x s : ℕ) :
    Allocated (c + b.size.1) bs x s ↔ Allocated (c + b.size.1) cs x s := by
  have hpos := b.size.2.2
  have hx := ha x s
  rw [allocated_cons, allocated_cons] at hx
  constructor
  · intro h
    have := h.bounds
    exact (hx.mp (Or.inr h)).resolve_left fun hhead => by omega
  · intro h
    have := h.bounds
    exact (hx.mpr (Or.inr h)).resolve_left fun hhead => by omega

namespace Coalesced
variable {c : ℕ} {bs cs : List Bloque} {s t : Size}

/-- What follows a free first block is allocated, so the block reaches as far as any other. -/
theorem free_head_le (hc : Coalesced (⟨t, false⟩ :: cs))
    (htot : total (⟨s, false⟩ :: bs) = total (⟨t, false⟩ :: cs))
    (ha : ∀ x u, Allocated c (⟨t, false⟩ :: cs) x u → Allocated c (⟨s, false⟩ :: bs) x u) :
    s.1 ≤ t.1 := by
  have hc' : Coalesced ([] ++ ⟨t, false⟩ :: cs) := hc
  obtain ⟨-, -, hhead⟩ := coalesced_free.mp hc'
  cases cs with
  | nil =>
    rw [total_cons, total_cons, total_nil] at htot
    dsimp only at htot
    omega
  | cons d cs =>
    have hd : d.alloc = true := hhead d rfl
    have hnext : Allocated c (⟨t, false⟩ :: d :: cs) (c + t.1) d.size.1 :=
      allocated_cons.mpr (Or.inr (allocated_cons.mpr (Or.inl ⟨hd, rfl, rfl⟩)))
    rcases allocated_cons.mp (ha _ _ hnext) with ⟨hfalse, -⟩ | hrest
    · exact absurd hfalse (by simp)
    · have hlow : c + s.1 ≤ c + t.1 := hrest.bounds.1
      omega

theorem head_eq {b d : Bloque} (hb : Coalesced (b :: bs)) (hc : Coalesced (d :: cs))
    (htot : total (b :: bs) = total (d :: cs))
    (ha : ∀ x u, Allocated c (b :: bs) x u ↔ Allocated c (d :: cs) x u) : b = d := by
  obtain ⟨s, balloc⟩ := b
  obtain ⟨t, dalloc⟩ := d
  have hs := s.2.2
  have ht := t.2.2
  cases balloc with
  | true =>
    have hmine : Allocated c (⟨s, true⟩ :: bs) c s.1 := allocated_cons.mpr (Or.inl ⟨rfl, rfl, rfl⟩)
    rcases allocated_cons.mp ((ha _ _).mp hmine) with ⟨hd, -, hsize⟩ | hrest
    · cases hd
      rw [Subtype.ext hsize]
    · have hlow : c + t.1 ≤ c := hrest.bounds.1
      omega
  | false =>
    cases dalloc with
    | true =>
      have hother : Allocated c (⟨t, true⟩ :: cs) c t.1 :=
        allocated_cons.mpr (Or.inl ⟨rfl, rfl, rfl⟩)
      rcases allocated_cons.mp ((ha _ _).mpr hother) with ⟨hfalse, -⟩ | hrest
      · exact absurd hfalse (by simp)
      · have hlow : c + s.1 ≤ c := hrest.bounds.1
        omega
    | false =>
      have hle := free_head_le hc htot fun x u => (ha x u).mpr
      have hge := free_head_le hb htot.symm fun x u => (ha x u).mp
      rw [Subtype.ext (le_antisymm hle hge)]

theorem ext (hb : Coalesced bs) (hc : Coalesced cs) (htot : total bs = total cs)
    (ha : ∀ x u, Allocated c bs x u ↔ Allocated c cs x u) : bs = cs := by
  induction bs generalizing c cs with
  | nil =>
    cases cs with
    | nil => rfl
    | cons d cs =>
      have := d.size.2.2
      rw [total_nil, total_cons] at htot
      omega
  | cons b bs ih =>
    cases cs with
    | nil =>
      have := b.size.2.2
      rw [total_nil, total_cons] at htot
      omega
    | cons d cs =>
      obtain rfl := head_eq hb hc htot ha
      have hbs : Coalesced bs := hb.tail
      have hcs : Coalesced cs := hc.tail
      rw [total_cons, total_cons, Nat.add_left_cancel_iff] at htot
      rw [ih hbs hcs htot (allocated_tail ha)]

end Coalesced

theorem allocated_appendFree {c x s : ℕ} {e : Size} {bs : List Bloque} :
    Allocated c (appendFree e bs) x s ↔ Allocated c bs x s := by
  rcases List.eq_nil_or_concat' bs with rfl | ⟨pre, ⟨t, alloc⟩, rfl⟩
  · simp [appendFree, allocated_cons]
  · cases alloc with
    | false => simp [appendFree_free, allocated_append, allocated_cons]
    | true => simp [appendFree_alloc, allocated_append, allocated_cons]

theorem Coalesced.grown {bs : List Bloque} (hc : Coalesced bs) (e : Size) :
    Coalesced (Malloc.appendFree e bs) := by
  obtain ⟨pre, m, heq, hpre⟩ := hc.appendFree e
  rw [heq]
  exact coalesced_free.mpr ⟨hpre, .nil, by simp⟩

theorem total_firstFit {a : Size} {bs : List Bloque} {r : ℕ × List Bloque}
    (h : firstFit a bs = some r) : total r.2 = total bs := by
  obtain ⟨o, bs'⟩ := r
  obtain ⟨pre, b, post, rfl, -, rfl, -⟩ := firstFit_eq_some h
  simp [total_carve]

theorem total_abstractMalloc (r : ℕ) (a : Size) (bs : List Bloque) :
    total (abstractMalloc r a bs).2 = total bs ∨
      total (abstractMalloc r a bs).2 = total bs + a.growth.1 := by
  unfold abstractMalloc
  split
  · next hfit => exact Or.inl (total_firstFit hfit)
  · split_ifs
    · split
      · next hfit =>
        right
        rw [← total_appendFree]
        exact total_firstFit hfit
      · exact Or.inl rfl
    · exact Or.inl rfl

theorem Reachable.coalesced {s : State} (hs : Reachable s) : ∃ bs, Valid s bs ∧ Coalesced bs := by
  obtain ⟨bs, hv, hrun⟩ := hs.blockRun
  exact ⟨bs, hv, ((Settled.initialBlocks _).run hrun).coalesced⟩

/-- A heap whose allocated blocks are those of `bs` holds `bs`, or `bs` with the bytes by which
the break was raised. -/
theorem Layout.restored {h h' : Heap} {bs cs : List Bloque} (hL : Layout h bs) (hb : Coalesced bs)
    (hL' : Layout h' cs) (hc : Coalesced cs) (hbase : base h' = base h)
    (ha : ∀ x s, Allocated (base h) cs x s ↔ Allocated (base h) bs x s) :
    (h'.memBrk = h.memBrk → cs = bs) ∧
      ∀ e : Size, h'.memBrk.toNat = h.memBrk.toNat + e.1 → cs = appendFree e bs := by
  have hbrk := hL.brk
  have hbrk' := hL'.brk
  rw [hbase] at hbrk'
  constructor
  · intro heq
    rw [heq] at hbrk'
    exact hc.ext hb (by omega) ha
  · intro e heq
    refine hc.ext (hb.grown e) ?_ fun x s => (ha x s).trans allocated_appendFree.symm
    rw [total_appendFree]
    omega

theorem Served.mmFree {h h1 : Heap} {bs : List Bloque} {a : Size} (hs : Served h h1 bs a)
    (hc : Coalesced bs) {o : ℕ} (ho : (abstractMalloc (room h) a bs).1 = some o) :
    ∃ h2 cs, Malloc.mmFree h1 (payload (base h + o)) = .ok h2 ∧ OnlyBytes h1 h2 ∧ Layout h2 cs ∧
      Coalesced cs ∧ ∀ x u, Allocated (base h) cs x u ↔ Allocated (base h) bs x u := by
  have hbase := hs.arena.base_eq
  obtain ⟨t, -, hfresh, hal⟩ := hs.granted o ho
  have hnew := (hal (base h1) (base h + o) t).mpr (Or.inr ⟨by rw [hbase], rfl⟩)
  obtain ⟨h2, hrun, hfreed⟩ := hs.layout.mmFree hnew
  refine ⟨h2, _, hrun, hfreed.bytes, hfreed.layout, (hc.abstractMalloc _ _).abstractFree _,
    fun x u => ?_⟩
  have hback := hfreed.allocated x u
  rw [hal, hbase] at hback
  rw [hbase, hback]
  constructor
  · rintro ⟨ha | ⟨hx, -⟩, hne⟩
    · exact ha
    · exact absurd hx hne
  · intro ha
    refine ⟨Or.inl ha, ?_⟩
    rintro rfl
    exact hfresh _ u ha

/-- `mm_free` undoes `mm_malloc`: what remains is the growth of the heap, as free space. -/
theorem Reachable.malloc_free {s : State} (hs : Reachable s) {n : UInt64} (hn : n ≠ 0)
    (hfit : Fits n) :
    ∃ p h1 h2 bs, mmMalloc s.heap n = .ok (p, h1) ∧ mmFree h1 p = .ok h2 ∧
      Layout s.heap bs ∧ SameArena s.heap h2 ∧
      ((h1.memBrk = s.heap.memBrk ∧ Layout h2 bs) ∨
        ∃ e : Size, h1.memBrk.toNat = s.heap.memBrk.toNat + e.1 ∧ Layout h2 (appendFree e bs)) := by
  obtain ⟨bs, hv, hco⟩ := hs.coalesced
  obtain ⟨h1, hrun, hserved⟩ := hv.layout.mmMalloc hn hfit
  have hbase1 := hserved.arena.base_eq
  cases habs : (abstractMalloc (room s.heap) (requestSize n.toNat) bs).1 with
  | none =>
    obtain rfl : h1 = s.heap := hserved.failed habs
    rw [habs] at hrun
    exact ⟨NULL, _, _, bs, hrun, rfl, hv.layout, .refl _, Or.inl ⟨rfl, hv.layout⟩⟩
  | some o =>
    obtain ⟨h2, cs, hrun2, hbytes2, hL2, hco2, hback⟩ := hserved.mmFree hco habs
    have hbrk2 : h2.memBrk = h1.memBrk := by rw [hbytes2]
    obtain ⟨hkeep, hgrow⟩ := hv.layout.restored hco hL2 hco2 (hbytes2.base_eq.trans hbase1) hback
    rw [habs] at hrun
    refine ⟨_, h1, h2, bs, hrun, hrun2, hv.layout, hserved.arena.trans hbytes2.sameArena, ?_⟩
    have hbrk := hv.layout.brk
    have hbrk1 := hserved.layout.brk
    rw [hbase1] at hbrk1
    rcases total_abstractMalloc (room s.heap) (requestSize n.toNat) bs with htot | htot
    · have heq : h1.memBrk = s.heap.memBrk := UInt64.toNat_inj.mp (by omega)
      rw [hkeep (hbrk2.trans heq)] at hL2
      exact Or.inl ⟨heq, hL2⟩
    · have heq : h1.memBrk.toNat = s.heap.memBrk.toNat + (requestSize n.toNat).growth.1 := by omega
      rw [hgrow _ (by rw [hbrk2]; exact heq)] at hL2
      exact Or.inr ⟨_, heq, hL2⟩

/-- 5000 bytes grow the heap of the sample run. -/
theorem malloc_free_sampleState :
    ∃ p h1 h2 bs, mmMalloc sampleState.heap 5000 = .ok (p, h1) ∧ mmFree h1 p = .ok h2 ∧
      Layout sampleState.heap bs ∧ SameArena sampleState.heap h2 ∧
      ((h1.memBrk = sampleState.heap.memBrk ∧ Layout h2 bs) ∨
        ∃ e : Size, h1.memBrk.toNat = sampleState.heap.memBrk.toNat + e.1 ∧
          Layout h2 (appendFree e bs)) :=
  reachable_sampleState.malloc_free (by decide) (by decide)

end Orga.Malloc
