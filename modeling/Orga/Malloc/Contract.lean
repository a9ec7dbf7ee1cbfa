import Orga.Malloc.Evaluation
import Orga.Malloc.FreeOrder
import Orga.Malloc.Outcomes

/-! What a client needs of a package, as a simulation: every call does what an allocator without
memory does, and the payloads that are live keep their bytes. The package of `mm.c` does what the
first-fit list does. -/
namespace Orga.Malloc
open Orga.Replay

/-- The live payloads as the driver checks them. -/
structure Payloads (h : Heap) (live : List (UInt64 × UInt64)) : Prop where
  bounded : Bounded h
  full : FullArena h
  aligned : ∀ p n, (p, n) ∈ live → 8 ∣ p.toNat
  inside : ∀ p n, (p, n) ∈ live →
    h.memStartBrk.toNat ≤ p.toNat ∧ p.toNat + n.toNat ≤ h.memBrk.toNat
  apart : live.Pairwise fun e f => Malloc.Apart e.1.toNat e.2.toNat f.1.toNat f.2.toNat
  positive : ∀ p n, (p, n) ∈ live → n ≠ 0

/-- The driver asks for a positive `int`. -/
structure IsRequest (n : UInt64) : Prop where
  pos : 0 < n.toNat
  lt : n.toNat < 2 ^ 31

/-- The call of `mm_malloc` that went to `p`. -/
structure Allotted {α : Type} (R : Heap → α → List (UInt64 × UInt64) → Prop) (h h' : Heap)
    (a' : α) (live : List (UInt64 × UInt64)) (p n : UInt64) : Prop where
  ne_null : p ≠ NULL
  related : R h' a' ((p, n) :: live)
  grows : memHeapsize h ≤ memHeapsize h'
  others : ∀ q m, (q, m) ∈ live → Untouched h h' q m

/-- The call of `mm_realloc` that moved `m` bytes at `p` to `q`. -/
structure Resized {α : Type} (R : Heap → α → List (UInt64 × UInt64) → Prop) (h h' : Heap)
    (a' : α) (live : List (UInt64 × UInt64)) (p m q n : UInt64) : Prop where
  ne_null : q ≠ NULL
  related : R h' a' ((q, n) :: drop p live)
  grows : memHeapsize h ≤ memHeapsize h'
  data : ∀ i < min m.toNat n.toNat, h'.bytes (q.toNat + i) = h.bytes (p.toNat + i)
  others : ∀ r k, (r, k) ∈ live → r ≠ p → Untouched h h' r k

/-- The package does what the machine does; `R` relates a heap to the state of the machine and the
live payloads with their sizes. -/
structure Implements {α : Type} (pkg : Package) (M : Machine α UInt64 UInt64)
    (R : Heap → α → List (UInt64 × UInt64) → Prop) : Prop where
  payloads : ∀ {h a live}, R h a live → Payloads h live
  fill : ∀ {h h' a live p n}, R h a live → (p, n) ∈ live →
    OnlyWithin h h' p.toNat (p.toNat + n.toNat) → R h' a live
  refuse : ∀ {h a live n}, R h a live → IsRequest n → M.malloc a n = none →
    ∃ h', pkg.mmMalloc h n = .ok (NULL, h') ∧ R h' a live
  malloc : ∀ {h a live n p a'}, R h a live → IsRequest n → M.malloc a n = some (p, a') →
    ∃ h', pkg.mmMalloc h n = .ok (p, h') ∧ Allotted R h h' a' live p n
  refuse_realloc : ∀ {h a live p m n}, R h a live → (p, m) ∈ live → IsRequest n →
    M.realloc a p n = none → ∃ h', pkg.mmRealloc h p n = .ok (NULL, h') ∧ R h' a live
  realloc : ∀ {h a live p m n q a'}, R h a live → (p, m) ∈ live → IsRequest n →
    M.realloc a p n = some (q, a') →
    ∃ h', pkg.mmRealloc h p n = .ok (q, h') ∧ Resized R h h' a' live p m q n
  free : ∀ {h a live p m}, R h a live → (p, m) ∈ live →
    ∃ h', pkg.mmFree h p = .ok h' ∧ R h' (M.free a p) (drop p live) ∧
      memHeapsize h ≤ memHeapsize h' ∧
      ∀ r k, (r, k) ∈ live → r ≠ p → Untouched h h' r k

theorem total_release (pre : List Bloque) (s : Size) (post : List Bloque) :
    total (release pre s post) = total pre + s.1 + total post := by
  have habs : (absorb s post).1.1 + total (absorb s post).2 = s.1 + total post := by
    cases post with
    | nil => rfl
    | cons b post =>
      rw [absorb]
      split_ifs
      · rfl
      · simp [Nat.add_assoc]
  rw [release, total_append, total_appendFree]
  omega

theorem total_abstractFree (o : ℕ) (bs : List Bloque) : total (abstractFree o bs) = total bs := by
  unfold abstractFree
  split
  · next hloc =>
    have hbs := (locate_eq_some hloc)
    rw [hbs, total_release, total_append, total_cons, Nat.add_assoc]
  · rfl

/-- The first-fit list as an allocator, when its first header is at `c` and `room` bytes may hold
blocks. -/
def firstFitMachine (c room : ℕ) : Machine (List Bloque) UInt64 UInt64 where
  malloc bs n :=
    let r := abstractMalloc room (requestSize n.toNat) bs
    r.1.map fun o => (payload (c + o), r.2)
  realloc bs p n :=
    let r := abstractMalloc room (requestSize n.toNat) bs
    r.1.map fun o => (payload (c + o), abstractFree (p.toNat - 8 - c) r.2)
  free bs p := abstractFree (p.toNat - 8 - c) bs

/-- A heap of `mm.c` in the arena of `mem_init`. -/
structure ListHeap (c r : ℕ) (h : Heap) (bs : List Bloque) (live : List (UInt64 × UInt64)) :
    Prop where
  valid : Valid ⟨h, live⟩ bs
  full : FullArena h
  base_eq : base h = c
  room_eq : room h = r

namespace ListHeap
variable {c r : ℕ} {h h' : Heap} {bs cs : List Bloque} {live live' : List (UInt64 × UInt64)}
  {n p m : UInt64}

theorem next (hl : ListHeap c r h bs live) (hv : Valid ⟨h', live'⟩ cs) (ha : SameArena h h') :
    ListHeap c r h' cs live' :=
  ⟨hv, ha.fullArena hl.full, ha.base_eq.trans hl.base_eq, ha.room_eq.trans hl.room_eq⟩

theorem memHeapsize_eq (hl : ListHeap c r h bs live) :
    (memHeapsize h).toNat = total bs + 32 := hl.valid.layout.memHeapsize_eq

theorem grows (hl : ListHeap c r h bs live) (hl' : ListHeap c r h' cs live')
    (htotal : total bs ≤ total cs) : memHeapsize h ≤ memHeapsize h' := by
  rw [UInt64.le_iff_toNat_le, hl.memHeapsize_eq, hl'.memHeapsize_eq]
  omega

theorem le_total_abstractMalloc (a : Size) : total bs ≤ total (abstractMalloc r a bs).2 := by
  rcases total_abstractMalloc r a bs with htotal | htotal
  · exact htotal.ge
  · omega

theorem payloads (hl : ListHeap c r h bs live) : Payloads h live := by
  have hv := hl.valid
  have hi := hv.toIntegrity
  have hL := hv.layout
  have hbrk := hL.brk
  have hb : Bounded h := by
    refine ⟨hL.arena.pos, ?_, hL.brk_le, hL.arena.user⟩
    change h.memBrk.toNat = h.memStartBrk.toNat + 24 + total bs + 8 at hbrk
    omega
  have htop := hb.memHeapHi
  refine ⟨hb, hl.full, fun p n hp => ?_, fun p n hp => ?_, hi.apart, hv.ledger.positive⟩
  · exact dvd_trans (by decide) (hi.aligned p n hp)
  · obtain ⟨hlo, hhi⟩ := hi.inside p n hp
    refine ⟨hlo, ?_⟩
    dsimp only at hhi
    omega

theorem fill (hl : ListHeap c r h bs live) (hp : (p, n) ∈ live)
    (hw : OnlyWithin h h' p.toNat (p.toNat + n.toNat)) : ListHeap c r h' bs live := by
  obtain ⟨x, t, ha, rfl, hpx, hn, -, -⟩ := hl.valid.live_block hp
  have hL := hl.valid.layout.of_payload ha hw (by omega) (by omega)
  have hsame : SameArena h h' := OnlyBytes.sameArena hw.rest
  refine hl.next ⟨hL, ?_⟩ hsame
  dsimp only
  rw [hsame.base_eq]
  exact hl.valid.ledger

theorem unwrapped (hn : IsRequest n) : Unwrapped n := by
  have hlt := hn.lt
  unfold Unwrapped
  omega

theorem ne_zero (hn : IsRequest n) : n ≠ 0 := by
  rintro rfl
  exact absurd hn.pos (by decide)

/-- A request beyond the `int` of `mem_sbrk` is refused, here and by the list. -/
theorem big (hl : ListHeap c r h bs live) (hn : IsRequest n) (hbig : ¬ Fits n) :
    Malloc.mmMalloc h n = .ok (NULL, h) ∧ (abstractMalloc r (requestSize n.toNat) bs).1 = none := by
  have hL := hl.valid.layout
  have hlt := hn.lt
  have hbig' : 2 ^ 31 ≤ (requestSize n.toNat).1 := not_lt.mp hbig
  have hup : (requestSize n.toNat).1 < 2 ^ 31 + 2 ^ 30 := by
    unfold requestSize
    split_ifs <;> dsimp only <;> omega
  have hgrow : (requestSize n.toNat).growth = requestSize n.toNat := by
    unfold Size.growth
    rw [if_neg (by omega)]
  have hnone := hL.firstFit_big hl.full hbig'
  constructor
  · refine (hL.mmMalloc_big hl.full (unwrapped hn) hbig).1 (Or.inr (Or.inl ?_))
    rw [hgrow]
    omega
  · have hroom : r < 2 ^ 31 := by
      have hfull := hl.full
      have h20 : MAX_HEAP.toNat = 20971520 := rfl
      rw [← hl.room_eq]
      unfold FullArena at hfull
      unfold room
      omega
    rw [abstractMalloc_full hnone]
    rw [hgrow]
    omega

theorem mmMalloc (hl : ListHeap c r h bs live) (hn : IsRequest n) :
    ((abstractMalloc r (requestSize n.toNat) bs).1 = none ∧
      Malloc.mmMalloc h n = .ok (NULL, h)) ∨
    ∃ o h', (abstractMalloc r (requestSize n.toNat) bs).1 = some o ∧
      Malloc.mmMalloc h n = .ok (payload (c + o), h') ∧
      Allotted (ListHeap c r) h h' (abstractMalloc r (requestSize n.toNat) bs).2 live
        (payload (c + o)) n := by
  by_cases hfit : Fits n
  swap
  · obtain ⟨hrun, hnone⟩ := hl.big hn hfit
    exact Or.inl ⟨hnone, hrun⟩
  obtain rfl := hl.base_eq
  obtain rfl := hl.room_eq
  obtain ⟨h1, hrun, hserved⟩ := hl.valid.layout.mmMalloc (ne_zero hn) hfit
  obtain ⟨p, h', bs', hrun', hv', hu⟩ := hl.valid.mmMalloc hfit
  cases hrun.symm.trans hrun'
  have hnull := hserved.pointer_eq_null
  cases habs : (abstractMalloc (room h) (requestSize n.toNat) bs).1 with
  | none =>
    rw [habs, hserved.failed habs] at hrun
    exact Or.inl ⟨rfl, hrun⟩
  | some o =>
    rw [habs] at hrun hnull
    have hne : pointer h (some o) ≠ NULL := fun heq => absurd (hnull.mp heq) (by simp)
    dsimp only at hv'
    rw [habs, if_neg hne] at hv'
    obtain rfl := hv'.layout.unique hserved.layout
    have hl' := hl.next hv' hserved.arena
    exact Or.inr ⟨o, h1, rfl, hrun, hne, hl', hl.grows hl' (le_total_abstractMalloc _), hu⟩

theorem mmFree (hl : ListHeap c r h bs live) (hp : (p, m) ∈ live) :
    ∃ h', Malloc.mmFree h p = .ok h' ∧
      ListHeap c r h' (abstractFree (p.toNat - 8 - c) bs) (drop p live) ∧
      memHeapsize h ≤ memHeapsize h' ∧ ∀ q k, (q, k) ∈ live → q ≠ p → Untouched h h' q k := by
  obtain rfl := hl.base_eq
  obtain ⟨x, t, ha, rfl, hpx, -⟩ := hl.valid.live_block hp
  obtain ⟨h1, hrun, hfreed⟩ := hl.valid.layout.mmFree ha
  obtain ⟨h', bs', hrun', hv', hu⟩ := hl.valid.mmFree (Or.inr ⟨m, hp⟩)
  cases hrun.symm.trans hrun'
  obtain rfl := hv'.layout.unique hfreed.layout
  have hx : (payload x).toNat - 8 = x := by omega
  rw [hx]
  have hl' := hl.next hv' hfreed.bytes.sameArena
  exact ⟨h1, hrun, hl', hl.grows hl' (total_abstractFree _ _).ge, hu⟩

theorem mmRealloc (hl : ListHeap c r h bs live) (hp : (p, m) ∈ live) (hn : IsRequest n) :
    ((abstractMalloc r (requestSize n.toNat) bs).1 = none ∧
      Malloc.mmRealloc h p n = .ok (NULL, h)) ∨
    ∃ o h', (abstractMalloc r (requestSize n.toNat) bs).1 = some o ∧
      Malloc.mmRealloc h p n = .ok (payload (c + o), h') ∧
      Resized (ListHeap c r) h h'
        (abstractFree (p.toNat - 8 - c) (abstractMalloc r (requestSize n.toNat) bs).2) live p m
        (payload (c + o)) n := by
  by_cases hfit : Fits n
  swap
  · obtain ⟨hrun, hnone⟩ := hl.big hn hfit
    refine Or.inl ⟨hnone, ?_⟩
    rw [hl.valid.mmRealloc_eq hp (ne_zero hn), hrun]
    rfl
  obtain rfl := hl.base_eq
  obtain rfl := hl.room_eq
  obtain ⟨x, t, ha, rfl, hpx, ht, -⟩ := hl.valid.live_block hp
  obtain ⟨h1, hrun, hfail, hmoved⟩ := hl.valid.layout.mmRealloc ha (ne_zero hn) hfit
  obtain ⟨_, _, hserved⟩ := hl.valid.layout.mmMalloc (ne_zero hn) hfit
  obtain ⟨q, h', bs', hrun', hv', hu⟩ := hl.valid.mmRealloc (Or.inr ⟨m, hp⟩) hfit
  cases hrun.symm.trans hrun'
  have hnull := hserved.pointer_eq_null
  have hx : (payload x).toNat - 8 = x := by omega
  rw [hx]
  cases habs : (abstractMalloc (room h) (requestSize n.toNat) bs).1 with
  | none =>
    rw [habs, hfail habs] at hrun
    exact Or.inl ⟨rfl, hrun⟩
  | some o =>
    have hm := hmoved o habs
    have hqo : (payload (base h + o)).toNat = base h + o + 8 :=
      toNat_ofNat_of_lt (hserved.offset_lt habs)
    rw [habs] at hrun hnull
    have hne : pointer h (some o) ≠ NULL := fun heq => absurd (hnull.mp heq) (by simp)
    dsimp only at hv'
    rw [habs, if_neg (ne_zero hn), if_neg hne] at hv'
    obtain rfl := hv'.layout.unique hm.layout
    have hl' := hl.next hv' hm.arena
    have htotal : total bs ≤ total (abstractFree (x - base h)
        (abstractMalloc (room h) (requestSize n.toNat) bs).2) := by
      rw [total_abstractFree]
      exact le_total_abstractMalloc _
    refine Or.inr ⟨o, h1, rfl, hrun, hne, hl', hl.grows hl' htotal, fun i hi => ?_, hu⟩
    obtain ⟨him, hin⟩ := lt_min_iff.mp hi
    rw [hqo, hpx]
    exact hm.copied i hin (by omega)

end ListHeap

/-- The package of `mm.c` is first-fit allocation. -/
theorem mm_implements (c r : ℕ) : Implements mm (firstFitMachine c r) (ListHeap c r) where
  payloads hl := hl.payloads
  fill hl hp hw := hl.fill hp hw
  refuse hl hn hM := by
    rcases hl.mmMalloc hn with ⟨-, hrun⟩ | ⟨o, h', habs, -⟩
    · exact ⟨_, hrun, hl⟩
    · exact absurd (habs.symm.trans (Option.map_eq_none_iff.mp hM)) (by simp)
  malloc hl hn hM := by
    obtain ⟨o, ho, heq⟩ := Option.map_eq_some_iff.mp hM
    cases heq
    rcases hl.mmMalloc hn with ⟨hnone, -⟩ | ⟨o', h', habs, hrun, hal⟩
    · exact absurd (ho.symm.trans hnone) (by simp)
    · cases ho.symm.trans habs
      exact ⟨h', hrun, hal⟩
  refuse_realloc hl hp hn hM := by
    rcases hl.mmRealloc hp hn with ⟨-, hrun⟩ | ⟨o, h', habs, -⟩
    · exact ⟨_, hrun, hl⟩
    · exact absurd (habs.symm.trans (Option.map_eq_none_iff.mp hM)) (by simp)
  realloc hl hp hn hM := by
    obtain ⟨o, ho, heq⟩ := Option.map_eq_some_iff.mp hM
    cases heq
    rcases hl.mmRealloc hp hn with ⟨hnone, -⟩ | ⟨o', h', habs, hrun, hre⟩
    · exact absurd (ho.symm.trans hnone) (by simp)
    · cases ho.symm.trans habs
      exact ⟨h', hrun, hre⟩
  free hl hp := hl.mmFree hp

end Orga.Malloc
