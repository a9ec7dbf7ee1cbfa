import Mathlib.Logic.Relation
import Orga.Malloc.Init

/-! Runs of the package as the driver makes them: `mem_reset_brk`, `mm_init`, then any
calls on live pointers and writes by the client. The live pointers are ghost state. -/
namespace Orga.Malloc
open Relation

/-- The heap and the live pointers, each with the bytes it was requested for. -/
structure State where
  heap : Heap
  live : List (UInt64 × UInt64)

/-- The rounded request fits the `int` of `mem_sbrk`. -/
def Fits (size : UInt64) : Prop := (requestSize size.toNat).1 < 2 ^ 31

instance (size : UInt64) : Decidable (Fits size) := inferInstanceAs (Decidable (_ < _))

def IsLive (s : State) (p : UInt64) : Prop := ∃ n, (p, n) ∈ s.live

def Passable (s : State) (p : UInt64) : Prop := p = NULL ∨ IsLive s p

def forget (p : UInt64) (live : List (UInt64 × UInt64)) : List (UInt64 × UInt64) :=
  live.filter fun e => e.1 != p

/-- One action of the driver. -/
inductive Step : State → State → Prop where
  | malloc {s : State} {size p : UInt64} {h' : Heap} (hfit : Fits size)
      (hrun : mmMalloc s.heap size = .ok (p, h')) :
      Step s ⟨h', if p = NULL then s.live else (p, size) :: s.live⟩
  | free {s : State} {p : UInt64} {h' : Heap} (hp : Passable s p)
      (hrun : mmFree s.heap p = .ok h') : Step s ⟨h', forget p s.live⟩
  | realloc {s : State} {p size q : UInt64} {h' : Heap} (hp : Passable s p) (hfit : Fits size)
      (hrun : mmRealloc s.heap p size = .ok (q, h')) :
      Step s ⟨h', if size = 0 then forget p s.live else if q = NULL then s.live
        else (q, size) :: forget p s.live⟩
  | write {s : State} {p n : UInt64} {i : ℕ} (v : UInt8) (hp : (p, n) ∈ s.live)
      (hi : i < n.toNat) :
      Step s ⟨{ s.heap with bytes := Function.update s.heap.bytes (p.toNat + i) v }, s.live⟩

/-- States of a run on an arena of any contents. -/
def Reachable (s : State) : Prop :=
  ∃ h0 r h, Arena h0 ∧ mmInit (memResetBrk h0) = .ok (r, h) ∧ ReflTransGen Step ⟨h, []⟩ s

theorem memInit_memMaxAddr (h : Heap) (start : UInt64)
    (huser : start.toNat + MAX_HEAP.toNat < 2 ^ 63) :
    (memInit h start).memMaxAddr.toNat = start.toNat + MAX_HEAP.toNat := by
  show (start + MAX_HEAP).toNat = _
  rw [UInt64.toNat_add]
  exact Nat.mod_eq_of_lt (by omega)

theorem arena_memInit (h : Heap) (start : UInt64) (h16 : 16 ∣ start.toNat) (hpos : 0 < start.toNat)
    (huser : start.toNat + MAX_HEAP.toNat < 2 ^ 63) : Arena (memInit h start) := by
  have hmax := memInit_memMaxAddr h start huser
  have h20 : MAX_HEAP.toNat = 20971520 := rfl
  exact ⟨h16, hpos, by rw [hmax]; show start.toNat + 32 ≤ _; omega, by omega⟩

theorem payload_inj {c d : ℕ} (hc : c + 8 < 2 ^ 64) (hd : d + 8 < 2 ^ 64)
    (h : payload c = payload d) : c = d := by
  have hto := congrArg UInt64.toNat h
  rw [payload, payload, toNat_ofNat_of_lt hc, toNat_ofNat_of_lt hd] at hto
  omega

theorem mem_forget {p q n : UInt64} {live : List (UInt64 × UInt64)} :
    (q, n) ∈ forget p live ↔ (q, n) ∈ live ∧ q ≠ p := by
  simp [forget]

theorem nodup_forget {p : UInt64} {live : List (UInt64 × UInt64)}
    (h : (live.map Prod.fst).Nodup) : ((forget p live).map Prod.fst).Nodup :=
  h.sublist (List.filter_sublist.map _)

/-- The allocated blocks, given as addresses with sizes, are the blocks of the live
pointers, each large enough for its request. -/
structure Ledger (alloc : ℕ → ℕ → Prop) (live : List (UInt64 × UInt64)) : Prop where
  small : ∀ x t, alloc x t → x + 8 < 2 ^ 64
  owned : ∀ x t, alloc x t → ∃ n, (payload x, n) ∈ live
  backed : ∀ p n, (p, n) ∈ live → ∃ x t, alloc x t ∧ p = payload x ∧ n.toNat + 16 ≤ t
  nodup : (live.map Prod.fst).Nodup
  positive : ∀ p n, (p, n) ∈ live → n ≠ 0

namespace Ledger
variable {A : ℕ → ℕ → Prop} {live : List (UInt64 × UInt64)}

theorem congr {B : ℕ → ℕ → Prop} (hl : Ledger A live) (h : ∀ x t, B x t ↔ A x t) :
    Ledger B live := by
  have : B = A := funext fun x => funext fun t => propext (h x t)
  exact this ▸ hl

theorem grant (hl : Ledger A live) {x t : ℕ} {n : UInt64} (hx : x + 8 < 2 ^ 64)
    (hfresh : ∀ u, ¬ A x u) (hn : n ≠ 0) (ht : n.toNat + 16 ≤ t) :
    Ledger (fun y u => A y u ∨ (y = x ∧ u = t)) ((payload x, n) :: live) where
  small y u ha := by
    rcases ha with ha | ⟨rfl, -⟩
    · exact hl.small y u ha
    · exact hx
  owned y u ha := by
    rcases ha with ha | ⟨rfl, -⟩
    · obtain ⟨m, hm⟩ := hl.owned y u ha
      exact ⟨m, List.mem_cons_of_mem _ hm⟩
    · exact ⟨n, List.mem_cons_self⟩
  backed p m hp := by
    rcases List.mem_cons.mp hp with heq | hp
    · cases heq
      exact ⟨x, t, Or.inr ⟨rfl, rfl⟩, rfl, ht⟩
    · obtain ⟨y, u, ha, hpy, hm⟩ := hl.backed p m hp
      exact ⟨y, u, Or.inl ha, hpy, hm⟩
  nodup := by
    refine List.nodup_cons.mpr ⟨fun hmem => ?_, hl.nodup⟩
    obtain ⟨⟨q, m⟩, hq, heq⟩ := List.mem_map.mp hmem
    obtain ⟨y, u, ha, hqy, -⟩ := hl.backed q m hq
    have hyx : y = x := payload_inj (hl.small y u ha) hx (hqy.symm.trans heq)
    exact hfresh u (hyx ▸ ha)
  positive p m hp := by
    rcases List.mem_cons.mp hp with heq | hp
    · cases heq
      exact hn
    · exact hl.positive p m hp

theorem release (hl : Ledger A live) {x : ℕ} (hx : x + 8 < 2 ^ 64) :
    Ledger (fun y u => A y u ∧ y ≠ x) (forget (payload x) live) where
  small y u ha := hl.small y u ha.1
  owned y u ha := by
    obtain ⟨n, hn⟩ := hl.owned y u ha.1
    refine ⟨n, mem_forget.mpr ⟨hn, fun heq => ha.2 ?_⟩⟩
    exact payload_inj (hl.small y u ha.1) hx heq
  backed p n hp := by
    obtain ⟨hp, hne⟩ := mem_forget.mp hp
    obtain ⟨y, u, ha, rfl, hn⟩ := hl.backed p n hp
    exact ⟨y, u, ⟨ha, fun heq => hne (heq ▸ rfl)⟩, rfl, hn⟩
  nodup := nodup_forget hl.nodup
  positive p n hp := hl.positive p n (mem_forget.mp hp).1

theorem block_of_live (hl : Ledger A live) {p n : UInt64} (hp : (p, n) ∈ live) :
    ∃ x t, A x t ∧ p = payload x := by
  obtain ⟨x, t, ha, hpx, -⟩ := hl.backed p n hp
  exact ⟨x, t, ha, hpx⟩

theorem forget_null (hl : Ledger A live) : forget NULL live = live := by
  refine List.filter_eq_self.mpr fun e he => ?_
  obtain ⟨x, t, ha, hpx⟩ := hl.block_of_live (n := e.2) he
  have hne : e.1 ≠ NULL := hpx ▸ payload_ne_null (hl.small x t ha)
  simpa using hne

end Ledger

/-- The invariant of a run: the heap holds `bs`, and the ledger is right. -/
structure Valid (s : State) (bs : List Bloque) : Prop where
  layout : Layout s.heap bs
  ledger : Ledger (Allocated (base s.heap) bs) s.live

section Valid
variable {s : State} {bs : List Bloque}

def Untouched (h h' : Heap) (p n : UInt64) : Prop :=
  ∀ i < n.toNat, h'.bytes (p.toNat + i) = h.bytes (p.toNat + i)

/-- A live payload lies strictly inside its block. -/
theorem Valid.untouched (hv : Valid s bs) {h' : Heap} {p n : UInt64} (hp : (p, n) ∈ s.live)
    (hk : ∀ x t, Allocated (base s.heap) bs x t → p = payload x → ∀ y, x ≤ y → y < x + t →
      h'.bytes y = s.heap.bytes y) : Untouched s.heap h' p n := by
  intro i hi
  obtain ⟨x, t, ha, rfl, hn⟩ := hv.ledger.backed p n hp
  have hto : (payload x).toNat = x + 8 := toNat_ofNat_of_lt (hv.ledger.small x t ha)
  exact hk x t ha rfl _ (by omega) (by omega)

theorem Valid.checkHeap_live (hv : Valid s bs) {p n : UInt64} (hp : (p, n) ∈ s.live) :
    checkHeap s.heap p = .ok s.heap := by
  obtain ⟨x, t, ha, rfl⟩ := hv.ledger.block_of_live hp
  exact (ha.block hv.layout.blocks).checkHeap (ha.payload_aligned hv.layout)

theorem Valid.live_ne_null (hv : Valid s bs) {p n : UInt64} (hp : (p, n) ∈ s.live) :
    p ≠ NULL := by
  obtain ⟨x, t, ha, rfl⟩ := hv.ledger.block_of_live hp
  exact payload_ne_null (hv.ledger.small x t ha)

theorem Valid.mmRealloc_eq (hv : Valid s bs) {p n size : UInt64} (hp : (p, n) ∈ s.live)
    (hsize : size ≠ 0) :
    mmRealloc s.heap p size = (mmMalloc s.heap size >>= fun r =>
      if r.1 = NULL then .ok (NULL, r.2) else checkHeap r.2 r.1 >>= fun h =>
        blockSize h (obtenerHeader p) >>= fun oldsize =>
          memcpy h r.1 p (if oldsize > size then size else oldsize) >>= fun h =>
            mmFree h p >>= fun h => .ok (r.1, h)) := by
  rw [mmRealloc, if_neg hsize, if_neg (hv.live_ne_null hp), hv.checkHeap_live hp]
  rfl

theorem Valid.mmMalloc (hv : Valid s bs) {size : UInt64} (hfit : Fits size) :
    ∃ p h' bs', mmMalloc s.heap size = .ok (p, h') ∧
      Valid ⟨h', if p = NULL then s.live else (p, size) :: s.live⟩ bs' ∧
      ∀ q n, (q, n) ∈ s.live → Untouched s.heap h' q n := by
  by_cases hsize : size = 0
  · subst hsize
    exact ⟨NULL, s.heap, bs, rfl, hv, fun _ _ _ _ _ => rfl⟩
  obtain ⟨h', hrun, hserved⟩ := hv.layout.mmMalloc hsize hfit
  have hbase := hserved.arena.base_eq
  have hu : ∀ q n, (q, n) ∈ s.live → Untouched s.heap h' q n :=
    fun q n hq => hv.untouched hq fun x t ha _ => hserved.keeps x t ha
  cases habs : (abstractMalloc (room s.heap) (requestSize size.toNat) bs).1 with
  | none =>
    have hh : h' = s.heap := hserved.failed habs
    rw [habs, hh] at hrun
    exact ⟨NULL, s.heap, bs, hrun, by rw [if_pos rfl]; exact hv, fun _ _ _ _ _ => rfl⟩
  | some o =>
    obtain ⟨t, hat, hfresh, hal⟩ := hserved.granted o habs
    have hreq := le_requestSize size.toNat
    have hx := hserved.offset_lt habs
    rw [habs] at hrun
    refine ⟨payload (base s.heap + o), h', _, hrun, ⟨hserved.layout, ?_⟩, hu⟩
    rw [if_neg (payload_ne_null hx)]
    dsimp only
    rw [hbase]
    exact (hv.ledger.grant hx (hfresh _) hsize (by omega)).congr (hal _)

theorem Valid.mmFree (hv : Valid s bs) {p : UInt64} (hp : Passable s p) :
    ∃ h' bs', mmFree s.heap p = .ok h' ∧ Valid ⟨h', forget p s.live⟩ bs' ∧
      ∀ q n, (q, n) ∈ s.live → q ≠ p → Untouched s.heap h' q n := by
  rcases hp with rfl | hp
  · refine ⟨s.heap, bs, rfl, ?_, fun _ _ _ _ _ _ => rfl⟩
    rw [hv.ledger.forget_null]
    exact hv
  obtain ⟨n, hn⟩ := hp
  obtain ⟨x, t, ha, rfl⟩ := hv.ledger.block_of_live hn
  obtain ⟨h', hrun, hfreed⟩ := hv.layout.mmFree ha
  refine ⟨h', _, hrun, ⟨hfreed.layout, ?_⟩, fun q n hq hne => hv.untouched hq fun y u hy heq => ?_⟩
  · dsimp only
    rw [hfreed.bytes.base_eq]
    exact (hv.ledger.release (hv.ledger.small x t ha)).congr hfreed.allocated
  · refine hfreed.keeps y u ((hfreed.allocated y u).mpr ⟨hy, ?_⟩)
    rintro rfl
    exact hne heq

theorem Valid.mmRealloc (hv : Valid s bs) {p size : UInt64} (hp : Passable s p)
    (hfit : Fits size) :
    ∃ q h' bs', mmRealloc s.heap p size = .ok (q, h') ∧
      Valid ⟨h', if size = 0 then forget p s.live else if q = NULL then s.live
        else (q, size) :: forget p s.live⟩ bs' ∧
      ∀ r n, (r, n) ∈ s.live → r ≠ p → Untouched s.heap h' r n := by
  by_cases hsize : size = 0
  · obtain ⟨h', bs', hrun, hv', hu⟩ := hv.mmFree hp
    refine ⟨NULL, h', bs', ?_, by rw [if_pos hsize]; exact hv', hu⟩
    rw [Malloc.mmRealloc, if_pos hsize, hrun]
    rfl
  rcases hp with rfl | hp
  · obtain ⟨q, h', bs', hrun, hv', hu⟩ := hv.mmMalloc hfit
    refine ⟨q, h', bs', ?_, ?_, fun r n hr _ => hu r n hr⟩
    · rw [Malloc.mmRealloc, if_neg hsize, if_pos rfl, hrun]
    · rw [if_neg hsize, hv.ledger.forget_null]
      exact hv'
  obtain ⟨n, hn⟩ := hp
  obtain ⟨x, t, ha, rfl⟩ := hv.ledger.block_of_live hn
  obtain ⟨h', hrun, hfail, hmoved⟩ := hv.layout.mmRealloc ha hsize hfit
  simp only [if_neg hsize]
  cases habs : (abstractMalloc (room s.heap) (requestSize size.toNat) bs).1 with
  | none =>
    have hh : h' = s.heap := hfail habs
    rw [habs, hh] at hrun
    refine ⟨NULL, s.heap, bs, hrun, ?_, fun _ _ _ _ _ _ => rfl⟩
    rw [if_pos rfl]
    exact hv
  | some o =>
    have hm := hmoved o habs
    obtain ⟨u, hau, hfresh, hal⟩ := hm.allocated
    have hbase := hm.arena.base_eq
    have hreq := le_requestSize size.toNat
    have hb := ((hal (base s.heap + o) u).mpr (Or.inr ⟨rfl, rfl⟩)).bounds
    have hlt := hm.layout.total_lt
    have hq : base s.heap + o + 8 < 2 ^ 64 := by omega
    rw [habs] at hrun
    refine ⟨payload (base s.heap + o), h', _, hrun, ⟨hm.layout, ?_⟩, fun r n hr hne => ?_⟩
    · rw [if_neg (payload_ne_null hq)]
      dsimp only
      rw [hbase]
      have hrel := hv.ledger.release (hv.ledger.small x t ha)
      exact (hrel.grant hq (fun v hv' => hfresh v hv'.1) hsize (by omega)).congr hal
    · refine hv.untouched hr fun y v hy heq => hm.keeps y v hy ?_
      rintro rfl
      exact hne heq

theorem Valid.write (hv : Valid s bs) {p n : UInt64} (hp : (p, n) ∈ s.live) {i : ℕ}
    (hi : i < n.toNat) (v : UInt8) :
    Valid ⟨{ s.heap with bytes := Function.update s.heap.bytes (p.toNat + i) v }, s.live⟩ bs := by
  obtain ⟨x, t, ha, rfl, hn⟩ := hv.ledger.backed p n hp
  have hto : (payload x).toNat = x + 8 := toNat_ofNat_of_lt (hv.ledger.small x t ha)
  have hwithin : OnlyWithin s.heap
      { s.heap with bytes := Function.update s.heap.bytes ((payload x).toNat + i) v }
      (x + 8) (x + 8 + n.toNat) :=
    ⟨rfl, fun y hy => Function.update_of_ne (by omega) _ _⟩
  exact ⟨hv.layout.of_payload ha hwithin le_rfl (by omega), hv.ledger⟩

/-- Every action keeps the invariant. -/
theorem Valid.step (hv : Valid s bs) {s' : State} (hs : Step s s') : ∃ bs', Valid s' bs' := by
  cases hs with
  | malloc hfit hrun =>
    obtain ⟨p, h', bs', hrun', hv', -⟩ := hv.mmMalloc hfit
    cases hrun.symm.trans hrun'
    exact ⟨bs', hv'⟩
  | free hp hrun =>
    obtain ⟨h', bs', hrun', hv', -⟩ := hv.mmFree hp
    cases hrun.symm.trans hrun'
    exact ⟨bs', hv'⟩
  | realloc hp hfit hrun =>
    obtain ⟨q, h', bs', hrun', hv', -⟩ := hv.mmRealloc hp hfit
    cases hrun.symm.trans hrun'
    exact ⟨bs', hv'⟩
  | write v hp hi => exact ⟨bs, hv.write hp hi v⟩

end Valid

theorem Reachable.valid {s : State} (hs : Reachable s) : ∃ bs, Valid s bs := by
  obtain ⟨h0, r, h, hA, hinit, hrun⟩ := hs
  induction hrun with
  | refl =>
    have hA' : Arena (memResetBrk h0) := ⟨hA.aligned, hA.pos, hA.fits, hA.user⟩
    obtain ⟨h', hrun, hL, -⟩ := hA'.mmInit rfl
    cases hinit.symm.trans hrun
    refine ⟨_, hL, ?_⟩
    have hnone : ∀ x t, ¬ Allocated (base h) (if 4096 ≤ room (memResetBrk h0) then
        [⟨⟨4096, by decide⟩, false⟩] else []) x t := by
      intro x t
      split_ifs
      · exact not_allocated_of_free (by simp)
      · exact allocated_nil
    exact ⟨fun x t ha => absurd ha (hnone x t), fun x t ha => absurd ha (hnone x t), by simp,
      by simp, by simp⟩
  | tail _ hstep ih =>
    obtain ⟨bs, hv⟩ := ih
    exact hv.step hstep

/-- The driver's first state: `mem_reset_brk` and `mm_init` on the arena of `h0`. -/
def State.start (h0 : Heap) : State :=
  match mmInit (memResetBrk h0) with
  | .ok (_, h) => ⟨h, []⟩
  | .error _ => ⟨h0, []⟩

def State.malloc (s : State) (size : UInt64) : State :=
  match mmMalloc s.heap size with
  | .ok (p, h') => ⟨h', if p = NULL then s.live else (p, size) :: s.live⟩
  | .error _ => s

def State.free (s : State) (p : UInt64) : State :=
  match mmFree s.heap p with
  | .ok h' => ⟨h', forget p s.live⟩
  | .error _ => s

theorem Reachable.start {h0 : Heap} (hA : Arena h0) : Reachable (State.start h0) := by
  have hA' : Arena (memResetBrk h0) := ⟨hA.aligned, hA.pos, hA.fits, hA.user⟩
  obtain ⟨h', hrun, -⟩ := hA'.mmInit rfl
  refine ⟨h0, _, h', hA, hrun, ?_⟩
  rw [State.start, hrun]

theorem Reachable.step {s s' : State} (hs : Reachable s) (h : Step s s') : Reachable s' := by
  obtain ⟨h0, r, h1, hA, hinit, hrun⟩ := hs
  exact ⟨h0, r, h1, hA, hinit, hrun.tail h⟩

theorem Reachable.malloc {s : State} (hs : Reachable s) {size : UInt64} (hfit : Fits size) :
    Reachable (s.malloc size) := by
  obtain ⟨bs, hv⟩ := hs.valid
  obtain ⟨p, h', bs', hrun, -⟩ := hv.mmMalloc hfit
  rw [State.malloc, hrun]
  exact hs.step (.malloc hfit hrun)

theorem Reachable.free {s : State} (hs : Reachable s) {p : UInt64} (hp : Passable s p) :
    Reachable (s.free p) := by
  obtain ⟨bs, hv⟩ := hs.valid
  obtain ⟨h', bs', hrun, -⟩ := hv.mmFree hp
  rw [State.free, hrun]
  exact hs.step (.free hp hrun)

def sampleArena : Heap := memInit ⟨0, 0, 0, NULL, fun _ => 0xAA, []⟩ 65536

/-- Two live blocks and two free ones: the second request grows the heap, the third splits
the block that the first gave back. -/
def sampleState : State :=
  ((((State.start sampleArena).malloc 100).malloc 5000).free 65568).malloc 24

set_option maxRecDepth 20000 in
theorem reachable_sampleState : Reachable sampleState := by
  have hA : Arena sampleArena := arena_memInit _ _ (by decide) (by decide) (by decide)
  have h100 : Fits 100 := by decide
  have h5000 : Fits 5000 := by decide
  have h24 : Fits 24 := by decide
  have hlive : IsLive (((State.start sampleArena).malloc 100).malloc 5000) 65568 :=
    ⟨100, by decide +kernel⟩
  exact ((((Reachable.start hA).malloc h100).malloc h5000).free (Or.inr hlive)).malloc h24

end Orga.Malloc
