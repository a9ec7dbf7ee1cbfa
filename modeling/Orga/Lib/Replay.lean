import Mathlib.Algebra.BigOperators.Group.List.Basic
import Mathlib.Algebra.Order.Ring.Nat
import Mathlib.Data.List.Basic
import Mathlib.Order.Interval.Finset.Nat

/-! Clients of an allocator. A trace of requests names the blocks it uses; an allocator is a
machine that says where each request goes, without the memory behind it. -/
namespace Orga.Replay

inductive Request (ι S : Type*) where
  | alloc (i : ι) (size : S)
  | realloc (i : ι) (size : S)
  | free (i : ι)
  deriving DecidableEq, Repr

/-- Where a request is served, if it is, and the state after it. -/
structure Machine (α P S : Type*) where
  malloc : α → S → Option (P × α)
  realloc : α → P → S → Option (P × α)
  free : α → P → α

/-- The allocator with the books of its client: the block behind each name, and all blocks
granted and not given back, the last one first. A name that is used again loses its block. -/
structure Books (α P S ι : Type*) where
  heap : α
  held : ι → Option P
  live : List (P × S)

variable {α P S ι : Type*} [DecidableEq P] [DecidableEq ι]

def drop (p : P) (live : List (P × S)) : List (P × S) := live.filter fun e => e.1 != p

theorem mem_drop {p q : P} {n : S} {live : List (P × S)} :
    (q, n) ∈ drop p live ↔ (q, n) ∈ live ∧ q ≠ p := by
  simp [drop]

/-- One request. `none` is a request that is not served, or one for a name that holds nothing. -/
def Machine.serve (M : Machine α P S) (b : Books α P S ι) :
    Request ι S → Option (Books α P S ι)
  | .alloc i n => (M.malloc b.heap n).map fun r =>
      ⟨r.2, Function.update b.held i (some r.1), (r.1, n) :: b.live⟩
  | .realloc i n => (b.held i).bind fun p => (M.realloc b.heap p n).map fun r =>
      ⟨r.2, Function.update b.held i (some r.1), (r.1, n) :: drop p b.live⟩
  | .free i => (b.held i).map fun p =>
      ⟨M.free b.heap p, Function.update b.held i none, drop p b.live⟩

/-- All requests are served. -/
def Machine.replay (M : Machine α P S) (b : Books α P S ι) :
    List (Request ι S) → Option (Books α P S ι)
  | [] => some b
  | r :: rs => (M.serve b r).bind fun b' => M.replay b' rs

/-- Only names that hold a block are resized or given back; `held` holds one now. -/
def admissible (held : ι → Bool) : List (Request ι S) → Bool
  | [] => true
  | .alloc i _ :: rs => admissible (Function.update held i true) rs
  | .realloc i _ :: rs => held i && admissible held rs
  | .free i :: rs => held i && admissible (Function.update held i false) rs

def Request.holders (held : ι → Bool) : Request ι S → ι → Bool
  | .alloc i _ => Function.update held i true
  | .realloc _ _ => held
  | .free i => Function.update held i false

/-- A request for a name that holds a block, or a first request. -/
def Request.Allowed (held : ι → Bool) : Request ι S → Prop
  | .alloc _ _ => True
  | .realloc i _ | .free i => held i = true

theorem admissible_cons {held : ι → Bool} {r : Request ι S} {rs : List (Request ι S)} :
    admissible held (r :: rs) = true ↔
      r.Allowed held ∧ admissible (r.holders held) rs = true := by
  cases r <;> simp [admissible, Request.Allowed, Request.holders]

def holders (held : ι → Option P) (i : ι) : Bool := (held i).isSome

omit [DecidableEq P] in
theorem holders_update (held : ι → Option P) (i : ι) (v : Option P) :
    holders (Function.update held i v) = Function.update (holders held) i v.isSome := by
  funext j
  by_cases hj : j = i
  · subst hj
    simp [holders]
  · simp [holders, hj]

theorem Machine.holders_of_serve {M : Machine α P S} {b b' : Books α P S ι} {r : Request ι S}
    (h : M.serve b r = some b') : holders b'.held = r.holders (holders b.held) := by
  cases r with
  | alloc i n =>
    obtain ⟨r, -, rfl⟩ := Option.map_eq_some_iff.mp h
    exact holders_update b.held i _
  | realloc i n =>
    obtain ⟨p, hp, h⟩ := Option.bind_eq_some_iff.mp h
    obtain ⟨r, -, rfl⟩ := Option.map_eq_some_iff.mp h
    have hi : holders b.held i = true := by simp [holders, hp]
    refine (holders_update b.held i _).trans ?_
    rw [Option.isSome_some, ← hi]
    exact Function.update_eq_self i _
  | free i =>
    obtain ⟨p, hp, rfl⟩ := Option.map_eq_some_iff.mp h
    exact holders_update b.held i _

def holdersAfter (held : ι → Bool) : List (Request ι S) → ι → Bool
  | [] => held
  | r :: rs => holdersAfter (r.holders held) rs

theorem Machine.holders_of_replay {M : Machine α P S} {b b' : Books α P S ι}
    {rs : List (Request ι S)} (h : M.replay b rs = some b') :
    holders b'.held = holdersAfter (holders b.held) rs := by
  induction rs generalizing b with
  | nil =>
    cases h
    rfl
  | cons r rs ih =>
    obtain ⟨b₁, hserve, h⟩ := Option.bind_eq_some_iff.mp h
    rw [ih h, Machine.holders_of_serve hserve, holdersAfter]

/-- Names hold blocks that are live, and no two names hold one block. -/
structure Tracks (held : ι → Option P) (live : List (P × S)) : Prop where
  backed : ∀ i p, held i = some p → ∃ n, (p, n) ∈ live
  apart : ∀ i j p, held i = some p → held j = some p → i = j

namespace Tracks
variable {held : ι → Option P} {live live' : List (P × S)}

omit [DecidableEq P] in
theorem update (hb : Tracks held live) {i : ι} {v : Option P}
    (hnew : ∀ p, v = some p → (∃ n, (p, n) ∈ live') ∧ ∀ j, j ≠ i → held j ≠ some p)
    (hkeep : ∀ j p n, j ≠ i → held j = some p → (p, n) ∈ live → (p, n) ∈ live') :
    Tracks (Function.update held i v) live' where
  backed j p hp := by
    by_cases hj : j = i
    · subst hj
      rw [Function.update_self] at hp
      exact (hnew p hp).1
    · rw [Function.update_of_ne hj] at hp
      obtain ⟨n, hn⟩ := hb.backed j p hp
      exact ⟨n, hkeep j p n hj hp hn⟩
  apart j k p hj hk := by
    by_cases hji : j = i <;> by_cases hki : k = i
    · rw [hji, hki]
    · subst hji
      rw [Function.update_self] at hj
      rw [Function.update_of_ne hki] at hk
      exact absurd hk ((hnew p hj).2 k hki)
    · subst hki
      rw [Function.update_self] at hk
      rw [Function.update_of_ne hji] at hj
      exact absurd hj ((hnew p hk).2 j hji)
    · rw [Function.update_of_ne hji] at hj
      rw [Function.update_of_ne hki] at hk
      exact hb.apart j k p hj hk

omit [DecidableEq P] [DecidableEq ι] in
theorem fresh (hb : Tracks held live) {p : P} (hp : ∀ n, (p, n) ∉ live) (j : ι) :
    held j ≠ some p := by
  intro hj
  obtain ⟨n, hn⟩ := hb.backed j p hj
  exact hp n hn

omit [DecidableEq ι] in
theorem mem_drop (hb : Tracks held live) {i j : ι} {p q : P} {n : S} (hi : held i = some p)
    (hne : j ≠ i) (hj : held j = some q) (hq : (q, n) ∈ live) : (q, n) ∈ drop p live := by
  refine Replay.mem_drop.mpr ⟨hq, ?_⟩
  rintro rfl
  exact hne (hb.apart j i q hj hi)

omit [DecidableEq P] in
theorem grant (hb : Tracks held live) (i : ι) {p : P} {n : S} (hp : ∀ m, (p, m) ∉ live) :
    Tracks (Function.update held i (some p)) ((p, n) :: live) := by
  refine hb.update (fun q hq => ?_) fun _ _ _ _ _ hq => List.mem_cons_of_mem _ hq
  cases hq
  exact ⟨⟨n, List.mem_cons_self⟩, fun j _ => hb.fresh hp j⟩

theorem exchange (hb : Tracks held live) {i : ι} {p q : P} {n : S} (hi : held i = some p)
    (hq : ∀ m, (q, m) ∉ drop p live) :
    Tracks (Function.update held i (some q)) ((q, n) :: drop p live) := by
  refine hb.update (fun r hr => ?_)
    fun j r m hne hj hr => List.mem_cons_of_mem _ (hb.mem_drop hi hne hj hr)
  cases hr
  refine ⟨⟨n, List.mem_cons_self⟩, fun j hne hj => ?_⟩
  obtain ⟨m, hm⟩ := hb.backed j q hj
  exact hq m (hb.mem_drop hi hne hj hm)

theorem release (hb : Tracks held live) {i : ι} {p : P} (hi : held i = some p) :
    Tracks (Function.update held i none) (drop p live) :=
  hb.update (fun _ hq => nomatch hq) fun _ _ _ hne hj hq => hb.mem_drop hi hne hj hq

end Tracks

/-- The machine that moves a break up to `top` and gives nothing back: `place` is the block that
starts at the break, and `w` the room that a size takes. -/
def bump (w : S → ℕ) (place : ℕ → P) (top : ℕ) : Machine ℕ P S where
  malloc brk n := if brk + w n ≤ top then some (place brk, brk + w n) else none
  realloc brk _ n := if brk + w n ≤ top then some (place brk, brk + w n) else none
  free brk _ := brk

/-- What a trace costs an allocator that gives nothing back. -/
def spent (w : S → ℕ) : List (Request ι S) → ℕ
  | [] => 0
  | .alloc _ n :: rs | .realloc _ n :: rs => w n + spent w rs
  | .free _ :: rs => spent w rs

/-- The break passes over every request, and all are served if there is room for their sum. -/
theorem replay_bump {w : S → ℕ} {place : ℕ → P} {top : ℕ} {b : Books ℕ P S ι}
    {rs : List (Request ι S)} (hadm : admissible (holders b.held) rs = true)
    (hroom : b.heap ≤ top) :
    ((bump w place top).replay b rs).map Books.heap =
      if b.heap + spent w rs ≤ top then some (b.heap + spent w rs) else none := by
  induction rs generalizing b with
  | nil => simp [Machine.replay, spent, hroom]
  | cons r rs ih =>
    obtain ⟨hallow, hadm⟩ := admissible_cons.mp hadm
    have hnext : ∀ b', (bump w place top).serve b r = some b' → b'.heap ≤ top →
        ((bump w place top).replay b' rs).map Books.heap =
          if b'.heap + spent w rs ≤ top then some (b'.heap + spent w rs) else none := by
      intro b' hserve hroom'
      rw [← Machine.holders_of_serve hserve] at hadm
      exact ih hadm hroom'
    rw [Machine.replay]
    cases r with
    | alloc i n =>
      by_cases hfit : b.heap + w n ≤ top
      · have hserve : (bump w place top).serve b (.alloc i n) =
            some ⟨b.heap + w n, Function.update b.held i (some (place b.heap)),
              (place b.heap, n) :: b.live⟩ := by
          simp [Machine.serve, bump, hfit]
        rw [hserve, Option.bind_some, hnext _ hserve hfit, spent, Nat.add_assoc]
      · have hserve : (bump w place top).serve b (.alloc i n) = none := by
          simp [Machine.serve, bump, hfit]
        rw [hserve, Option.bind_none, Option.map_none, spent, if_neg (by omega)]
    | realloc i n =>
      obtain ⟨p, hp⟩ := Option.isSome_iff_exists.mp hallow
      by_cases hfit : b.heap + w n ≤ top
      · have hserve : (bump w place top).serve b (.realloc i n) =
            some ⟨b.heap + w n, Function.update b.held i (some (place b.heap)),
              (place b.heap, n) :: drop p b.live⟩ := by
          simp [Machine.serve, bump, hfit, hp]
        rw [hserve, Option.bind_some, hnext _ hserve hfit, spent, Nat.add_assoc]
      · have hserve : (bump w place top).serve b (.realloc i n) = none := by
          simp [Machine.serve, bump, hfit, hp]
        rw [hserve, Option.bind_none, Option.map_none, spent, if_neg (by omega)]
    | free i =>
      obtain ⟨p, hp⟩ := Option.isSome_iff_exists.mp hallow
      have hserve : (bump w place top).serve b (.free i) =
          some ⟨b.heap, Function.update b.held i none, drop p b.live⟩ := by
        simp [Machine.serve, bump, hp]
      rw [hserve, Option.bind_some, hnext _ hserve hroom, spent]

/-- What the client holds, each block weighed by its size. -/
def Books.wanted (w : S → ℕ) (b : Books α P S ι) : ℕ := (b.live.map fun e => w e.2).sum

/-- The most that the client holds at any moment of the trace. -/
def Machine.peak (M : Machine α P S) (w : S → ℕ) (b : Books α P S ι) :
    List (Request ι S) → ℕ
  | [] => b.wanted w
  | r :: rs => max (b.wanted w) (((M.serve b r).map fun b' => M.peak w b' rs).getD 0)

theorem Machine.wanted_le_peak (M : Machine α P S) (w : S → ℕ) (b : Books α P S ι)
    (rs : List (Request ι S)) : b.wanted w ≤ M.peak w b rs := by
  cases rs with
  | nil => exact le_rfl
  | cons r rs => exact le_max_left _ _

theorem wanted_drop {w : S → ℕ} {p : P} {n : S} {live : List (P × S)}
    (hnodup : (live.map Prod.fst).Nodup) (hp : (p, n) ∈ live) :
    ((drop p live).map fun e => w e.2).sum + w n = (live.map fun e => w e.2).sum := by
  induction live with
  | nil => cases hp
  | cons e live ih =>
    rw [List.map_cons, List.nodup_cons] at hnodup
    obtain ⟨hnew, hnodup⟩ := hnodup
    rcases List.mem_cons.mp hp with rfl | hp
    · have hkeep : drop p live = live := by
        refine List.filter_eq_self.mpr fun e he => ?_
        have hne : e.1 ≠ p := by
          rintro rfl
          exact hnew (List.mem_map.mpr ⟨e, he, rfl⟩)
        simpa using hne
      have hdrop : drop p ((p, n) :: live) = live := by
        rw [← hkeep]
        simp [drop]
      rw [hdrop, List.map_cons, List.sum_cons, Nat.add_comm]
    · have hne : e.1 ≠ p := by
        rintro rfl
        exact hnew (List.mem_map.mpr ⟨_, hp, rfl⟩)
      have hdrop : drop p (e :: live) = e :: drop p live := by
        simp [drop, hne]
      have hrest := ih hnodup hp
      rw [hdrop, List.map_cons, List.sum_cons, List.map_cons, List.sum_cons, Nat.add_assoc, hrest]

private theorem exists_points {l : List (ℕ × ℕ)}
    (hapart : l.Pairwise fun e f => e.1 + e.2 ≤ f.1 ∨ f.1 + f.2 ≤ e.1) :
    ∃ s : Finset ℕ, s.card = (l.map Prod.snd).sum ∧
      ∀ x, x ∈ s ↔ ∃ e ∈ l, e.1 ≤ x ∧ x < e.1 + e.2 := by
  induction l with
  | nil => exact ⟨∅, rfl, by simp⟩
  | cons e l ih =>
    obtain ⟨hhead, htail⟩ := List.pairwise_cons.mp hapart
    obtain ⟨s, hcard, hmem⟩ := ih htail
    have hdisj : Disjoint (Finset.Ico e.1 (e.1 + e.2)) s := by
      refine Finset.disjoint_left.mpr fun x hx hxs => ?_
      obtain ⟨f, hf, hfx⟩ := (hmem x).mp hxs
      have hex := Finset.mem_Ico.mp hx
      have hef := hhead f hf
      omega
    refine ⟨Finset.Ico e.1 (e.1 + e.2) ∪ s, ?_, fun x => ?_⟩
    · rw [Finset.card_union_of_disjoint hdisj, Nat.card_Ico, hcard, List.map_cons, List.sum_cons,
        Nat.add_sub_cancel_left]
    · rw [Finset.mem_union, Finset.mem_Ico, hmem]
      simp

/-- Blocks that do not meet have room between the bounds of their memory. -/
theorem sum_le_of_apart {l : List (ℕ × ℕ)} {lo hi : ℕ}
    (hapart : l.Pairwise fun e f => e.1 + e.2 ≤ f.1 ∨ f.1 + f.2 ≤ e.1)
    (hin : ∀ e ∈ l, lo ≤ e.1 ∧ e.1 + e.2 ≤ hi) : (l.map Prod.snd).sum ≤ hi - lo := by
  obtain ⟨s, hcard, hmem⟩ := exists_points hapart
  have hsub : s ⊆ Finset.Ico lo hi := by
    intro x hx
    obtain ⟨e, he, hex⟩ := (hmem x).mp hx
    have hb := hin e he
    exact Finset.mem_Ico.mpr (by omega)
  rw [← hcard, ← Nat.card_Ico]
  exact Finset.card_le_card hsub

end Orga.Replay
