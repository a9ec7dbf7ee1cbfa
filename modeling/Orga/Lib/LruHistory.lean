import Mathlib.Data.Finset.Card
import Orga.Lib.Lru

/-! What a memory with least-recently-used replacement holds, told from its history alone: the
uses so far, in order, each with a mark for a write. -/
namespace Orga.Lru
variable {κ : Type*} [DecidableEq κ]

/-- The keys used so far, most recent first. -/
def recent (ks : List κ) : List κ := ks.foldl (fun s k => stack k s) []

section Recent
variable {ks a b : List κ} {k : κ}

theorem recent_concat (ks : List κ) (k : κ) : recent (ks ++ [k]) = stack k (recent ks) := by
  rw [recent, List.foldl_append]
  rfl

theorem mem_stack {x : κ} {s : List κ} : x ∈ stack k s ↔ x = k ∨ x ∈ s := by
  rw [stack, List.mem_cons]
  by_cases hx : x = k
  · simp [hx]
  · simp [hx, List.mem_erase_of_ne hx]

theorem mem_recent {x : κ} : x ∈ recent ks ↔ x ∈ ks := by
  induction ks using List.reverseRecOn with
  | nil => simp [recent]
  | append_singleton ks k ih =>
    rw [recent_concat, mem_stack, ih, List.mem_append, List.mem_singleton, or_comm]

theorem nodup_recent (ks : List κ) : (recent ks).Nodup := by
  induction ks using List.reverseRecOn with
  | nil => exact List.nodup_nil
  | append_singleton ks k ih =>
    rw [recent_concat, stack]
    refine List.nodup_cons.mpr ⟨?_, ih.erase k⟩
    rw [ih.mem_erase_iff]
    simp

theorem length_recent (ks : List κ) : (recent ks).length = ks.toFinset.card := by
  rw [← List.toFinset_card_of_nodup (nodup_recent ks)]
  congr 1
  ext x
  rw [List.mem_toFinset, List.mem_toFinset, mem_recent]

theorem recent_split (hk : k ∉ b) : ∃ rest, recent (a ++ k :: b) = recent b ++ k :: rest := by
  induction b using List.reverseRecOn with
  | nil => exact ⟨(recent a).erase k, by rw [recent_concat]; rfl⟩
  | append_singleton b x ih =>
    rw [List.mem_append, List.mem_singleton, not_or] at hk
    obtain ⟨rest, hrest⟩ := ih hk.1
    have hxk : ¬ (k == x) = true := by simpa using hk.2
    rw [← List.cons_append, ← List.append_assoc, recent_concat, recent_concat, hrest, stack, stack]
    by_cases hx : x ∈ recent b
    · exact ⟨rest, by rw [List.erase_append_left _ hx]; rfl⟩
    · refine ⟨rest.erase x, ?_⟩
      rw [List.erase_append_right _ hx, List.erase_cons_tail hxk, List.erase_of_not_mem hx]
      rfl

/-- A key is among the `n` most recent ones exactly when fewer than `n` others were used since. -/
theorem mem_take_recent (hk : k ∉ b) (n : ℕ) :
    k ∈ (recent (a ++ k :: b)).take n ↔ b.toFinset.card < n := by
  obtain ⟨rest, hrest⟩ := recent_split (a := a) hk
  have hnot : k ∉ recent b := fun h => hk (mem_recent.mp h)
  have hlen := length_recent b
  rw [hrest, ← hlen, List.take_append]
  constructor
  · intro h
    by_contra hle
    rw [Nat.sub_eq_zero_of_le (Nat.le_of_not_lt hle), List.take_zero, List.append_nil] at h
    exact hnot (List.mem_of_mem_take h)
  · intro hlt
    refine List.mem_append_right _ ?_
    rw [show n - (recent b).length = n - (recent b).length - 1 + 1 by omega, List.take_succ_cons]
    exact List.mem_cons_self

theorem exists_last (hk : k ∈ ks) : ∃ a b, ks = a ++ k :: b ∧ k ∉ b := by
  induction ks using List.reverseRecOn with
  | nil => simp at hk
  | append_singleton ks x ih =>
    by_cases hx : k = x
    · subst hx
      exact ⟨ks, [], rfl, by simp⟩
    · have hks : k ∈ ks := by simpa [hx] using hk
      obtain ⟨a, b, rfl, hb⟩ := ih hks
      exact ⟨a, b ++ [x], by simp, by simp [hb, hx]⟩

end Recent

def run (ways : ℕ) (us : List (κ × Bool)) : List (κ × Bool) :=
  us.foldl (fun l u => access ways u.1 u.2 l) []

/-- Fewer than `ways` other keys were used since the last use of `k`. -/
def Resident (ways : ℕ) (k : κ) (us : List (κ × Bool)) : Prop :=
  ∃ a w b, us = a ++ (k, w) :: b ∧ k ∉ b.map Prod.fst ∧ (b.map Prod.fst).toFinset.card < ways

/-- `k` was written, and has been resident ever since. -/
def Modified (ways : ℕ) (k : κ) (us : List (κ × Bool)) : Prop :=
  ∃ a b, us = a ++ (k, true) :: b ∧ ∀ c, c <+: b → Resident ways k (a ++ (k, true) :: c)

section Run
variable {ways : ℕ} {us : List (κ × Bool)} {k : κ}

theorem run_concat (ways : ℕ) (us : List (κ × Bool)) (x : κ) (w : Bool) :
    run ways (us ++ [(x, w)]) = access ways x w (run ways us) := by
  rw [run, List.foldl_append]
  rfl

theorem top_run (ways : ℕ) (us : List (κ × Bool)) :
    Top ways (recent (us.map Prod.fst)) (run ways us) := by
  induction us using List.reverseRecOn with
  | nil => exact top_nil ways
  | append_singleton us u ih =>
    obtain ⟨x, w⟩ := u
    rw [run_concat, List.map_append, List.map_singleton, recent_concat]
    exact ih.access x w

theorem nodup_run (ways : ℕ) (us : List (κ × Bool)) : ((run ways us).map Prod.fst).Nodup := by
  rw [top_run ways us]
  exact (nodup_recent _).sublist (List.take_sublist _ _)

theorem length_run (ways : ℕ) (us : List (κ × Bool)) :
    (run ways us).length = min ways (us.map Prod.fst).toFinset.card := by
  have h := congrArg List.length (top_run ways us)
  rwa [List.length_map, List.length_take, length_recent] at h

/-- The top of the stack are the resident keys, at every size. -/
theorem resident_iff_take :
    Resident ways k us ↔ k ∈ (recent (us.map Prod.fst)).take ways := by
  constructor
  · rintro ⟨a, w, b, rfl, hk, hcard⟩
    rw [List.map_append, List.map_cons]
    exact (mem_take_recent hk ways).mpr hcard
  · intro h
    obtain ⟨ka, kb, hsplit, hk⟩ := exists_last (mem_recent.mp (List.mem_of_mem_take h))
    rw [hsplit] at h
    obtain ⟨a, b', rfl, rfl, hb'⟩ := List.map_eq_append_iff.mp hsplit
    obtain ⟨⟨k', w⟩, b, rfl, rfl, rfl⟩ := List.map_eq_cons_iff.mp hb'
    exact ⟨a, w, b, rfl, hk, (mem_take_recent hk ways).mp h⟩

theorem resident_iff : Resident ways k us ↔ k ∈ (run ways us).map Prod.fst := by
  rw [resident_iff_take, top_run ways us]

theorem Resident.mem (h : Resident ways k us) : k ∈ us.map Prod.fst := by
  obtain ⟨a, w, b, rfl, -⟩ := h
  simp

theorem resident_of_card (hk : k ∈ us.map Prod.fst)
    (hcard : (us.map Prod.fst).toFinset.card ≤ ways) : Resident ways k us := by
  rw [resident_iff_take, List.take_of_length_le (by rwa [length_recent])]
  exact mem_recent.mpr hk

theorem Resident.concat_self (hpos : 0 < ways) (w : Bool) : Resident ways k (us ++ [(k, w)]) :=
  ⟨us, w, [], rfl, by simp, by simpa using hpos⟩

theorem Modified.resident (h : Modified ways k us) : Resident ways k us := by
  obtain ⟨a, b, rfl, hb⟩ := h
  exact hb b (List.prefix_refl b)

/-- The last use is a write, or the key was modified before and is still there. -/
theorem modified_concat {x : κ} {w : Bool} (hpos : 0 < ways) :
    Modified ways k (us ++ [(x, w)]) ↔
      (x, w) = (k, true) ∨ Modified ways k us ∧ Resident ways k (us ++ [(x, w)]) := by
  constructor
  · rintro ⟨a, b, hus, hb⟩
    rcases List.eq_nil_or_concat' b with rfl | ⟨b, u, rfl⟩
    · exact Or.inl (List.append_inj_right' hus rfl |> List.singleton_inj.mp)
    · rw [← List.cons_append, ← List.append_assoc] at hus
      obtain ⟨rfl, hu⟩ := List.append_inj' hus rfl
      refine Or.inr ⟨⟨a, b, rfl, fun c hc => hb c (hc.trans (List.prefix_append b [u]))⟩, ?_⟩
      rw [hu, List.append_assoc]
      exact hb _ (List.prefix_refl _)
  · rintro (hu | ⟨⟨a, b, rfl, hb⟩, hres⟩)
    · rw [hu]
      refine ⟨us, [], rfl, fun c hc => ?_⟩
      rw [List.prefix_nil.mp hc]
      exact Resident.concat_self hpos true
    · refine ⟨a, b ++ [(x, w)], by simp, fun c hc => ?_⟩
      rcases List.prefix_concat_iff.mp hc with rfl | hc
      · simpa using hres
      · exact hb c hc

theorem mem_access_of_ne {l : List (κ × Bool)} {x : κ} {w : Bool} (hne : k ≠ x)
    (hl : (l.map Prod.fst).Nodup) {d : Bool} :
    (k, d) ∈ access ways x w l ↔ (k, d) ∈ l ∧ k ∈ (access ways x w l).map Prod.fst := by
  have hsub : ∀ d, (k, d) ∈ access ways x w l → (k, d) ∈ l := by
    intro d h
    by_cases hx : x ∈ l.map Prod.fst
    · obtain ⟨a, dx, b, rfl, ha⟩ := exists_split hx
      rw [access, touch_of_mem ha rfl] at h
      have h' := List.mem_of_mem_take h
      simp only [List.mem_cons, List.mem_append, Prod.mk.injEq, hne, false_and, false_or] at h' ⊢
      exact h'
    · rw [access, touch_of_notMem hx] at h
      have h' := List.mem_of_mem_take h
      simpa [hne] using h'
  constructor
  · exact fun h => ⟨hsub d h, List.mem_map.mpr ⟨_, h, rfl⟩⟩
  · rintro ⟨hd, hk⟩
    obtain ⟨⟨k', d'⟩, hd', rfl⟩ := List.mem_map.mp hk
    have heq := List.inj_on_of_nodup_map hl (hsub d' hd') hd rfl
    rwa [heq] at hd'

theorem mem_access_self {l : List (κ × Bool)} {w : Bool} (hpos : 0 < ways)
    (hl : (l.map Prod.fst).Nodup) :
    (k, true) ∈ access ways k w l ↔ w = true ∨ (k, true) ∈ l := by
  have hnodup := nodup_access ways k w hl
  obtain ⟨n, rfl⟩ := Nat.exists_eq_succ_of_ne_zero (Nat.ne_of_gt hpos)
  by_cases hk : k ∈ l.map Prod.fst
  · obtain ⟨a, d, b, rfl, ha⟩ := exists_split hk
    have hhead : (k, d || w) ∈ access (n + 1) k w (a ++ (k, d) :: b) := by
      rw [access, touch_of_mem ha rfl, List.take_succ_cons]
      exact List.mem_cons_self
    have hold : (k, d) ∈ a ++ (k, d) :: b := by simp
    constructor
    · intro h
      have heq := List.inj_on_of_nodup_map hnodup h hhead rfl
      cases d <;> simp_all
    · rintro (rfl | h)
      · simpa using hhead
      · have hd : true = d := (Prod.mk.inj (List.inj_on_of_nodup_map hl h hold rfl)).2
        subst hd
        simpa using hhead
  · have hnot : (k, true) ∉ l := fun h => hk (List.mem_map.mpr ⟨_, h, rfl⟩)
    have hhead : (k, w) ∈ access (n + 1) k w l := by
      rw [access, touch_of_notMem hk, List.take_succ_cons]
      exact List.mem_cons_self
    constructor
    · intro h
      exact Or.inl (Prod.mk.inj (List.inj_on_of_nodup_map hnodup h hhead rfl)).2.symm
    · rintro (rfl | h)
      · exact hhead
      · exact absurd h hnot

theorem modified_iff (hpos : 0 < ways) : Modified ways k us ↔ (k, true) ∈ run ways us := by
  induction us using List.reverseRecOn with
  | nil => simp [Modified, run]
  | append_singleton us u ih =>
    obtain ⟨x, w⟩ := u
    rw [modified_concat hpos, run_concat, ih]
    by_cases hx : k = x
    · subst hx
      rw [mem_access_self hpos (nodup_run ways us)]
      simp [Resident.concat_self hpos]
    · rw [mem_access_of_ne hx (nodup_run ways us), resident_iff, run_concat]
      simp [Ne.symm hx]

theorem outcome_run_hit : outcome ways k (run ways us) = .hit ↔ Resident ways k us := by
  rw [outcome_eq_hit, resident_iff]

theorem outcome_run_fill : outcome ways k (run ways us) = .fill ↔
    ¬ Resident ways k us ∧ (us.map Prod.fst).toFinset.card < ways := by
  have hlen := length_run ways us
  rw [resident_iff, outcome]
  split_ifs <;> simp_all

/-- The key that goes is the one that a memory with one way less would not hold. -/
theorem outcome_run_dirty (hpos : 0 < ways) : outcome ways k (run ways us) = .dirty ↔
    ¬ Resident ways k us ∧ ∃ v, Modified ways v us ∧ ¬ Resident (ways - 1) v us := by
  have htop : (run ways us).map Prod.fst = (recent (us.map Prod.fst)).take ways := top_run ways us
  have hsmall : ∀ v, Resident (ways - 1) v us ↔
      v ∈ ((run ways us).map Prod.fst).take (ways - 1) := by
    intro v
    rw [resident_iff_take, htop, List.take_take, Nat.min_eq_left (Nat.sub_le ways 1)]
  have hbound : (run ways us).length ≤ ways := by
    rw [length_run]
    omega
  have hnodup := nodup_run ways us
  simp only [modified_iff hpos, hsmall, resident_iff, outcome]
  generalize run ways us = l at hbound hnodup
  by_cases hk : k ∈ l.map Prod.fst
  · simp [hk]
  by_cases hlt : l.length < ways
  · -- no way less holds the same keys
    have hall : (l.map Prod.fst).take (ways - 1) = l.map Prod.fst :=
      List.take_of_length_le (by rw [List.length_map]; omega)
    rw [if_neg hk, if_pos hlt, hall]
    simp only [reduceCtorEq, false_iff, not_and, not_exists, not_not]
    exact fun _ v hv => List.mem_map.mpr ⟨_, hv, rfl⟩
  · rcases List.eq_nil_or_concat' l with rfl | ⟨a, ⟨v, d⟩, rfl⟩
    · exact absurd hpos hlt
    rw [List.length_append, List.length_singleton] at hbound hlt
    have hinit : ((a ++ [(v, d)]).map Prod.fst).take (ways - 1) = a.map Prod.fst := by
      rw [List.map_append, List.take_append_of_le_length (by rw [List.length_map]; omega),
        List.take_of_length_le (by rw [List.length_map]; omega)]
    have hv : v ∉ a.map Prod.fst := by
      rw [List.map_append, List.nodup_append] at hnodup
      exact fun h => hnodup.2.2 v h v (by simp) rfl
    rw [if_neg hk, if_neg (by simpa using hlt), hinit]
    constructor
    · intro h
      have hd : d = true := by
        cases d
        · simp at h
        · rfl
      exact ⟨hk, v, by simp [hd], hv⟩
    · rintro ⟨-, x, hx, hxa⟩
      have hlast : (x, true) = (v, d) := by
        rcases List.mem_append.mp hx with ha | hlast
        · exact absurd (List.mem_map.mpr ⟨_, ha, rfl⟩) hxa
        · exact List.mem_singleton.mp hlast
      rw [← hlast]
      simp

end Run

end Orga.Lru
