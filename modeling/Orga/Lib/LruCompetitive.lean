import Orga.Lib.LruHistory

/-! Least-recently-used replacement against any other policy, also one that knows the future. The
argument is amortised: a key of the recency list that the other memory lacks weighs more the more
recent it is. -/
namespace Orga.Lru
variable {κ : Type*} [DecidableEq κ]

/-- What a memory of `ways` keys may do on a use: keep its keys on a hit, and on a miss take the
key in, for at most one other. -/
def Demand (ways : ℕ) (k : κ) (m m' : Finset κ) : Prop :=
  if k ∈ m then m' = m
  else k ∈ m' ∧ m' ⊆ insert k m ∧ m.card ≤ m'.card ∧ m'.card ≤ ways

instance (ways : ℕ) (k : κ) (m m' : Finset κ) : Decidable (Demand ways k m m') :=
  inferInstanceAs (Decidable (if k ∈ m then m' = m
    else k ∈ m' ∧ m' ⊆ insert k m ∧ m.card ≤ m'.card ∧ m'.card ≤ ways))

/-- The weight of the keys that `m` lacks: `n` for the first of the list, and one less for each
that follows. -/
def potential : ℕ → List κ → Finset κ → ℕ
  | _, [], _ => 0
  | n, x :: l, m => (if x ∈ m then 0 else n) + potential (n - 1) l m

section Potential
variable {n : ℕ} {l : List κ} {m m' : Finset κ} {k : κ}

theorem potential_mono {n n' : ℕ} (h : n ≤ n') (l : List κ) (m : Finset κ) :
    potential n l m ≤ potential n' l m := by
  induction l generalizing n n' with
  | nil => exact Nat.le_refl _
  | cons x l ih =>
    have hrest := ih (Nat.sub_le_sub_right h 1)
    unfold potential
    split_ifs <;> omega

/-- A weight more for every key, and a key that is missing feels it. -/
theorem potential_lt {n n' : ℕ} (h : n < n') (hx : ∃ x ∈ l, x ∉ m) (hlen : l.length ≤ n') :
    potential n l m < potential n' l m := by
  induction l generalizing n n' with
  | nil => simp at hx
  | cons y l ih =>
    have hmono := potential_mono (Nat.sub_le_sub_right h.le 1) l m
    rw [potential, potential]
    by_cases hy : y ∈ m
    · have hrest : ∃ x ∈ l, x ∉ m := by
        obtain ⟨x, hxl, hxm⟩ := hx
        rcases List.mem_cons.mp hxl with rfl | hxl
        · exact absurd hy hxm
        · exact ⟨x, hxl, hxm⟩
      have hpos : 0 < l.length := by
        obtain ⟨x, hxl, -⟩ := hrest
        exact List.length_pos_of_mem hxl
      rw [List.length_cons] at hlen
      have hlt : potential (n - 1) l m < potential (n' - 1) l m := ih (by omega) hrest (by omega)
      rw [if_pos hy, if_pos hy]
      omega
    · rw [if_neg hy, if_neg hy]
      omega

theorem potential_take_le (n i : ℕ) (l : List κ) (m : Finset κ) :
    potential n (l.take i) m ≤ potential n l m := by
  induction l generalizing n i with
  | nil => simp [potential]
  | cons x l ih =>
    cases i with
    | zero => simp [potential]
    | succ i =>
      have hrest := ih (n - 1) i
      rw [List.take_succ_cons, potential, potential]
      omega

theorem potential_erase_le (hk : k ∈ l) : potential (n - 1) (l.erase k) m ≤ potential n l m := by
  induction l generalizing n with
  | nil => simp at hk
  | cons x l ih =>
    by_cases hx : x = k
    · subst hx
      rw [List.erase_cons_head, potential]
      omega
    · have hkl : k ∈ l := by
        rcases List.mem_cons.mp hk with rfl | hkl
        · exact absurd rfl hx
        · exact hkl
      have hrest : potential (n - 1 - 1) (l.erase k) m ≤ potential (n - 1) l m := ih hkl
      rw [List.erase_cons_tail (by simpa using hx), potential, potential]
      split_ifs <;> omega

theorem weight_le (n : ℕ) (hx : k ∈ m → k ∈ m') :
    (if k ∈ m' then 0 else n) ≤ if k ∈ m then 0 else n := by
  by_cases hk : k ∈ m'
  · rw [if_pos hk]
    exact Nat.zero_le _
  · rw [if_neg hk, if_neg fun h => hk (hx h)]

theorem potential_le_of_subset (h : ∀ x ∈ l, x ∈ m → x ∈ m') :
    potential n l m' ≤ potential n l m := by
  induction l generalizing n with
  | nil => exact Nat.le_refl _
  | cons x l ih =>
    obtain ⟨hx, hl⟩ := List.forall_mem_cons.mp h
    exact Nat.add_le_add (weight_le n hx) (ih hl)

theorem potential_drop_le (hl : l.Nodup) (hdrop : (m \ m').card ≤ 1) :
    potential n l m' ≤ potential n l m + n := by
  induction l generalizing n with
  | nil => exact Nat.zero_le _
  | cons x l ih =>
    obtain ⟨hxl, hl'⟩ := List.nodup_cons.mp hl
    by_cases hx : x ∈ m ∧ x ∉ m'
    · -- `x` is the key dropped, and the others weigh what they weighed
      have hothers : potential (n - 1) l m' ≤ potential (n - 1) l m := by
        refine potential_le_of_subset fun y hyl hym => ?_
        by_contra hym'
        have hxy := Finset.card_le_one.mp hdrop x (Finset.mem_sdiff.mpr hx) y
          (Finset.mem_sdiff.mpr ⟨hym, hym'⟩)
        exact hxl (hxy ▸ hyl)
      rw [potential, potential, if_pos hx.1, if_neg hx.2]
      omega
    · rw [not_and, not_not] at hx
      have hhead := weight_le n hx
      have hrest : potential (n - 1) l m' ≤ potential (n - 1) l m + (n - 1) := ih hl'
      rw [potential, potential]
      omega

end Potential

/-- The state of both memories: a recency list, and the keys of the other policy. While the list
has room, it holds everything that the other memory holds. -/
structure Rivals (ways : ℕ) (l : List κ) (m : Finset κ) : Prop where
  nodup : l.Nodup
  length_le : l.length ≤ ways
  card_le : m.card ≤ ways
  subset : l.length < ways → ∀ x ∈ m, x ∈ l

omit [DecidableEq κ] in
theorem rivals_nil (ways : ℕ) : Rivals ways ([] : List κ) ∅ where
  nodup := List.nodup_nil
  length_le := Nat.zero_le _
  card_le := Nat.zero_le _
  subset _ x hx := absurd hx (Finset.notMem_empty x)

section Step
variable {ways : ℕ} {l : List κ} {m m' : Finset κ} {k : κ}

/-- A miss of the list on a key that the other memory holds leaves it something to miss. -/
theorem Rivals.exists_missing (h : Rivals ways l m) (hk : k ∈ m) (hkl : k ∉ l) :
    ∃ x ∈ l, x ∉ m := by
  by_contra hall
  have hsub : insert k l.toFinset ⊆ m := by
    intro x hx
    by_contra hxm
    rcases Finset.mem_insert.mp hx with rfl | hxl
    · exact hxm hk
    · exact hall ⟨x, List.mem_toFinset.mp hxl, hxm⟩
  have hcard := Finset.card_le_card hsub
  rw [Finset.card_insert_of_notMem (by simpa using hkl),
    List.toFinset_card_of_nodup h.nodup] at hcard
  have hle := h.card_le
  exact hkl (h.subset (by omega) k hk)

theorem Rivals.step (h : Rivals ways l m) (hd : Demand ways k m m') :
    Rivals ways ((stack k l).take ways) m' where
  nodup := by
    refine List.Nodup.sublist (List.take_sublist _ _) (List.nodup_cons.mpr ⟨?_, h.nodup.erase k⟩)
    rw [h.nodup.mem_erase_iff]
    simp
  length_le := by
    rw [List.length_take]
    omega
  card_le := by
    unfold Demand at hd
    split_ifs at hd
    · exact hd ▸ h.card_le
    · exact hd.2.2.2
  subset hlt x hx := by
    have hle := h.length_le
    have hwhole : (stack k l).length < ways := by
      rw [List.length_take] at hlt
      omega
    have hroom : l.length < ways := by
      rw [stack, List.length_cons] at hwhole
      have := List.le_length_erase (a := k) (l := l)
      omega
    rw [List.take_of_length_le hwhole.le, mem_stack]
    have hxm : x = k ∨ x ∈ m := by
      unfold Demand at hd
      split_ifs at hd
      · exact Or.inr (hd ▸ hx)
      · exact Finset.mem_insert.mp (hd.2.1 hx)
    exact hxm.imp_right (h.subset hroom x)

theorem Demand.card_sdiff_le (hd : Demand ways k m m') (hk : k ∉ m) : (m \ m').card ≤ 1 := by
  rw [Demand, if_neg hk] at hd
  obtain ⟨-, hsub, hcard, -⟩ := hd
  have hout := Finset.card_sdiff_of_subset hsub
  rw [Finset.card_insert_of_notMem hk] at hout
  have hle := Finset.card_le_card
    (Finset.sdiff_subset_sdiff (Finset.subset_insert k m) (Finset.Subset.refl m'))
  omega

theorem Demand.mem (hd : Demand ways k m m') : k ∈ m' := by
  unfold Demand at hd
  split_ifs at hd with hk
  · exact hd ▸ hk
  · exact hd.1

/-- One use: what the list misses is paid by what the other memory misses, `ways` times over, or
by the potential. -/
theorem Rivals.miss_le (h : Rivals ways l m) (hpos : 0 < ways) (hd : Demand ways k m m') :
    (if k ∈ l then 0 else 1) + potential ways ((stack k l).take ways) m' ≤
      potential ways l m + ways * if k ∈ m then 0 else 1 := by
  obtain ⟨n, rfl⟩ := Nat.exists_eq_add_one_of_ne_zero (Nat.ne_of_gt hpos)
  have htake := potential_take_le n n (l.erase k) m'
  have hhead : potential (n + 1) ((stack k l).take (n + 1)) m' ≤ potential n (l.erase k) m' := by
    rw [stack, List.take_succ_cons, potential, if_pos hd.mem, Nat.add_sub_cancel, Nat.zero_add]
    exact htake
  have hage : potential n (l.erase k) m ≤ potential (n + 1) l m := by
    by_cases hkl : k ∈ l
    · exact potential_erase_le (n := n + 1) hkl
    · rw [List.erase_of_not_mem hkl]
      exact potential_mono (Nat.le_succ n) l m
  by_cases hk : k ∈ m
  · obtain rfl : m' = m := by rwa [Demand, if_pos hk] at hd
    rw [if_pos hk, Nat.mul_zero, Nat.add_zero]
    by_cases hkl : k ∈ l
    · rw [if_pos hkl]
      omega
    · have hlt : potential n l m' < potential (n + 1) l m' :=
        potential_lt (Nat.lt_succ_self n) (h.exists_missing hk hkl) h.length_le
      rw [List.erase_of_not_mem hkl] at hhead
      rw [if_neg hkl]
      omega
  · have hdrop : potential n (l.erase k) m' ≤ potential n (l.erase k) m + n :=
      potential_drop_le (h.nodup.erase k) (hd.card_sdiff_le hk)
    rw [if_neg hk, Nat.mul_one]
    split_ifs <;> omega

end Step

end Orga.Lru
