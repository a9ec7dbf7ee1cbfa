import Mathlib.Data.List.Nodup
import Mathlib.Data.List.Perm.Basic

/-! Least-recently-used replacement over arbitrary keys. A memory of a given number of ways is
a list of keys, most recent first, each with a mark that says whether it was written since it
was loaded. -/
namespace Orga.Lru
variable {κ : Type*} [DecidableEq κ]

/-- What an access does: it hits, fills a free way, or evicts a clean or a dirty key. -/
inductive Outcome where
  | hit
  | fill
  | clean
  | dirty
  deriving DecidableEq, Repr

/-- The list after `k` is used, with no limit on its length. -/
def touch (k : κ) (write : Bool) (l : List (κ × Bool)) : List (κ × Bool) :=
  match l.find? fun e => e.1 = k with
  | some e => (k, e.2 || write) :: l.eraseP fun e => e.1 = k
  | none => (k, write) :: l

/-- An access keeps the most recent keys. -/
def access (ways : ℕ) (k : κ) (write : Bool) (l : List (κ × Bool)) : List (κ × Bool) :=
  (touch k write l).take ways

def outcome (ways : ℕ) (k : κ) (l : List (κ × Bool)) : Outcome :=
  if k ∈ l.map Prod.fst then .hit
  else if l.length < ways then .fill
  else if (l.getLast?.map Prod.snd).getD false then .dirty
  else .clean

theorem outcome_eq_hit {ways : ℕ} {k : κ} {l : List (κ × Bool)} :
    outcome ways k l = .hit ↔ k ∈ l.map Prod.fst := by
  unfold outcome
  split_ifs <;> simp_all

section Touch
variable {k : κ} {w d : Bool} {l a b : List (κ × Bool)}

theorem touch_of_mem (ha : k ∉ a.map Prod.fst) (hl : l = a ++ (k, d) :: b) :
    touch k w l = (k, d || w) :: (a ++ b) := by
  have hne : ∀ e ∈ a, ¬ e.1 = k := fun e he heq => ha (List.mem_map.mpr ⟨e, he, heq⟩)
  have hfind : l.find? (fun e => e.1 = k) = some (k, d) := by
    rw [hl, List.find?_append, List.find?_eq_none.mpr (by simpa using hne)]
    simp
  have herase : l.eraseP (fun e => e.1 = k) = a ++ b := by
    rw [hl, List.eraseP_append_right _ (by simpa using hne)]
    simp
  rw [touch, hfind, herase]

theorem touch_of_notMem (hk : k ∉ l.map Prod.fst) : touch k w l = (k, w) :: l := by
  have hne : ∀ e ∈ l, ¬ e.1 = k := fun e he heq => hk (List.mem_map.mpr ⟨e, he, heq⟩)
  rw [touch, List.find?_eq_none.mpr (by simpa using hne)]

theorem exists_split (hk : k ∈ l.map Prod.fst) :
    ∃ a d b, l = a ++ (k, d) :: b ∧ k ∉ a.map Prod.fst := by
  induction l with
  | nil => simp at hk
  | cons e l ih =>
    by_cases he : e.1 = k
    · exact ⟨[], e.2, l, by rw [← he]; rfl, by simp⟩
    · have hl : k ∈ l.map Prod.fst := by
        rcases List.mem_cons.mp hk with h | h
        · exact absurd h.symm he
        · exact h
      obtain ⟨a, d, b, rfl, ha⟩ := ih hl
      exact ⟨e :: a, d, b, rfl, by simpa [Ne.symm he] using ha⟩

theorem keys_touch (k : κ) (w : Bool) (l : List (κ × Bool)) :
    (touch k w l).map Prod.fst = k :: (l.map Prod.fst).erase k := by
  by_cases hk : k ∈ l.map Prod.fst
  · obtain ⟨a, d, b, rfl, ha⟩ := exists_split hk
    rw [touch_of_mem ha rfl, List.map_append, List.map_cons, List.erase_append_right _ ha]
    simp
  · rw [touch_of_notMem hk, List.erase_of_not_mem hk]
    rfl

theorem keys_access (ways : ℕ) (k : κ) (w : Bool) (l : List (κ × Bool)) :
    (access ways k w l).map Prod.fst = (k :: (l.map Prod.fst).erase k).take ways := by
  rw [access, List.map_take, keys_touch]

theorem nodup_access (ways : ℕ) (k : κ) (w : Bool) (h : (l.map Prod.fst).Nodup) :
    ((access ways k w l).map Prod.fst).Nodup := by
  rw [keys_access]
  refine List.Nodup.sublist (List.take_sublist _ _) (List.nodup_cons.mpr ⟨?_, h.erase k⟩)
  rw [h.mem_erase_iff]
  simp

theorem length_access_le (ways : ℕ) (k : κ) (w : Bool) (l : List (κ × Bool)) :
    (access ways k w l).length ≤ ways := by
  rw [access, List.length_take]
  omega

theorem access_hit {ways : ℕ} (ha : k ∉ a.map Prod.fst) (hl : l = a ++ (k, d) :: b)
    (hlen : l.length ≤ ways) : access ways k w l = (k, d || w) :: (a ++ b) := by
  rw [access, touch_of_mem ha hl, List.take_of_length_le]
  rw [hl] at hlen
  simpa [Nat.add_assoc] using hlen

theorem access_fill {ways : ℕ} (hk : k ∉ l.map Prod.fst) (hlen : l.length < ways) :
    access ways k w l = (k, w) :: l := by
  rw [access, touch_of_notMem hk, List.take_of_length_le (by rw [List.length_cons]; omega)]

theorem access_evict {ways : ℕ} {e : κ × Bool} (hk : k ∉ l.map Prod.fst) (hl : l = a ++ [e])
    (hlen : l.length = ways) : access ways k w l = (k, w) :: a := by
  subst hl
  rw [access, touch_of_notMem hk, ← hlen, List.length_append, List.length_singleton,
    List.take_succ_cons, List.take_left]

/-- The three things an access can do: hit, fill a free way, or evict the last key. -/
theorem access_cases {ways : ℕ} (k : κ) (w : Bool) (hlen : l.length ≤ ways) (hpos : 0 < ways) :
    (∃ a d b, l = a ++ (k, d) :: b ∧ outcome ways k l = .hit ∧
      access ways k w l = (k, d || w) :: (a ++ b)) ∨
    (l.length < ways ∧ outcome ways k l = .fill ∧ access ways k w l = (k, w) :: l) ∨
    ∃ a e, l = a ++ [e] ∧ outcome ways k l = (if e.2 then .dirty else .clean) ∧
      access ways k w l = (k, w) :: a := by
  by_cases hk : k ∈ l.map Prod.fst
  · obtain ⟨a, d, b, hl, ha⟩ := exists_split hk
    exact Or.inl ⟨a, d, b, hl, outcome_eq_hit.mpr hk, access_hit ha hl hlen⟩
  by_cases hlt : l.length < ways
  · refine Or.inr (Or.inl ⟨hlt, ?_, access_fill hk hlt⟩)
    rw [outcome, if_neg hk, if_pos hlt]
  · rcases List.eq_nil_or_concat' l with hnil | ⟨a, e, hl⟩
    · rw [hnil] at hlt
      exact absurd hpos hlt
    · refine Or.inr (Or.inr ⟨a, e, hl, ?_, access_evict hk hl (by omega)⟩)
      rw [outcome, if_neg hk, if_neg hlt, hl]
      simp

theorem length_access_le_add {ways : ℕ} (k : κ) (w : Bool) (hlen : l.length ≤ ways)
    (hpos : 0 < ways) :
    (access ways k w l).length ≤ l.length + if outcome ways k l = .hit then 0 else 1 := by
  rcases access_cases k w hlen hpos with ⟨a, d, b, rfl, ho, hacc⟩ | ⟨-, ho, hacc⟩ |
    ⟨a, e, rfl, ho, hacc⟩
  · rw [ho, hacc]
    simp [Nat.add_assoc]
  · rw [ho, hacc]
    simp
  · rw [ho, hacc]
    cases e.2 <;> simp

/-- A mark is set by a write and is still there until a dirty key is evicted. -/
theorem marks_access_le {ways : ℕ} (k : κ) (w : Bool) (hlen : l.length ≤ ways) (hpos : 0 < ways) :
    (if outcome ways k l = .dirty then 1 else 0) + (access ways k w l).countP Prod.snd ≤
      l.countP Prod.snd + if w then 1 else 0 := by
  rcases access_cases k w hlen hpos with ⟨a, d, b, rfl, ho, hacc⟩ | ⟨-, ho, hacc⟩ |
    ⟨a, e, rfl, ho, hacc⟩
  · rw [ho, hacc]
    cases d <;> cases w <;> simp [Nat.add_comm]
    omega
  · rw [ho, hacc]
    cases w <;> simp
  · rw [ho, hacc]
    cases he : e.2 <;> cases w <;> simp [he, Nat.add_comm]

end Touch

/-- A memory in a state that its accesses can reach: no key twice, no more than `ways`. -/
structure Recency (κ : Type*) (ways : ℕ) where
  entries : List (κ × Bool)
  nodup : (entries.map Prod.fst).Nodup
  bound : entries.length ≤ ways

namespace Recency
variable {ways : ℕ}

def empty : Recency κ ways := ⟨[], List.nodup_nil, Nat.zero_le _⟩

def access (r : Recency κ ways) (k : κ) (write : Bool) : Recency κ ways :=
  ⟨Lru.access ways k write r.entries, nodup_access ways k write r.nodup,
    length_access_le ways k write r.entries⟩

def outcome (r : Recency κ ways) (k : κ) : Outcome := Lru.outcome ways k r.entries

end Recency

section Map
variable {μ : Type*} [DecidableEq μ] {f : κ → μ}

theorem access_map (hf : Function.Injective f) (ways : ℕ) (k : κ) (w : Bool)
    (l : List (κ × Bool)) :
    access ways (f k) w (l.map (Prod.map f id)) = (access ways k w l).map (Prod.map f id) := by
  rw [access, access, List.map_take]
  congr 1
  have hkeys : ∀ l : List (κ × Bool),
      (l.map (Prod.map f id)).map Prod.fst = (l.map Prod.fst).map f := fun l => by simp
  by_cases hk : k ∈ l.map Prod.fst
  · obtain ⟨a, d, b, rfl, ha⟩ := exists_split hk
    have ha' : f k ∉ (a.map (Prod.map f id)).map Prod.fst := by
      rw [hkeys, List.mem_map_of_injective hf]
      exact ha
    rw [touch_of_mem ha rfl, touch_of_mem ha' (List.map_append ..)]
    simp
  · have hk' : f k ∉ (l.map (Prod.map f id)).map Prod.fst := by
      rw [hkeys, List.mem_map_of_injective hf]
      exact hk
    rw [touch_of_notMem hk, touch_of_notMem hk']
    rfl

theorem outcome_map (hf : Function.Injective f) (ways : ℕ) (k : κ) (l : List (κ × Bool)) :
    outcome ways (f k) (l.map (Prod.map f id)) = outcome ways k l := by
  have hkeys : f k ∈ (l.map (Prod.map f id)).map Prod.fst ↔ k ∈ l.map Prod.fst := by
    rw [← List.mem_map_of_injective hf]
    simp
  unfold outcome
  simp only [hkeys, List.length_map, List.getLast?_map, Option.map_map]
  rfl

end Map

/-- The recency stack: every key used so far, most recent first. -/
def stack (k : κ) (s : List κ) : List κ := k :: s.erase k

/-- The keys of a smaller memory are the top of the stack, at every size. -/
theorem take_stack (n : ℕ) (k : κ) (s : List κ) :
    (stack k (s.take n)).take n = (stack k s).take n := by
  cases n with
  | zero => rfl
  | succ n =>
    rw [stack, stack, List.take_succ_cons, List.take_succ_cons]
    congr 1
    induction s generalizing n with
    | nil => rfl
    | cons x s ih =>
      rw [List.take_succ_cons]
      by_cases hx : x = k
      · subst hx
        rw [List.erase_cons_head, List.erase_cons_head, List.take_take, Nat.min_self]
      · rw [List.erase_cons_tail (by simpa using hx), List.erase_cons_tail (by simpa using hx)]
        cases n with
        | zero => rfl
        | succ n => rw [List.take_succ_cons, List.take_succ_cons, ih]

/-- The entries hold the top of a stack. -/
def Top (ways : ℕ) (s : List κ) (l : List (κ × Bool)) : Prop := l.map Prod.fst = s.take ways

omit [DecidableEq κ] in
theorem top_nil (ways : ℕ) : Top ways ([] : List κ) [] := List.take_nil.symm

theorem Top.access {ways : ℕ} {s : List κ} {l : List (κ × Bool)} (h : Top ways s l) (k : κ)
    (w : Bool) : Top ways (stack k s) (access ways k w l) := by
  rw [Top, keys_access, h]
  exact take_stack ways k s

/-- Inclusion: a hit in the smaller memory is a hit in the larger one. -/
theorem Top.hit {ways ways' : ℕ} {s : List κ} {l l' : List (κ × Bool)} {k : κ}
    (h : Top ways s l) (h' : Top ways' s l') (hle : ways ≤ ways')
    (hit : outcome ways k l = .hit) : outcome ways' k l' = .hit := by
  rw [outcome_eq_hit, h] at hit
  rw [outcome_eq_hit, h']
  exact (List.take_prefix_take_left hle).subset hit

end Orga.Lru
