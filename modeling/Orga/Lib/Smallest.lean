import Mathlib.Data.List.Sort

/-! The `k` smallest of the items seen so far, kept in order while the items come one after
another. -/
namespace Orga.Smallest
variable {α : Type} [LinearOrder α]

/-- What is kept of the items. -/
structure Kept (k : ℕ) (kept items : List α) : Prop where
  sorted : kept.Pairwise (· ≤ ·)
  length : kept.length = min k items.length
  rest : ∃ dropped, (kept ++ dropped).Perm items ∧ ∀ d ∈ dropped, ∀ a ∈ kept, a ≤ d

section Uses
variable {k : ℕ} {kept items : List α}

/-- What is kept is the beginning of the sorted items. -/
theorem Kept.eq_take (h : Kept k kept items) :
    kept = (items.insertionSort (· ≤ ·)).take k := by
  obtain ⟨dropped, hperm, hle⟩ := h.rest
  have hlen := h.length
  have hsum : kept.length + dropped.length = items.length := by
    rw [← List.length_append]
    exact hperm.length_eq
  have hdropped := List.perm_insertionSort (· ≤ ·) dropped
  have hsorted : (kept ++ dropped.insertionSort (· ≤ ·)).Pairwise (· ≤ ·) := by
    apply List.pairwise_append.mpr
    refine ⟨h.sorted, List.pairwise_insertionSort _ dropped, ?_⟩
    exact fun a ha d hd => hle d (hdropped.mem_iff.mp hd) a ha
  have heq : kept ++ dropped.insertionSort (· ≤ ·) = items.insertionSort (· ≤ ·) := by
    apply List.Perm.eq_of_pairwise' hsorted (List.pairwise_insertionSort _ items)
    exact ((hdropped.append_left kept).trans hperm).trans (List.perm_insertionSort _ items).symm
  rw [← heq]
  by_cases hfull : k ≤ items.length
  · rw [List.take_left' (by omega)]
  · have hnil : dropped = [] := List.length_eq_zero_iff.mp (by omega)
    rw [hnil, List.insertionSort_nil, List.append_nil, List.take_of_length_le (by omega)]

theorem Kept.head_le {a : α} {rest : List α} (h : Kept k (a :: rest) items) :
    a ∈ items ∧ ∀ b ∈ items, a ≤ b := by
  obtain ⟨dropped, hperm, hle⟩ := h.rest
  refine ⟨hperm.mem_iff.mp List.mem_cons_self, fun b hb => ?_⟩
  rw [← hperm.mem_iff, List.mem_append, List.mem_cons] at hb
  obtain (rfl | hb) | hb := hb
  · exact le_rfl
  · exact List.rel_of_pairwise_cons h.sorted hb
  · exact hle b hb a List.mem_cons_self

end Uses

section Items
variable {k : ℕ} {kept kept' items : List α} {v : α}

theorem Kept.nil : Kept k ([] : List α) [] :=
  ⟨List.Pairwise.nil, (Nat.min_zero k).symm, [], List.Perm.refl [],
    fun _ h => absurd h List.not_mem_nil⟩

/-- As long as there is room every item is kept. -/
theorem Kept.add (h : Kept k kept items) (hroom : items.length < k)
    (hsorted : kept'.Pairwise (· ≤ ·)) (hperm : kept'.Perm (kept ++ [v])) :
    Kept k kept' (items ++ [v]) := by
  obtain ⟨dropped, hitems, -⟩ := h.rest
  have hlen := h.length
  have hsum := hitems.length_eq
  rw [List.length_append] at hsum
  have hnil : dropped = [] := List.length_eq_zero_iff.mp (by omega)
  rw [hnil, List.append_nil] at hitems
  refine ⟨hsorted, ?_, [], ?_, fun _ h => absurd h List.not_mem_nil⟩
  · rw [hperm.length_eq, List.length_append, List.length_append, List.length_singleton]
    omega
  · rw [List.append_nil]
    exact hperm.trans (hitems.append_right [v])

theorem Kept.replace {init : List α} {last : α} (h : Kept k (init ++ [last]) items)
    (hfull : k ≤ items.length) (hlt : v < last) (hsorted : kept'.Pairwise (· ≤ ·))
    (hperm : kept'.Perm (init ++ [v])) : Kept k kept' (items ++ [v]) := by
  obtain ⟨dropped, hitems, hle⟩ := h.rest
  have hlen := h.length
  rw [List.length_append, List.length_singleton] at hlen
  have hlast : ∀ a ∈ kept', a ≤ last := by
    intro a ha
    rw [hperm.mem_iff, List.mem_append, List.mem_singleton] at ha
    obtain ha | rfl := ha
    · exact (List.pairwise_append.mp h.sorted).2.2 a ha last (List.mem_singleton_self last)
    · exact hlt.le
  refine ⟨hsorted, ?_, last :: dropped, ?_, ?_⟩
  · rw [hperm.length_eq, List.length_append, List.length_append, List.length_singleton]
    omega
  · have hmove : (init ++ [v] ++ (last :: dropped)).Perm (init ++ [last] ++ dropped ++ [v]) := by
      rw [List.append_assoc, List.append_assoc, List.append_assoc]
      exact List.perm_append_comm.append_left init
    exact (hperm.append_right _).trans (hmove.trans (hitems.append_right [v]))
  · intro d hd a ha
    rw [List.mem_cons] at hd
    obtain rfl | hd := hd
    · exact hlast a ha
    · exact (hlast a ha).trans (hle d hd last (List.mem_append_right init List.mem_cons_self))

theorem Kept.skip (h : Kept k kept items) (hfull : k ≤ items.length) (hle : ∀ a ∈ kept, a ≤ v) :
    Kept k kept (items ++ [v]) := by
  obtain ⟨dropped, hitems, hdropped⟩ := h.rest
  have hlen := h.length
  refine ⟨h.sorted, ?_, dropped ++ [v], ?_, ?_⟩
  · rw [List.length_append, List.length_singleton]
    omega
  · rw [← List.append_assoc]
    exact hitems.append_right [v]
  · intro d hd
    rw [List.mem_append, List.mem_singleton] at hd
    obtain hd | rfl := hd
    · exact hdropped d hd
    · exact hle

end Items

end Orga.Smallest
