import Mathlib.Data.List.Basic

/-! Decoders that read one value off the front of a list of symbols, or nothing when the
list is too short to tell. Such a decoder can be run over a stream in pieces: what a piece
leaves over goes in front of the next one. -/
namespace Orga.Decoding

/-- `next` gives a value and the symbols it took; symbols that follow do not change it. -/
structure Decoder (α β : Type*) where
  next : List α → Option (β × ℕ)
  progress : ∀ {buf : List α} {x : β} {k : ℕ}, next buf = some (x, k) → 0 < k ∧ k ≤ buf.length
  stable : ∀ {buf : List α} {x : β} {k : ℕ} (more : List α), next buf = some (x, k) →
    next (buf ++ more) = some (x, k)

namespace Decoder
variable {α β : Type*} (d : Decoder α β)

/-- The values read from `buf` one after another, and what is left. -/
def run (buf : List α) : List β × List α :=
  match h : d.next buf with
  | none => ([], buf)
  | some (x, k) => (x :: (run (buf.drop k)).1, (run (buf.drop k)).2)
termination_by buf.length
decreasing_by
  all_goals
    have hk := d.progress h
    rw [List.length_drop]
    omega

variable {d} {buf : List α}

theorem run_none (h : d.next buf = none) : d.run buf = ([], buf) := by
  rw [run]
  split
  · rfl
  · simp_all

theorem run_some {x : β} {k : ℕ} (h : d.next buf = some (x, k)) :
    d.run buf = (x :: (d.run (buf.drop k)).1, (d.run (buf.drop k)).2) := by
  rw [run]
  split
  · simp_all
  · simp_all

theorem run_induction {P : List α → Prop} (hnone : ∀ buf, d.next buf = none → P buf)
    (hsome : ∀ buf x k, d.next buf = some (x, k) → P (buf.drop k) → P buf) (buf : List α) :
    P buf := by
  induction hn : buf.length using Nat.strongRecOn generalizing buf with
  | ind n ih =>
    cases h : d.next buf with
    | none => exact hnone buf h
    | some r =>
      obtain ⟨x, k⟩ := r
      have hk := d.progress h
      exact hsome buf x k h (ih _ (by rw [List.length_drop]; omega) _ rfl)

theorem next_rest (buf : List α) : d.next (d.run buf).2 = none := by
  induction buf using run_induction (d := d) with
  | hnone buf h => rw [run_none h, h]
  | hsome buf x k h ih => rw [run_some h]; exact ih

theorem rest_suffix (buf : List α) : (d.run buf).2 <:+ buf := by
  induction buf using run_induction (d := d) with
  | hnone buf h =>
    simp [run_none h]
  | hsome buf x k h ih =>
    rw [run_some h]
    exact ih.trans (List.drop_suffix k buf)

theorem length_run_le {m : ℕ} (hm : ∀ buf x k, d.next buf = some (x, k) → m ≤ k) (buf : List α) :
    m * (d.run buf).1.length + (d.run buf).2.length ≤ buf.length := by
  induction buf using run_induction (d := d) with
  | hnone buf h => simp [run_none h]
  | hsome buf x k h ih =>
    have hk := d.progress h
    have hmk := hm buf x k h
    rw [run_some h]
    rw [List.length_drop] at ih
    simp only [List.length_cons, Nat.mul_add, Nat.mul_one]
    omega

theorem forall_mem_run {P : β → Prop} (hP : ∀ buf x k, d.next buf = some (x, k) → P x)
    (buf : List α) : ∀ x ∈ (d.run buf).1, P x := by
  induction buf using run_induction (d := d) with
  | hnone buf h => simp [run_none h]
  | hsome buf x k h ih =>
    rw [run_some h]
    exact List.forall_mem_cons.mpr ⟨hP buf x k h, ih⟩

theorem run_append (buf more : List α) :
    d.run (buf ++ more) = ((d.run buf).1 ++ (d.run ((d.run buf).2 ++ more)).1,
      (d.run ((d.run buf).2 ++ more)).2) := by
  induction buf using run_induction (d := d) with
  | hnone buf h => simp [run_none h]
  | hsome buf x k h ih =>
    have hk := d.progress h
    rw [run_some (d.stable more h), run_some h, List.drop_append_of_le_length hk.2, ih]
    rfl

/-- A run over encoded values gives them back. -/
theorem run_flatMap {enc : β → List α} {P : β → Prop}
    (henc : ∀ x rest, P x → d.next (enc x ++ rest) = some (x, (enc x).length)) {xs : List β}
    (hxs : ∀ x ∈ xs, P x) (rest : List α) :
    d.run (xs.flatMap enc ++ rest) = (xs ++ (d.run rest).1, (d.run rest).2) := by
  induction xs with
  | nil => rfl
  | cons x xs ih =>
    have hx := henc x (xs.flatMap enc ++ rest) (hxs x (by simp))
    rw [List.flatMap_cons, List.append_assoc, run_some hx, List.drop_left,
      ih fun y hy => hxs y (by simp [hy])]
    rfl

end Decoder

end Orga.Decoding
