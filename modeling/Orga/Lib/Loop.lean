import Mathlib.Data.Sum.Basic

/-! A loop as the function of its body: the next state, or the value it returns. -/
namespace Orga.Loop

variable {σ α : Type*} {step : σ → σ ⊕ α}

/-- The loop, entered in a state, ends and returns a value. -/
inductive Returns (step : σ → σ ⊕ α) : σ → α → Prop
  | done {s : σ} {a : α} : step s = .inr a → Returns step s a
  | next {s s' : σ} {a : α} : step s = .inl s' → Returns step s' a → Returns step s a

theorem Returns.unique {s : σ} {a b : α} (ha : Returns step s a) (hb : Returns step s b) :
    a = b := by
  induction ha with
  | done hstep =>
    cases hb with
    | done hstep' => exact Sum.inr.inj (hstep.symm.trans hstep')
    | next hstep' _ => cases hstep.symm.trans hstep'
  | next hstep _ ih =>
    cases hb with
    | done hstep' => cases hstep.symm.trans hstep'
    | next hstep' hb =>
      cases Sum.inl.inj (hstep.symm.trans hstep')
      exact ih hb

/-- What every step keeps, the last step included, holds of the value. -/
theorem Returns.of_invariant {I : σ → Prop} {P : α → Prop}
    (hnext : ∀ s s', I s → step s = .inl s' → I s') (hdone : ∀ s a, I s → step s = .inr a → P a)
    {s : σ} {a : α} (h : Returns step s a) (hs : I s) : P a := by
  induction h with
  | done hstep => exact hdone _ _ hs hstep
  | next hstep _ ih => exact ih (hnext _ _ hs hstep)

end Orga.Loop
