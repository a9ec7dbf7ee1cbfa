import Orga.CacheSim.Reuse
import Orga.Lib.LruCompetitive

/-! The misses of the simulator against those of any other choice of the lines that go. -/
namespace Orga.CacheSim
open Orga.Lru

/-- A cache of the same shape with another policy: each access acts on the tags of its set. The
last index counts the misses. -/
inductive Atiende (g : Geometria) : (ℕ → Finset Int32) → List Traza → ℕ → Prop
  | fin (m : ℕ → Finset Int32) : Atiende g m [] 0
  | acceso {m : ℕ → Finset Int32} {traza : Traza} {trazas : List Traza} {n : ℕ} {s : ℕ}
      {tag : Int32} {m' : Finset Int32} (hs : s = g.setDe traza.direccionAccedida)
      (ht : tag = g.tagDe traza.direccionAccedida) (hd : Demand g.ways tag (m s) m')
      (h : Atiende g (Function.update m s m') trazas n) :
      Atiende g m (traza :: trazas) ((if tag ∈ m s then 0 else 1) + n)

section Runs
variable {g : Geometria} {cache : Cache} {f : ℕ → List (Int32 × Bool)} {m : ℕ → Finset Int32}
  {trazas : List Traza} {n : ℕ}

theorem fallo_outcome (ways : ℕ) (tag : Int32) (l : List (Int32 × Bool)) :
    fallo (outcome ways tag l) = if tag ∈ l.map Prod.fst then 0 else 1 := by
  unfold fallo
  simp only [outcome_eq_hit]

/-- The misses of a run from any state are paid by those of the other policy and the potentials of
the sets. -/
theorem Atiende.run (h : Atiende g m trazas n) (hsim : Simula g cache f)
    (hr : ∀ s, Rivals g.ways ((f s).map Prod.fst) (m s)) :
    (simularCacheSimple cache trazas).metricas.totalMisses ≤ cache.metricas.totalMisses +
      ∑ s ∈ Finset.range g.sets, potential g.ways ((f s).map Prod.fst) (m s) + g.ways * n := by
  induction h generalizing cache f with
  | fin m => exact Nat.le_add_right _ _ |>.trans (Nat.le_add_right _ _)
  | @acceso m traza trazas n s tag m' hs ht hd h ih =>
    obtain ⟨-, ⟨set', hcache⟩, hnext⟩ := hsim.step traza hs ht
    have hslt : s < g.sets := hs ▸ g.setDe_lt traza.direccionAccedida
    have hmiss := (hr s).miss_le g.ways_pos hd
    have hkeys : (access g.ways tag (decide (traza.instruccion ≠ lectura)) (f s)).map Prod.fst =
        (stack tag ((f s).map Prod.fst)).take g.ways := keys_access ..
    rw [← hkeys, ← fallo_outcome g.ways] at hmiss
    -- only the potential of this set changes
    have hpair : ∀ k, Function.update (fun k => (f k, m k)) s
        (access g.ways tag (decide (traza.instruccion ≠ lectura)) (f s), m') k =
          (Function.update f s (access g.ways tag (decide (traza.instruccion ≠ lectura)) (f s)) k,
            Function.update m s m' k) := by
      intro k
      by_cases hk : k = s
      · subst hk
        simp
      · simp [hk]
    have hsum := sum_update (fun p => potential g.ways (p.1.map Prod.fst) p.2)
      (fun k => (f k, m k)) (access g.ways tag (decide (traza.instruccion ≠ lectura)) (f s), m')
      hslt
    simp only [hpair] at hsum
    have hrest := ih hnext fun k => ?_
    · rw [hcache, (totales_tras traza cache s set' _).1, ← hcache] at hrest
      rw [simularCacheSimple_cons, Nat.mul_add]
      omega
    · by_cases hk : k = s
      · subst hk
        rw [Function.update_self, Function.update_self, hkeys]
        exact (hr k).step hd
      · rw [Function.update_of_ne hk, Function.update_of_ne hk]
        exact hr k

end Runs

/-- No policy does better by more than the number of lines in a set, not even one that knows the
whole trace. -/
theorem competitiva (g : Geometria) {trazas : List Traza} {n : ℕ}
    (h : Atiende g (fun _ => ∅) trazas n) :
    (simularCacheSimple g.crear trazas).metricas.totalMisses ≤ g.ways * n := by
  have hrun := h.run (simula_crear g) fun _ => rivals_nil g.ways
  have hzero : ∑ s ∈ Finset.range g.sets,
      potential g.ways (([] : List (Int32 × Bool)).map Prod.fst) ∅ = 0 :=
    Finset.sum_eq_zero fun _ _ => rfl
  rw [hzero] at hrun
  exact hrun.trans (by show 0 + 0 + _ ≤ _; omega)

/-- Three blocks in a set of two lines: the third takes the place of the second, not of the first,
which is used once more. -/
theorem competitiva_sample :
    (simularCacheSimple (Geometria.crear ⟨0, 1, 3, by decide⟩)
      [⟨0, 'R'⟩, ⟨8, 'R'⟩, ⟨16, 'W'⟩, ⟨0, 'R'⟩]).metricas.totalMisses ≤ 2 * 3 :=
  have hrival : Atiende ⟨0, 1, 3, by decide⟩ (fun _ => ∅)
      [⟨0, 'R'⟩, ⟨8, 'R'⟩, ⟨16, 'W'⟩, ⟨0, 'R'⟩] _ :=
    @Atiende.acceso _ _ _ _ _ 0 0 {0} (by decide) (by decide) (by decide) <|
    @Atiende.acceso _ _ _ _ _ 0 1 {0, 1} (by decide) (by decide) (by decide) <|
    @Atiende.acceso _ _ _ _ _ 0 2 {0, 2} (by decide) (by decide) (by decide) <|
    @Atiende.acceso _ _ _ _ _ 0 0 {0, 2} (by decide) (by decide) (by decide) <| Atiende.fin _
  (competitiva _ hrival).trans (by decide)

end Orga.CacheSim
