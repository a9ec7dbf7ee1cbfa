import Orga.CacheSim.Counters

/-! Two caches with the same sets and blocks, the second with more lines in each set. Both hold
the top of one recency stack, so the second hits whenever the first does. -/
namespace Orga.CacheSim
open Orga.Lru

/-- The second cache holds all that the first one holds, and has missed no more. -/
structure Incluida (g g' : Geometria) (cache cache' : Cache) : Prop where
  pila : ∃ f f', Simula g cache f ∧ Simula g' cache' f' ∧
    ∀ s, ∃ pila, Top g.ways pila (f s) ∧ Top g'.ways pila (f' s)
  missesRead : cache'.metricas.missesRead ≤ cache.metricas.missesRead
  missesWrite : cache'.metricas.missesWrite ≤ cache.metricas.missesWrite
  bytesRead : cache'.metricas.bytesRead ≤ cache.metricas.bytesRead

theorem incluida_crear (g g' : Geometria) : Incluida g g' g.crear g'.crear where
  pila := ⟨_, _, simula_crear g, simula_crear g', fun _ => ⟨[], top_nil _, top_nil _⟩⟩
  missesRead := Nat.le_refl _
  missesWrite := Nat.le_refl _
  bytesRead := Nat.le_refl _

section Runs
variable {g g' : Geometria} (hset : g.bitsSet = g'.bitsSet) (hoff : g.bitsOffset = g'.bitsOffset)
  (hlin : g.bitsLineas ≤ g'.bitsLineas)
include hset hoff hlin

theorem Incluida.step {cache cache' : Cache} (h : Incluida g g' cache cache') (traza : Traza) :
    (desenlace cache traza = .hit → desenlace cache' traza = .hit) ∧
      Incluida g g' (acceder cache none traza).cache (acceder cache' none traza).cache := by
  obtain ⟨f, f', hf, hf', htop⟩ := h.pila
  have hs : g.setDe traza.direccionAccedida = g'.setDe traza.direccionAccedida := by
    simp only [Geometria.setDe, Geometria.bloque, Geometria.sets, hset, hoff]
  have ht : g.tagDe traza.direccionAccedida = g'.tagDe traza.direccionAccedida := by
    simp only [Geometria.tagDe, hset, hoff]
  have hways : g.ways ≤ g'.ways := Nat.pow_le_pow_right (by omega) hlin
  have hbloque : cache'.tamanioBloque = cache.tamanioBloque := by
    rw [hf.forma.bloque, hf'.forma.bloque, Geometria.bloque, Geometria.bloque, hoff]
  obtain ⟨hdes, ⟨set, hcache⟩, hnext⟩ := hf.step traza rfl rfl
  obtain ⟨hdes', ⟨set', hcache'⟩, hnext'⟩ := hf'.step traza hs ht
  have hhit : outcome g.ways (g.tagDe traza.direccionAccedida)
        (f (g.setDe traza.direccionAccedida)) = .hit →
      outcome g'.ways (g.tagDe traza.direccionAccedida)
        (f' (g.setDe traza.direccionAccedida)) = .hit := by
    obtain ⟨pila, hpila, hpila'⟩ := htop (g.setDe traza.direccionAccedida)
    exact hpila.hit hpila' hways
  have hfallo := fallo_le hhit
  refine ⟨by rwa [hdes, hdes'], ⟨_, _, hnext, hnext', fun s => ?_⟩, ?_, ?_, ?_⟩
  · obtain ⟨pila, hpila, hpila'⟩ := htop s
    by_cases heq : s = g.setDe traza.direccionAccedida
    · subst heq
      refine ⟨stack (g.tagDe traza.direccionAccedida) pila, ?_, ?_⟩
      · simpa using hpila.access _ _
      · simpa using hpila'.access _ _
    · exact ⟨pila, by simpa [heq] using hpila, by simpa [heq] using hpila'⟩
  all_goals rw [hcache, hcache', Cache.tras, Cache.tras, actualizarMetricas_eq,
    actualizarMetricas_eq]
  · exact Nat.add_le_add h.missesRead (Nat.mul_le_mul_left _ hfallo)
  · exact Nat.add_le_add h.missesWrite (Nat.mul_le_mul_left _ hfallo)
  · rw [hbloque]
    exact Nat.add_le_add h.bytesRead (Nat.mul_le_mul_left _ hfallo)

theorem Incluida.run {cache cache' : Cache} (h : Incluida g g' cache cache')
    (trazas : List Traza) :
    (∀ n : ℕ, (desenlaces cache trazas)[n]? = some Outcome.hit →
        (desenlaces cache' trazas)[n]? = some Outcome.hit) ∧
      Incluida g g' (simularCacheSimple cache trazas) (simularCacheSimple cache' trazas) := by
  induction trazas generalizing cache cache' with
  | nil => exact ⟨fun n hn => hn, h⟩
  | cons traza trazas ih =>
    obtain ⟨hhit, hnext⟩ := h.step hset hoff hlin traza
    obtain ⟨hrest, hfinal⟩ := ih hnext
    rw [simularCacheSimple_cons, simularCacheSimple_cons, desenlaces_cons, desenlaces_cons]
    refine ⟨fun n => ?_, hfinal⟩
    cases n with
    | zero => simpa using hhit
    | succ n => simpa using hrest n

end Runs

/-- More lines in each set keep every hit. They add no miss while no counter overflows, which
takes `2 ^ 31` reads or as many writes. -/
theorem inclusion {tamanio tamanio' asoc asoc' sets : ℕ} (htam : tamanio < 2 ^ 31)
    (htam' : tamanio' < 2 ^ 31) (hacepta : mainAcepta tamanio asoc sets = true)
    (hacepta' : mainAcepta tamanio' asoc' sets = true) (hasoc : asoc ≤ asoc')
    (hbloque : tamanio / (asoc * sets) = tamanio' / (asoc' * sets)) (trazas : List Traza) :
    let cache := crearCache tamanio asoc sets
    let cache' := crearCache tamanio' asoc' sets
    let m := contar cache cache.metricas.contadores trazas
    let m' := contar cache' cache'.metricas.contadores trazas
    (∀ n : ℕ, (desenlaces cache trazas)[n]? = some Outcome.hit →
        (desenlaces cache' trazas)[n]? = some Outcome.hit) ∧
      (contarLecturas trazas < 2 ^ 31 → contarEscrituras trazas < 2 ^ 31 →
        (Caben (simularCacheSimple cache trazas) ∧ Caben (simularCacheSimple cache' trazas)) ∧
          m'.missesRead ≤ m.missesRead ∧ m'.missesWrite ≤ m.missesWrite ∧
            m'.bytesRead ≤ m.bytesRead) := by
  obtain ⟨g, rfl, rfl, rfl⟩ := (mainAcepta_iff htam).mp hacepta
  obtain ⟨g', rfl, rfl, hsets⟩ := (mainAcepta_iff htam').mp hacepta'
  have hset : g.bitsSet = g'.bitsSet := (Nat.pow_right_injective (Nat.le_refl 2) hsets).symm
  have hlin : g.bitsLineas ≤ g'.bitsLineas := (Nat.pow_le_pow_iff_right (by omega)).mp hasoc
  have hoff : g.bitsOffset = g'.bitsOffset := by
    rw [g.bloque_eq, ← hsets, g'.bloque_eq] at hbloque
    exact Nat.pow_right_injective (Nat.le_refl 2) hbloque
  obtain ⟨hhit, hfinal⟩ := (incluida_crear g g').run hset hoff hlin trazas
  have hcrear : crearCache g'.tamanio g'.ways g.sets = g'.crear := by rw [Geometria.crear, hsets]
  rw [hcrear]
  intro cache cache' m m'
  refine ⟨hhit, fun hlee hescribe => ?_⟩
  have hm : m.Valen (simularCacheSimple cache trazas).metricas := contar_valen g hlee hescribe
  have hm' : m'.Valen (simularCacheSimple cache' trazas).metricas := contar_valen g' hlee hescribe
  refine ⟨⟨caben_crear g hlee hescribe, caben_crear g' hlee hescribe⟩, ?_, ?_, ?_⟩
  · rw [Int32.le_iff_toInt_le, hm.missesRead, hm'.missesRead]
    exact_mod_cast hfinal.missesRead
  · rw [Int32.le_iff_toInt_le, hm.missesWrite, hm'.missesWrite]
    exact_mod_cast hfinal.missesWrite
  · rw [Int64.le_iff_toInt_le, hm.bytesRead, hm'.bytesRead]
    exact_mod_cast hfinal.bytesRead

theorem inclusion_sample :
    let trazas : List Traza := [⟨0, 'R'⟩, ⟨16, 'W'⟩, ⟨0, 'R'⟩]
    let cache := crearCache 16 1 2
    let cache' := crearCache 32 2 2
    mainAcepta 16 1 2 = true ∧ mainAcepta 32 2 2 = true ∧
      (contar cache' cache'.metricas.contadores trazas).missesRead ≤
        (contar cache cache.metricas.contadores trazas).missesRead :=
  have h : mainAcepta 16 1 2 = true := by decide
  have h' : mainAcepta 32 2 2 = true := by decide
  ⟨h, h', ((inclusion (by decide) (by decide) h h' (by decide) (by decide) _).2
    (by decide) (by decide)).2.1⟩

/-- Reads of two blocks of one set, in turn. -/
def alternadas (n : ℕ) : List Traza := (List.replicate n [⟨0, 'R'⟩, ⟨16, 'R'⟩]).flatten

section Turns
variable {g : Geometria} {cache : Cache} {f : ℕ → List (Int32 × Bool)} {l l' : List (Int32 × Bool)}
  {k : ℕ}

theorem Simula.stepRead (h : Simula g cache f) {direccion : UInt32} {s : ℕ} {tag : Int32}
    (hs : s = g.setDe direccion) (ht : tag = g.tagDe direccion) :
    (acceder cache none ⟨direccion, 'R'⟩).cache.metricas.missesRead =
        cache.metricas.missesRead + fallo (outcome g.ways tag (f s)) ∧
      Simula g (acceder cache none ⟨direccion, 'R'⟩).cache
        (Function.update f s (access g.ways tag false (f s))) := by
  obtain ⟨-, ⟨set, hcache⟩, hnext⟩ := h.step ⟨direccion, 'R'⟩ hs ht
  refine ⟨?_, hnext⟩
  rw [hcache, Cache.tras, actualizarMetricas_eq]
  simp [lectura]

/-- What one turn does to the recency list of set `0`. -/
structure Turno (g : Geometria) (l l' : List (Int32 × Bool)) (k : ℕ) : Prop where
  sets : g.setDe 0 = 0 ∧ g.setDe 16 = 0
  tags : g.tagDe 0 = 0 ∧ g.tagDe 16 = 1
  pila : access g.ways 1 false (access g.ways 0 false l) = l'
  fallos : fallo (outcome g.ways 0 l) + fallo (outcome g.ways 1 (access g.ways 0 false l)) = k

theorem Turno.run (ht : Turno g l l' k) (h : Simula g cache f) (hl : f 0 = l) :
    ∃ cache' f', (∀ trazas, simularCacheSimple cache (⟨0, 'R'⟩ :: ⟨16, 'R'⟩ :: trazas) =
        simularCacheSimple cache' trazas) ∧
      cache'.metricas.missesRead = cache.metricas.missesRead + k ∧
      Simula g cache' f' ∧ f' 0 = l' := by
  obtain ⟨hmiss, hnext⟩ := h.stepRead ht.sets.1.symm ht.tags.1.symm
  obtain ⟨hmiss', hnext'⟩ := hnext.stepRead ht.sets.2.symm ht.tags.2.symm
  refine ⟨_, _, fun trazas => ?_, ?_, hnext', ?_⟩
  · rw [simularCacheSimple_cons, simularCacheSimple_cons]
  · rw [hmiss', hmiss, Function.update_self, hl, Nat.add_assoc, ht.fallos]
  · rw [Function.update_self, Function.update_self, hl, ht.pila]

theorem Turno.alternadas (ht : Turno g l l k) (h : Simula g cache f) (hl : f 0 = l) (n : ℕ) :
    (simularCacheSimple cache (alternadas n)).metricas.missesRead =
      cache.metricas.missesRead + n * k := by
  induction n generalizing cache f with
  | zero => simp [CacheSim.alternadas, simularCacheSimple]
  | succ n ih =>
    obtain ⟨cache', f', hrun, hmiss, hnext, hl'⟩ := ht.run h hl
    have hcons : CacheSim.alternadas (n + 1) =
        ⟨0, 'R'⟩ :: ⟨16, 'R'⟩ :: CacheSim.alternadas n := rfl
    rw [hcons, hrun, ih hnext hl', hmiss, Nat.succ_mul]
    omega

/-- The first turn loads the two blocks. -/
theorem Turno.contar (hprimero : Turno g [] l 2) (ht : Turno g l l k) {n : ℕ} (hn : 0 < n) :
    (contar g.crear g.crear.metricas.contadores (CacheSim.alternadas n)).missesRead =
      Int32.ofNat (2 + (n - 1) * k) := by
  obtain ⟨n, rfl⟩ := Nat.exists_eq_add_of_lt hn
  obtain ⟨cache, f, hrun, hmiss, hsim, hl⟩ := hprimero.run (simula_crear g) rfl
  have hcons : CacheSim.alternadas (0 + n + 1) =
      ⟨0, 'R'⟩ :: ⟨16, 'R'⟩ :: CacheSim.alternadas (0 + n) := rfl
  have hcero : g.crear.metricas.missesRead = 0 := rfl
  rw [contar_eq g.crear_bloque_lt, Metricas.contadores, hcons, hrun, ht.alternadas hsim hl, hmiss,
    hcero, Nat.zero_add, Nat.add_sub_cancel]

end Turns

/-- One line in each set: both reads of every turn miss. -/
theorem contar_una_linea {n : ℕ} (hn : 0 < n) :
    (contar (crearCache 16 1 2) (crearCache 16 1 2).metricas.contadores
      (alternadas n)).missesRead = Int32.ofNat (2 + (n - 1) * 2) := by
  let g : Geometria := ⟨1, 0, 3, by decide⟩
  have hcrear : crearCache 16 1 2 = g.crear := rfl
  have hprimero : Turno g [] [(1, false)] 2 := ⟨by decide, by decide, by decide, by decide⟩
  have ht : Turno g [(1, false)] [(1, false)] 2 := ⟨by decide, by decide, by decide, by decide⟩
  rw [hcrear]
  exact hprimero.contar ht hn

/-- Two lines in each set: only the first turn misses. -/
theorem contar_dos_lineas {n : ℕ} (hn : 0 < n) :
    (contar (crearCache 32 2 2) (crearCache 32 2 2).metricas.contadores
      (alternadas n)).missesRead = 2 := by
  let g : Geometria := ⟨1, 1, 3, by decide⟩
  have hcrear : crearCache 32 2 2 = g.crear := rfl
  have hprimero : Turno g [] [(1, false), (0, false)] 2 :=
    ⟨by decide, by decide, by decide, by decide⟩
  have ht : Turno g [(1, false), (0, false)] [(1, false), (0, false)] 0 :=
    ⟨by decide, by decide, by decide, by decide⟩
  rw [hcrear, hprimero.contar ht hn, Nat.mul_zero]
  rfl

/-- After `2 ^ 31` reads `misses_read` of the smaller cache is negative. -/
theorem inclusion_desborda :
    let cache := crearCache 16 1 2
    let cache' := crearCache 32 2 2
    mainAcepta 16 1 2 = true ∧ mainAcepta 32 2 2 = true ∧ 16 / (1 * 2) = 32 / (2 * 2) ∧
      (contar cache cache.metricas.contadores (alternadas (2 ^ 30))).missesRead =
        Int32.minValue ∧
      (contar cache' cache'.metricas.contadores (alternadas (2 ^ 30))).missesRead = 2 ∧
      ¬ (contar cache' cache'.metricas.contadores (alternadas (2 ^ 30))).missesRead ≤
        (contar cache cache.metricas.contadores (alternadas (2 ^ 30))).missesRead := by
  have hn : 0 < 2 ^ 30 := Nat.two_pow_pos 30
  have hword : Int32.ofNat (2 + (2 ^ 30 - 1) * 2) = Int32.minValue := by decide
  have hsmall := (contar_una_linea hn).trans hword
  have hlarge := contar_dos_lineas hn
  refine ⟨by decide, by decide, by decide, hsmall, hlarge, ?_⟩
  rw [hsmall, hlarge]
  decide

end Orga.CacheSim
