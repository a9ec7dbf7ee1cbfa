import Orga.CacheSim.Accesses

/-! The simulator refines a cache that keeps, for each set, the recency list of its blocks. The
block of an address is what its set and its tag tell together. -/
namespace Orga.CacheSim
open Orga.Lru

/-- The sets hold the recency lists `f`, tag by tag. -/
structure Simula (g : Geometria) (cache : Cache) (f : ℕ → List (Int32 × Bool)) : Prop where
  forma : cache.Forma g
  sets : ∀ s, ∃ orden, Ordenado (cache.sets s) g.ways cache.ciclos orden ∧ f s = entradas orden

theorem simula_crear (g : Geometria) : Simula g g.crear fun _ => [] where
  forma := forma_crear g
  sets _ := ⟨[], ordenado_crearSet g.ways, rfl⟩

/-- An access of the simulator is an access to one recency list. -/
theorem Simula.step {g : Geometria} {cache : Cache} {f : ℕ → List (Int32 × Bool)}
    (h : Simula g cache f) (traza : Traza) {s : ℕ} {tag : Int32}
    (hs : s = g.setDe traza.direccionAccedida) (ht : tag = g.tagDe traza.direccionAccedida) :
    desenlace cache traza = outcome g.ways tag (f s) ∧
      (∃ set', (acceder cache none traza).cache =
        cache.tras traza s set' (outcome g.ways tag (f s))) ∧
      Simula g (acceder cache none traza).cache
        (Function.update f s (access g.ways tag (decide (traza.instruccion ≠ lectura)) (f s))) := by
  obtain ⟨orden, hord, hfs⟩ := h.sets s
  have hcalc := calcularSetYTag_eq h.forma traza.direccionAccedida
  rw [← hs, ← ht] at hcalc
  obtain ⟨set', orden', hcache, hdes, hord', hacc⟩ := acceder_spec hcalc g.ways_pos hord
  rw [← hfs] at hcache hdes hord' hacc
  refine ⟨hdes, ⟨set', hcache⟩, ?_, fun k => ?_⟩
  · rw [hcache]
    exact ⟨h.forma.sets, h.forma.bloque⟩
  · rw [hcache]
    by_cases hk : k = s
    · subst hk
      refine ⟨orden', ?_, ?_⟩
      · simpa [Cache.tras] using hord'
      · simpa using hacc.symm
    · obtain ⟨ordenk, hordk, hfk⟩ := h.sets k
      refine ⟨ordenk, ?_, ?_⟩
      · simpa [Cache.tras, hk] using hordk.mono (Nat.le_add_right _ _)
      · simpa [hk] using hfk

def desenlaces (cache : Cache) : List Traza → List Outcome
  | [] => []
  | traza :: trazas => desenlace cache traza :: desenlaces (simularCacheSimple cache [traza]) trazas

theorem desenlaces_cons (cache : Cache) (traza : Traza) (trazas : List Traza) :
    desenlaces cache (traza :: trazas) =
      desenlace cache traza :: desenlaces (acceder cache none traza).cache trazas := by
  rw [desenlaces, simularCacheSimple_cons, simularCacheSimple]

/-- The ideal cache: a recency list of blocks for each set. -/
abbrev Referencia (ways : ℕ) := ℕ → Recency ℕ ways

def Referencia.desenlaces (g : Geometria) : Referencia g.ways → List Traza → List Outcome
  | _, [] => []
  | r, traza :: trazas =>
    let bloque := traza.direccionAccedida.toNat / g.bloque
    let s := bloque % g.sets
    (r s).outcome bloque :: desenlaces g
      (Function.update r s ((r s).access bloque (decide (traza.instruccion ≠ lectura)))) trazas

def Geometria.bloqueDe (g : Geometria) (s : ℕ) (tag : Int32) : ℕ := tag.toUInt32.toNat * g.sets + s

theorem bloqueDe_injective (g : Geometria) (s : ℕ) : Function.Injective (g.bloqueDe s) := by
  intro a b h
  have hpos : 0 < g.sets := Nat.two_pow_pos _
  have hab : a.toUInt32.toNat = b.toUInt32.toNat :=
    Nat.eq_of_mul_eq_mul_right hpos (Nat.add_right_cancel h)
  have hto := UInt32.toNat_inj.mp hab
  rw [← Int32.toInt32_toUInt32 a, hto, Int32.toInt32_toUInt32]

theorem bloqueDe_direccion (g : Geometria) (direccion : UInt32) :
    g.bloqueDe (g.setDe direccion) (g.tagDe direccion) = direccion.toNat / g.bloque := by
  have hlt := direccion.toNat_lt
  have hle := Nat.div_le_self direccion.toNat (2 ^ (g.bitsSet + g.bitsOffset))
  have htag : (g.tagDe direccion).toUInt32.toNat = direccion.toNat / g.bloque / g.sets := by
    rw [Geometria.tagDe, UInt32.toUInt32_toInt32, UInt32.toNat_ofNat', Nat.mod_eq_of_lt (by omega),
      Geometria.bloque, Geometria.sets, Nat.div_div_eq_div_mul, ← pow_add, Nat.add_comm]
  rw [Geometria.bloqueDe, htag, Geometria.setDe]
  exact Nat.div_add_mod' _ _

theorem mismoBloque_iff (g : Geometria) (direccion otra : UInt32) :
    g.setDe otra = g.setDe direccion ∧ g.tagDe otra = g.tagDe direccion ↔
      otra.toNat / g.bloque = direccion.toNat / g.bloque := by
  constructor
  · rintro ⟨hset, htag⟩
    rw [← bloqueDe_direccion, ← bloqueDe_direccion, hset, htag]
  · intro hbloque
    have hset : g.setDe otra = g.setDe direccion := by
      rw [Geometria.setDe, hbloque]
      rfl
    refine ⟨hset, bloqueDe_injective g (g.setDe direccion) ?_⟩
    rw [bloqueDe_direccion, ← hset, bloqueDe_direccion, hbloque]

/-- The set and the tag of an address and its offset in the block give the address back, and two
addresses share them exactly when they share the block. -/
theorem calcularSetYTag_descompone {cache : Cache} {j b : ℕ} (hsets : cache.cantidadSets = 2 ^ j)
    (hcabe : j + b ≤ 30) (direccion : UInt32) :
    (calcularSetYTag cache direccion (2 ^ b)).1 < 2 ^ j ∧
      (∃ offset < 2 ^ b, direccion.toNat =
        ((calcularSetYTag cache direccion (2 ^ b)).2.toUInt32.toNat * 2 ^ j +
          (calcularSetYTag cache direccion (2 ^ b)).1) * 2 ^ b + offset) ∧
      ∀ otra, calcularSetYTag cache otra (2 ^ b) = calcularSetYTag cache direccion (2 ^ b) ↔
        otra.toNat / 2 ^ b = direccion.toNat / 2 ^ b := by
  let g : Geometria := ⟨j, 0, b, hcabe⟩
  have hforma : Cache.Forma { cache with tamanioBloque := 2 ^ b } g := ⟨hsets, rfl⟩
  have hcalc (d : UInt32) : calcularSetYTag cache d (2 ^ b) = (g.setDe d, g.tagDe d) :=
    calcularSetYTag_eq hforma d
  have hpos : 0 < 2 ^ b := Nat.two_pow_pos b
  rw [hcalc]
  refine ⟨g.setDe_lt direccion, ⟨direccion.toNat % 2 ^ b, Nat.mod_lt _ hpos, ?_⟩, fun otra => ?_⟩
  · have hbloque := bloqueDe_direccion g direccion
    rw [Geometria.bloqueDe] at hbloque
    show _ = ((g.tagDe direccion).toUInt32.toNat * g.sets + g.setDe direccion) * 2 ^ b + _
    rw [hbloque]
    exact (Nat.div_add_mod' direccion.toNat (2 ^ b)).symm
  · rw [hcalc, Prod.mk.injEq]
    exact mismoBloque_iff g direccion otra

/-- One-byte blocks in a cache of four sets. -/
theorem calcularSetYTag_descompone_cuatro :
    ∃ offset < 2 ^ 0, (4294967291 : UInt32).toNat =
      ((calcularSetYTag (crearCache 4 1 4) 4294967291 (2 ^ 0)).2.toUInt32.toNat * 2 ^ 2 +
        (calcularSetYTag (crearCache 4 1 4) 4294967291 (2 ^ 0)).1) * 2 ^ 0 + offset := by
  have hsets : (crearCache 4 1 4).cantidadSets = 2 ^ 2 := rfl
  exact (calcularSetYTag_descompone hsets (by decide) 4294967291).2.1

theorem Simula.desenlaces {g : Geometria} {cache : Cache} {f : ℕ → List (Int32 × Bool)}
    {r : Referencia g.ways} (h : Simula g cache f)
    (hr : ∀ s < g.sets, (r s).entries = (f s).map (Prod.map (g.bloqueDe s) id))
    (trazas : List Traza) : desenlaces cache trazas = Referencia.desenlaces g r trazas := by
  induction trazas generalizing cache f r with
  | nil => rfl
  | cons traza trazas ih =>
    obtain ⟨hdes, -, hnext⟩ := h.step traza rfl rfl
    have hbloque := bloqueDe_direccion g traza.direccionAccedida
    have hlt := g.setDe_lt traza.direccionAccedida
    have hset : traza.direccionAccedida.toNat / g.bloque % g.sets =
        g.setDe traza.direccionAccedida := rfl
    have hsame := hr _ hlt
    have hinj := bloqueDe_injective g (g.setDe traza.direccionAccedida)
    rw [desenlaces_cons, Referencia.desenlaces, hset, hdes]
    refine congrArg₂ List.cons ?_ ?_
    · rw [Recency.outcome, hsame, ← hbloque, outcome_map hinj]
    · refine ih hnext fun k hk => ?_
      by_cases heq : k = g.setDe traza.direccionAccedida
      · subst heq
        simp only [Function.update_self]
        show access g.ways _ _ (r (g.setDe traza.direccionAccedida)).entries = _
        rw [hsame, ← hbloque, access_map hinj]
      · simp only [Function.update_of_ne heq]
        exact hr k hk

/-- Every access has the outcome that the ideal cache gives it. -/
theorem desenlaces_crear (g : Geometria) (trazas : List Traza) :
    desenlaces g.crear trazas = Referencia.desenlaces g (fun _ => Recency.empty) trazas :=
  (simula_crear g).desenlaces (fun _ _ => rfl) trazas

end Orga.CacheSim
