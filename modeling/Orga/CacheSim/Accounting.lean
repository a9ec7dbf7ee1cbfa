import Mathlib.Algebra.BigOperators.Group.Finset.Basic
import Mathlib.Tactic.Ring
import Orga.CacheSim.Refinement
import Orga.CacheSim.Verbose

/-! The counters of a run. Cycles and bytes follow from the misses and the write-backs, and each
write-back is paid for by a write: the dirty lines in the cache are the writes not yet spent. -/
namespace Orga.CacheSim
open Orga.Lru

def Conjunto.sucias (set : Conjunto) : ℕ := set.lineas.countP fun l => l.valido && l.dirtyBit

theorem Ordenado.sucias {set : Conjunto} {ways ciclos : ℕ} {orden : List Linea}
    (h : Ordenado set ways ciclos orden) : set.sucias = (entradas orden).countP Prod.snd := by
  obtain ⟨usadas, libres, hlineas, hperm, hlibres⟩ := h.reparto
  have hlibre : libres.countP (fun l => l.valido && l.dirtyBit) = 0 := by
    rw [List.countP_eq_zero]
    intro x hx
    simp [(hlibres x hx).1]
  have husada : ∀ x ∈ orden, (x.valido && x.dirtyBit) = true ↔ x.dirtyBit = true := by
    intro x hx
    simp [h.validas x hx]
  rw [Conjunto.sucias, hlineas, List.countP_append, hlibre, hperm.countP_eq,
    List.countP_congr husada, entradas, List.countP_map]
  rfl

/-- Misses and write-backs account for cycles and bytes; writes account for dirty lines. -/
structure Cuentas (cache : Cache) (accesos : ℕ) : Prop where
  accesos : cache.metricas.lecturas + cache.metricas.escrituras = accesos
  ciclos : cache.ciclos = cache.metricas.ciclosLecturas + cache.metricas.ciclosEscrituras
  penalidad : cache.ciclos = (cache.metricas.lecturas + cache.metricas.escrituras) +
    100 * (cache.metricas.missesRead + cache.metricas.missesWrite) +
    100 * (cache.metricas.dirtyReadMiss + cache.metricas.dirtyWriteMiss)
  bytesRead : cache.metricas.bytesRead =
    cache.tamanioBloque * (cache.metricas.missesRead + cache.metricas.missesWrite)
  bytesWritten : cache.metricas.bytesWritten =
    cache.tamanioBloque * (cache.metricas.dirtyReadMiss + cache.metricas.dirtyWriteMiss)
  dirtyReadMiss : cache.metricas.dirtyReadMiss ≤ cache.metricas.missesRead
  dirtyWriteMiss : cache.metricas.dirtyWriteMiss ≤ cache.metricas.missesWrite
  missesRead : cache.metricas.missesRead ≤ cache.metricas.lecturas
  missesWrite : cache.metricas.missesWrite ≤ cache.metricas.escrituras
  ocupadas : ∑ s ∈ Finset.range cache.cantidadSets, (cache.sets s).lineasOcupadas ≤
    cache.metricas.missesRead + cache.metricas.missesWrite
  sucias : cache.metricas.dirtyReadMiss + cache.metricas.dirtyWriteMiss +
    ∑ s ∈ Finset.range cache.cantidadSets, (cache.sets s).sucias ≤ cache.metricas.escrituras

theorem cuentas_crear (g : Geometria) : Cuentas g.crear 0 where
  accesos := rfl
  ciclos := rfl
  penalidad := rfl
  bytesRead := rfl
  bytesWritten := rfl
  dirtyReadMiss := Nat.le_refl _
  dirtyWriteMiss := Nat.le_refl _
  missesRead := Nat.le_refl _
  missesWrite := Nat.le_refl _
  ocupadas := by simp [Geometria.crear, crearCache, crearSet]
  sucias := by simp [Geometria.crear, crearCache, crearSet, Conjunto.sucias, lineaVacia]

theorem sum_update {β : Type*} (F : β → ℕ) (f : ℕ → β) (b : β) {n s : ℕ} (hs : s < n) :
    ∑ k ∈ Finset.range n, F (Function.update f s b k) + F (f s) =
      ∑ k ∈ Finset.range n, F (f k) + F b := by
  have hmem := Finset.mem_range.mpr hs
  have hrest : ∑ k ∈ (Finset.range n).erase s, F (Function.update f s b k) =
      ∑ k ∈ (Finset.range n).erase s, F (f k) := by
    refine Finset.sum_congr rfl fun k hk => ?_
    rw [Function.update_of_ne (Finset.ne_of_mem_erase hk)]
  rw [← Finset.add_sum_erase _ _ hmem, ← Finset.add_sum_erase _ (fun k => F (f k)) hmem, hrest,
    Function.update_self]
  omega

theorem Simula.ocupadas {g : Geometria} {cache : Cache} {f : ℕ → List (Int32 × Bool)}
    (h : Simula g cache f) (s : ℕ) : (cache.sets s).lineasOcupadas = (f s).length := by
  obtain ⟨orden, hord, hfs⟩ := h.sets s
  rw [hord.ocupadas, hfs, length_entradas]

theorem Simula.sucias {g : Geometria} {cache : Cache} {f : ℕ → List (Int32 × Bool)}
    (h : Simula g cache f) (s : ℕ) : (cache.sets s).sucias = (f s).countP Prod.snd := by
  obtain ⟨orden, hord, hfs⟩ := h.sets s
  rw [hord.sucias, hfs]

theorem Simula.length_le {g : Geometria} {cache : Cache} {f : ℕ → List (Int32 × Bool)}
    (h : Simula g cache f) (s : ℕ) : (f s).length ≤ g.ways := by
  obtain ⟨orden, hord, hfs⟩ := h.sets s
  rw [hfs, length_entradas]
  exact hord.length_le

theorem coste_eq (o : Outcome) : coste o = 1 + 100 * fallo o + 100 * sucio o := by
  cases o <;> rfl

theorem sucio_le_fallo (o : Outcome) : sucio o ≤ fallo o := by
  cases o <;> decide

theorem fallo_le_one (o : Outcome) : fallo o ≤ 1 := by
  cases o <;> decide

/-- The counts that an access adds fall to the reads or to the writes. -/
theorem actualizarMetricas_reparto (m : Metricas) (instruccion : Char) (o : Outcome) (bloque : ℕ) :
    ∃ lee escribe mr mw dr dw cr cw, lee + escribe = 1 ∧
      escribe = (if instruccion ≠ lectura then 1 else 0) ∧
      mr + mw = fallo o ∧ dr + dw = sucio o ∧ cr + cw = coste o ∧
      mr ≤ lee ∧ mw ≤ escribe ∧ dr ≤ mr ∧ dw ≤ mw ∧
      actualizarMetricas m instruccion (o == .hit) (codigo o) bloque =
        { lecturas := m.lecturas + lee
          escrituras := m.escrituras + escribe
          missesRead := m.missesRead + mr
          missesWrite := m.missesWrite + mw
          dirtyReadMiss := m.dirtyReadMiss + dr
          dirtyWriteMiss := m.dirtyWriteMiss + dw
          bytesRead := m.bytesRead + bloque * fallo o
          bytesWritten := m.bytesWritten + bloque * sucio o
          ciclosLecturas := m.ciclosLecturas + cr
          ciclosEscrituras := m.ciclosEscrituras + cw } := by
  have heq := actualizarMetricas_eq m instruccion o bloque
  have hfallo := fallo_le_one o
  have hsucio := sucio_le_fallo o
  refine ⟨_, _, _, _, _, _, _, _, ?_, ?_, ?_, ?_, ?_, ?_, ?_, ?_, ?_, heq⟩ <;>
    by_cases hi : instruccion = lectura <;> simp [hi, hfallo, hsucio]

theorem Cuentas.step {g : Geometria} {cache : Cache} {f : ℕ → List (Int32 × Bool)}
    {n : ℕ} (h : Cuentas cache n) (hsim : Simula g cache f) (traza : Traza) :
    Cuentas (acceder cache none traza).cache (n + 1) := by
  obtain ⟨-, ⟨set', hcache⟩, hnext⟩ := hsim.step traza rfl rfl
  have hlt := g.setDe_lt traza.direccionAccedida
  generalize g.setDe traza.direccionAccedida = s at hcache hnext hlt
  generalize g.tagDe traza.direccionAccedida = tag at hcache hnext
  -- the two potentials, on the recency lists
  have hlen := hsim.length_le s
  have hllenas := length_access_le_add tag (decide (traza.instruccion ≠ lectura)) hlen g.ways_pos
  have hmarcas := marks_access_le tag (decide (traza.instruccion ≠ lectura)) hlen g.ways_pos
  have hsumLlenas := sum_update List.length f
    (access g.ways tag (decide (traza.instruccion ≠ lectura)) (f s)) hlt
  have hsumMarcas := sum_update (List.countP Prod.snd) f
    (access g.ways tag (decide (traza.instruccion ≠ lectura)) (f s)) hlt
  have hocupadas := h.ocupadas
  have hsucias := h.sucias
  simp only [hsim.ocupadas, hsim.sucias, hsim.forma.sets] at hocupadas hsucias
  generalize outcome g.ways tag (f s) = o at hcache hllenas hmarcas
  rw [← fallo] at hllenas
  rw [← sucio] at hmarcas
  have hcoste := coste_eq o
  obtain ⟨lee, escribe, mr, mw, dr, dw, cr, cw, hone, hescribe, hmiss, hdirty, hciclos, hmr, hmw,
    hdr, hdw, heq⟩ := actualizarMetricas_reparto cache.metricas traza.instruccion o
      cache.tamanioBloque
  have hmetricas := congrArg Cache.metricas hcache
  rw [Cache.tras, heq] at hmetricas
  have hreloj : (acceder cache none traza).cache.ciclos = cache.ciclos + coste o := by
    rw [hcache, Cache.tras]
  have hbloque : (acceder cache none traza).cache.tamanioBloque = cache.tamanioBloque := by
    rw [hcache, Cache.tras]
  obtain ⟨h0, h1, h2, h3, h4, h5, h6, h7, h8, -, -⟩ := h
  refine ⟨?_, ?_, ?_, ?_, ?_, ?_, ?_, ?_, ?_, ?_, ?_⟩ <;> simp only [hmetricas]
  · omega
  · omega
  · omega
  · rw [hbloque, h3, ← hmiss]
    ring
  · rw [hbloque, h4, ← hdirty]
    ring
  · omega
  · omega
  · omega
  · omega
  · simp only [hnext.ocupadas, hnext.forma.sets]
    omega
  · simp only [hnext.sucias, hnext.forma.sets]
    simp only [decide_eq_true_eq] at hmarcas
    omega

theorem Cuentas.run {g : Geometria} {cache : Cache} {f : ℕ → List (Int32 × Bool)} {n : ℕ}
    (h : Cuentas cache n) (hsim : Simula g cache f) (trazas : List Traza) :
    Cuentas (simularCacheSimple cache trazas) (n + trazas.length) ∧
      (simularCacheSimple cache trazas).tamanioBloque = g.bloque := by
  induction trazas generalizing cache f n with
  | nil => exact ⟨h, hsim.forma.bloque⟩
  | cons traza trazas ih =>
    obtain ⟨-, -, hnext⟩ := hsim.step traza rfl rfl
    rw [simularCacheSimple_cons, List.length_cons, Nat.add_comm trazas.length, ← Nat.add_assoc]
    exact ih (h.step hsim traza) hnext

/-- The accounts do not see the notes of verbose mode. -/
theorem Cuentas.olvidar {cache : Cache} {n : ℕ} : Cuentas cache.olvidar n ↔ Cuentas cache n := by
  have hsucias : ∀ s, (cache.olvidar.sets s).sucias = (cache.sets s).sucias := by
    intro s
    show ((cache.sets s).lineas.map Linea.olvidar).countP _ = _
    rw [List.countP_map]
    rfl
  constructor
  · rintro ⟨h0, h1, h2, h3, h4, h5, h6, h7, h8, h9, h10⟩
    simp only [hsucias] at h10
    exact ⟨h0, h1, h2, h3, h4, h5, h6, h7, h8, h9, h10⟩
  · rintro ⟨h0, h1, h2, h3, h4, h5, h6, h7, h8, h9, h10⟩
    refine ⟨h0, h1, h2, h3, h4, h5, h6, h7, h8, h9, ?_⟩
    simp only [hsucias]
    exact h10

/-- Every `int` counter is below `2 ^ 31` and every `long` one below `2 ^ 63`. -/
structure Caben (cache : Cache) : Prop where
  accesos : cache.metricas.lecturas < 2 ^ 31 ∧ cache.metricas.escrituras < 2 ^ 31
  misses : cache.metricas.missesRead < 2 ^ 31 ∧ cache.metricas.missesWrite < 2 ^ 31
  dirty : cache.metricas.dirtyReadMiss < 2 ^ 31 ∧ cache.metricas.dirtyWriteMiss < 2 ^ 31
  bytes : cache.metricas.bytesRead < 2 ^ 63 ∧ cache.metricas.bytesWritten < 2 ^ 63
  ciclos : cache.metricas.ciclosLecturas < 2 ^ 63 ∧ cache.metricas.ciclosEscrituras < 2 ^ 63 ∧
    cache.ciclos < 2 ^ 63

/-- No counter overflows below `2 ^ 31` reads and `2 ^ 31` writes. -/
theorem Cuentas.caben_of {cache : Cache} {n : ℕ} (h : Cuentas cache n)
    (hlee : cache.metricas.lecturas < 2 ^ 31) (hescribe : cache.metricas.escrituras < 2 ^ 31)
    (hbloque : cache.tamanioBloque ≤ 2 ^ 30) : Caben cache := by
  obtain ⟨-, h1, h2, h3, h4, h5, h6, h7, h8, -, -⟩ := h
  have hread := Nat.mul_le_mul_right
    (cache.metricas.missesRead + cache.metricas.missesWrite) hbloque
  have hwritten := Nat.mul_le_mul_right
    (cache.metricas.dirtyReadMiss + cache.metricas.dirtyWriteMiss) hbloque
  refine ⟨⟨hlee, hescribe⟩, ⟨?_, ?_⟩, ⟨?_, ?_⟩, ⟨?_, ?_⟩, ⟨?_, ?_, ?_⟩⟩ <;> omega

theorem Cuentas.caben {cache : Cache} {n : ℕ} (h : Cuentas cache n) (hn : n < 2 ^ 31)
    (hbloque : cache.tamanioBloque ≤ 2 ^ 30) : Caben cache := by
  have haccesos := h.accesos
  exact h.caben_of (by omega) (by omega) hbloque

theorem Geometria.bloque_le (g : Geometria) : g.bloque ≤ 2 ^ 30 :=
  Nat.pow_le_pow_right (by omega) (by have := g.cabe; omega)

/-- After any number of accesses, in both loops, the accounts hold and the counters fit. -/
theorem cuentas (g : Geometria) (trazas : List Traza) (hlen : trazas.length < 2 ^ 31) (n : ℕ)
    (primera ultima : ℤ) :
    let simple := simularCacheSimple g.crear (trazas.take n)
    let verbosa := (simularCacheModoVerboso g.crear primera ultima (trazas.take n)).1
    (Cuentas simple (min n trazas.length) ∧ Caben simple) ∧
      Cuentas verbosa (min n trazas.length) ∧ Caben verbosa := by
  obtain ⟨hsimple, hbloque⟩ := (cuentas_crear g).run (simula_crear g) (trazas.take n)
  rw [List.length_take, Nat.zero_add] at hsimple
  have hmin : min n trazas.length < 2 ^ 31 := by omega
  have heq := modoVerboso_olvidar g.crear primera ultima (trazas.take n)
  have hverbosa : Cuentas (simularCacheModoVerboso g.crear primera ultima (trazas.take n)).1
      (min n trazas.length) := by
    rw [← Cuentas.olvidar, heq, Cuentas.olvidar]
    exact hsimple
  have hbloque' : (simularCacheModoVerboso g.crear primera ultima
      (trazas.take n)).1.tamanioBloque = g.bloque :=
    (congrArg (fun c => c.tamanioBloque) heq).trans hbloque
  exact ⟨⟨hsimple, hsimple.caben hmin (hbloque.le.trans g.bloque_le)⟩, hverbosa,
    hverbosa.caben hmin (hbloque'.le.trans g.bloque_le)⟩

theorem cuentas_sample : Cuentas (simularCacheSimple (Geometria.crear ⟨1, 0, 3, by decide⟩)
    ([⟨0, 'R'⟩, ⟨16, 'W'⟩, ⟨0, 'R'⟩].take 2)) 2 :=
  (cuentas ⟨1, 0, 3, by decide⟩ [⟨0, 'R'⟩, ⟨16, 'W'⟩, ⟨0, 'R'⟩] (by decide) 2 0 0).1.1

end Orga.CacheSim
