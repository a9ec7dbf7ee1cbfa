import Orga.CacheSim.Verbose

/-! The arrays of lines along a run. The lines in use are a prefix of the array with distinct
tags, so looking a tag up with or without testing `valido` finds the same line. -/
namespace Orga.CacheSim
open Orga.Lru

/-- The states of a run: a cache as `crear_cache` leaves it, which divides by the associativity,
and then any reads and writes, noted or not by verbose mode. -/
inductive Alcanzable : Cache → Prop
  | crear (tamanio asoc sets : ℕ) (hasoc : 0 < asoc) : Alcanzable (crearCache tamanio asoc sets)
  | acceder {cache : Cache} (verboso : Option ModoVerboso) (traza : Traza)
      (h : Alcanzable cache) : Alcanzable (acceder cache verboso traza).cache

theorem Alcanzable.simularCacheSimple {cache : Cache} (h : Alcanzable cache)
    (trazas : List Traza) : Alcanzable (simularCacheSimple cache trazas) := by
  induction trazas generalizing cache with
  | nil => exact h
  | cons traza trazas ih =>
    rw [simularCacheSimple_cons]
    exact ih (h.acceder none traza)

theorem Alcanzable.verbosoLoop {cache : Cache} (h : Alcanzable cache) (verbos : ModoVerboso)
    (primera ultima : ℤ) (trazas : List Traza) :
    Alcanzable (verbosoLoop cache verbos primera ultima trazas).1 := by
  induction trazas generalizing cache verbos with
  | nil => exact h
  | cons traza trazas ih =>
    rw [verbosoLoop_cons]
    exact ih (h.acceder _ traza) _

/-- The lines of a set in use are the first ones, and no two share a tag or a stamp. -/
structure Conjunto.Prefijo (set : Conjunto) (ciclos : ℕ) : Prop where
  validas : ∀ i < set.lineasPorSet, (set.linea i).valido = true ↔ i < set.lineasOcupadas
  ocupadas : set.lineasOcupadas ≤ set.lineasPorSet
  tags : ∀ i < set.lineasOcupadas, ∀ k < set.lineasOcupadas,
    (set.linea i).tag = (set.linea k).tag → i = k
  sellos : ∀ i < set.lineasOcupadas, ∀ k < set.lineasOcupadas,
    (set.linea i).ultimoCicloUsado = (set.linea k).ultimoCicloUsado → i = k
  reloj : ∀ i < set.lineasOcupadas, (set.linea i).ultimoCicloUsado ≤ ciclos

def Cache.Ordenada (cache : Cache) : Prop :=
  ∃ ways, 0 < ways ∧ ∀ s, ∃ orden, Ordenado (cache.olvidar.sets s) ways cache.ciclos orden

theorem olvidar_crearSet (asoc : ℕ) : (crearSet asoc).olvidar = crearSet asoc := by
  rw [Conjunto.olvidar, crearSet, List.map_map]
  rfl

theorem Cache.Ordenada.acceder {cache : Cache} (h : cache.Ordenada)
    (verboso : Option ModoVerboso) (traza : Traza) :
    (CacheSim.acceder cache verboso traza).cache.Ordenada := by
  obtain ⟨ways, hpos, hsets⟩ := h
  rcases hcalc : calcularSetYTag cache.olvidar traza.direccionAccedida
    cache.olvidar.tamanioBloque with ⟨s, tag⟩
  obtain ⟨orden, hord⟩ := hsets s
  obtain ⟨set', orden', hcache, -, hord', -⟩ := acceder_spec hcalc hpos hord
  have hciclos : (CacheSim.acceder cache verboso traza).cache.ciclos =
    (CacheSim.acceder cache verboso traza).cache.olvidar.ciclos := rfl
  refine ⟨ways, hpos, fun k => ?_⟩
  rw [hciclos, acceder_olvidar, hcache]
  by_cases hk : k = s
  · subst hk
    exact ⟨orden', by simpa [Cache.tras] using hord'⟩
  · obtain ⟨ordenk, hordk⟩ := hsets k
    have hmono : Ordenado (cache.olvidar.sets k) ways (cache.olvidar.ciclos + _) ordenk :=
      hordk.mono (Nat.le_add_right _ (coste (outcome ways tag (entradas orden))))
    exact ⟨ordenk, by simpa [Cache.tras, hk] using hmono⟩

theorem Alcanzable.ordenada {cache : Cache} (h : Alcanzable cache) : cache.Ordenada := by
  induction h with
  | crear tamanio asoc sets hasoc =>
    refine ⟨asoc, hasoc, fun s => ⟨[], ?_⟩⟩
    show Ordenado (crearSet asoc).olvidar asoc 0 []
    rw [olvidar_crearSet]
    exact ordenado_crearSet asoc
  | acceder verboso traza _ ih => exact ih.acceder verboso traza

theorem Conjunto.linea_eq {set : Conjunto} {i : ℕ} (hi : i < set.lineas.length) :
    set.linea i = set.lineas[i] :=
  List.getD_eq_getElem _ _ hi

theorem eq_of_map_nodup {β : Type} {f : Linea → β} {lineas : List Linea}
    (h : (lineas.map f).Nodup) {i k : ℕ} (hi : i < lineas.length) (hk : k < lineas.length)
    (heq : f lineas[i] = f lineas[k]) : i = k := by
  have hi' : i < (lineas.map f).length := by rwa [List.length_map]
  have hk' : k < (lineas.map f).length := by rwa [List.length_map]
  have hmap : (lineas.map f)[i] = (lineas.map f)[k] := by
    rw [List.getElem_map, List.getElem_map, heq]
  exact h.getElem_inj_iff.mp hmap

theorem Ordenado.prefijo {set : Conjunto} {ways ciclos : ℕ} {orden : List Linea}
    (h : Ordenado set ways ciclos orden) : set.Prefijo ciclos := by
  obtain ⟨usadas, libres, hlineas, hperm, hlibres⟩ := h.reparto
  have hocupadas : set.lineasOcupadas = usadas.length := h.ocupadas.trans hperm.length_eq.symm
  have hlen : set.lineas.length = usadas.length + libres.length := by
    rw [hlineas, List.length_append]
  have htags : (usadas.map Linea.tag).Nodup := (hperm.map _).nodup_iff.mpr h.tags
  have hsellos : (usadas.map Linea.ultimoCicloUsado).Nodup := by
    have hdist : (orden.map Linea.ultimoCicloUsado).Nodup :=
      List.pairwise_map.mpr (h.recientes.imp fun hlt => hlt.ne')
    exact (hperm.map _).nodup_iff.mpr hdist
  have hlinea {i : ℕ} (hi : i < usadas.length) : set.linea i = usadas[i] := by
    rw [Conjunto.linea_eq (by omega)]
    simp [hlineas, hi]
  have hmem {i : ℕ} (hi : i < usadas.length) : usadas[i] ∈ orden :=
    hperm.mem_iff.mp (List.getElem_mem hi)
  rw [← hocupadas] at hlen
  refine ⟨fun i hi => ⟨fun hval => ?_, fun hlt => ?_⟩, ?_, ?_, ?_, ?_⟩
  · by_contra hge
    have hlibre : set.linea i ∈ libres := by
      rw [Conjunto.linea_eq hi]
      simp [hlineas, List.getElem_append_right (hocupadas ▸ not_lt.mp hge)]
    rw [(hlibres _ hlibre).1] at hval
    cases hval
  · rw [hlinea (hocupadas ▸ hlt)]
    exact h.validas _ (hmem _)
  · rw [Conjunto.lineasPorSet]
    omega
  · intro i hi k hk heq
    rw [hocupadas] at hi hk
    rw [hlinea hi, hlinea hk] at heq
    exact eq_of_map_nodup htags hi hk heq
  · intro i hi k hk heq
    rw [hocupadas] at hi hk
    rw [hlinea hi, hlinea hk] at heq
    exact eq_of_map_nodup hsellos hi hk heq
  · intro i hi
    rw [hocupadas] at hi
    rw [hlinea hi]
    exact h.reloj _ (hmem hi)

theorem prefijo_olvidar {set : Conjunto} {ciclos : ℕ} :
    set.olvidar.Prefijo ciclos ↔ set.Prefijo ciclos := by
  have hlen : set.olvidar.lineasPorSet = set.lineasPorSet := List.length_map _
  constructor
  · rintro ⟨hvalidas, hocupadas, htags, hsellos, hreloj⟩
    simp only [linea_olvidar, hlen] at hvalidas hocupadas htags hsellos hreloj
    exact ⟨hvalidas, hocupadas, htags, hsellos, hreloj⟩
  · rintro ⟨hvalidas, hocupadas, htags, hsellos, hreloj⟩
    constructor
    all_goals simp only [linea_olvidar, hlen]
    exacts [hvalidas, hocupadas, htags, hsellos, hreloj]

/-- In every state of a run the lines in use of each set are a prefix of its array. -/
theorem Alcanzable.prefijo {cache : Cache} (h : Alcanzable cache) (s : ℕ) :
    (cache.sets s).Prefijo cache.ciclos := by
  obtain ⟨ways, -, hsets⟩ := h.ordenada
  obtain ⟨orden, hord⟩ := hsets s
  exact prefijo_olvidar.mp hord.prefijo

/-- The update functions change the first line with the tag, valid or not. -/
theorem actualizarPrimera_eq {tag : Int32} {cambio : Linea → Linea} {lineas : List Linea} {i : ℕ}
    (h : lineas.findIdx? (fun linea => linea.tag == tag) = some i) :
    actualizarPrimera tag cambio lineas = lineas.modify i cambio := by
  induction lineas generalizing i with
  | nil => cases h
  | cons x lineas ih =>
    rw [List.findIdx?_cons] at h
    rw [actualizarPrimera]
    by_cases hx : x.tag = tag
    · rw [if_pos (beq_iff_eq.mpr hx), Option.some_inj] at h
      subst h
      rw [if_pos hx]
      rfl
    · rw [if_neg (mt beq_iff_eq.mp hx), Option.map_eq_some_iff] at h
      obtain ⟨k, hk, rfl⟩ := h
      rw [if_neg hx, ih hk, List.modify_succ_cons]

section Prefijo
variable {set : Conjunto} {ciclos : ℕ} (h : set.Prefijo ciclos) {i : ℕ}
include h

theorem Conjunto.Prefijo.leerSet_eq {tag : Int32} (hleer : leerSet set tag = some i) :
    set.lineas.findIdx? (fun linea => linea.tag == tag) = some i := by
  rw [leerSet, List.findIdx?_eq_some_iff_getElem] at hleer
  obtain ⟨hi, hp, hprev⟩ := hleer
  rw [Bool.and_eq_true] at hp
  refine List.findIdx?_eq_some_iff_getElem.mpr ⟨hi, hp.2, fun k hk heq => ?_⟩
  -- the lines before a valid line are valid
  have hval : (set.linea i).valido = true := by rw [Conjunto.linea_eq hi, hp.1]
  have hlt := (h.validas i hi).mp hval
  have hvalk := (h.validas k (hk.trans hi)).mpr (hk.trans hlt)
  rw [Conjunto.linea_eq (hk.trans hi)] at hvalk
  exact hprev k hk (Bool.and_eq_true_iff.mpr ⟨hvalk, heq⟩)

theorem Conjunto.Prefijo.lineaNoValida_eq (hlibre : lineaNoValida set = some i) :
    i = set.lineasOcupadas := by
  rw [lineaNoValida, List.findIdx?_eq_some_iff_getElem] at hlibre
  obtain ⟨hi, hp, hprev⟩ := hlibre
  rw [Bool.not_eq_true'] at hp
  have hge : ¬ i < set.lineasOcupadas := fun hlt => by
    have hval := (h.validas i hi).mpr hlt
    rw [Conjunto.linea_eq hi, hp] at hval
    cases hval
  have hle : ¬ set.lineasOcupadas < i := fun hlt => by
    have hocupadas : ¬ (set.linea set.lineasOcupadas).valido = true := fun hval =>
      lt_irrefl _ ((h.validas _ (hlt.trans hi)).mp hval)
    rw [Conjunto.linea_eq (hlt.trans hi)] at hocupadas
    exact hprev _ hlt (by simpa using hocupadas)
  omega

end Prefijo

/-- The lines of each set in use are a prefix of its array with distinct tags and stamps. So a hit
updates the line that `leer_set` found, and a miss into a free line prints the index of the line
that `linea_no_valida` found. -/
theorem Alcanzable.lineas {cache : Cache} (h : Alcanzable cache) :
    (∀ s, (cache.sets s).Prefijo cache.ciclos) ∧
    (∀ s tag i, leerSet (cache.sets s) tag = some i → ∀ verboso impresion,
      let conjunto := ((cache.sets s).anotar i verboso impresion).1
      actualizarCiclosLectura conjunto tag cache.ciclos = conjunto.modificar i (fun linea =>
          { linea with ultimoCicloUsado := cache.ciclos + 1, valido := true }) ∧
        actualizarCiclosEscritura conjunto tag cache.ciclos = conjunto.modificar i fun linea =>
          { linea with ultimoCicloUsado := cache.ciclos + 1, dirtyBit := true, valido := true }) ∧
    ∀ direccion instruccion verboso i,
      lineaNoValida (cache.sets (calcularSetYTag cache direccion cache.tamanioBloque).1) = some i →
      (cargarLineaMiss cache direccion instruccion (some verboso)).2.2.map Impresion.linea = [i] := by
  refine ⟨h.prefijo, fun s tag i hleer verboso impresion => ?_,
    fun direccion instruccion verboso i hlibre => ?_⟩
  · have holvidar := anotar_olvidar (cache.sets s) i verboso impresion
    intro conjunto
    have hprefijo : conjunto.Prefijo cache.ciclos := by
      rw [← prefijo_olvidar, holvidar, prefijo_olvidar]
      exact h.prefijo s
    have hleer' : leerSet conjunto tag = some i := by
      rw [← leerSet_olvidar, holvidar, leerSet_olvidar, hleer]
    have hprimera := hprefijo.leerSet_eq hleer'
    rw [actualizarCiclosLectura, actualizarCiclosEscritura, actualizarPrimera_eq hprimera,
      actualizarPrimera_eq hprimera]
    exact ⟨rfl, rfl⟩
  · rcases hcalc : calcularSetYTag cache direccion cache.tamanioBloque with ⟨s, tag⟩
    rw [hcalc] at hlibre
    rw [cargarLineaMiss, hcalc]
    simp only [hlibre]
    rw [(h.prefijo s).lineaNoValida_eq hlibre]
    rfl

/-- Two lines loaded in verbose mode, in the set of a fully associative cache. -/
theorem Alcanzable.lineas_dos :
    let vacia := crearCache 8 2 1
    let verboso : ModoVerboso := ⟨0, false⟩
    let una := (CacheSim.acceder vacia (some verboso) ⟨4, 'W'⟩).cache
    let dos := (CacheSim.acceder una (some verboso) ⟨0, 'R'⟩).cache
    ∀ s, (dos.sets s).Prefijo dos.ciclos :=
  (((Alcanzable.crear 8 2 1 Nat.two_pos).acceder (some ⟨0, false⟩) ⟨4, 'W'⟩).acceder
    (some ⟨0, false⟩) ⟨0, 'R'⟩).lineas.1

end Orga.CacheSim
