import Orga.CacheSim.Geometry
import Orga.CacheSim.Sets

/-! One access of the simulation: what the body of both loops does to the set, the clock and the
counters, in each of the four outcomes. -/
namespace Orga.CacheSim
open Orga.Lru

structure Acceso where
  hit : Bool
  resultado : ℕ
  cache : Cache
  salida : List Impresion

/-- The body of both loops. -/
def acceder (cache : Cache) (verboso : Option ModoVerboso) (traza : Traza) : Acceso :=
  let r := if traza.instruccion = lectura then leerCache cache traza.direccionAccedida verboso
    else escribirCache cache traza.direccionAccedida verboso
  if r.1 then
    let metricas := actualizarMetricas r.2.1.metricas traza.instruccion true 0 r.2.1.tamanioBloque
    ⟨true, 0, { r.2.1 with ciclos := r.2.1.ciclos + 1, metricas := metricas }, r.2.2⟩
  else
    let m := cargarLineaMiss r.2.1 traza.direccionAccedida traza.instruccion verboso
    let ciclos := m.2.1.ciclos + (missPenalty + 1) +
      if m.1 = desalojoDirtyBit then missPenalty else 0
    let metricas :=
      actualizarMetricas m.2.1.metricas traza.instruccion false m.1 m.2.1.tamanioBloque
    ⟨false, m.1, { m.2.1 with ciclos := ciclos, metricas := metricas }, r.2.2 ++ m.2.2⟩

theorem simularCacheSimple_cons (cache : Cache) (traza : Traza) (trazas : List Traza) :
    simularCacheSimple cache (traza :: trazas) =
      simularCacheSimple (acceder cache none traza).cache trazas := by
  rw [simularCacheSimple, acceder]
  rcases hr : (if traza.instruccion = lectura then leerCache cache traza.direccionAccedida none
    else escribirCache cache traza.direccionAccedida none) with ⟨hit, c, salida⟩
  cases hit with
  | true => rfl
  | false =>
    simp only
    rcases cargarLineaMiss c traza.direccionAccedida traza.instruccion none with ⟨res, c', salida'⟩
    by_cases hd : res = desalojoDirtyBit <;> simp [hd]

theorem verbosoLoop_eq (cache : Cache) (verbos : ModoVerboso) (primera ultima : ℤ)
    (traza : Traza) (trazas : List Traza) :
    verbosoLoop cache verbos primera ultima (traza :: trazas) =
      let acceso := acceder cache (if rangoVerboso verbos.operacionActual primera ultima then
        some verbos else none) traza
      let resto := verbosoLoop acceso.cache
        { verbos with operacionActual := verbos.operacionActual + 1 } primera ultima trazas
      (resto.1, acceso.salida ++ resto.2) := by
  rw [verbosoLoop, acceder]
  generalize (if rangoVerboso verbos.operacionActual primera ultima then some verbos else none) = v
  rcases hr : (if traza.instruccion = lectura then leerCache cache traza.direccionAccedida v
    else escribirCache cache traza.direccionAccedida v) with ⟨hit, c, salida⟩
  cases hit with
  | true => rfl
  | false =>
    simp only
    rcases cargarLineaMiss c traza.direccionAccedida traza.instruccion v with ⟨res, c', salida'⟩
    by_cases hd : res = desalojoDirtyBit <;> simp [hd]

theorem verbosoLoop_cons (cache : Cache) (verbos : ModoVerboso) (primera ultima : ℤ)
    (traza : Traza) (trazas : List Traza) :
    (verbosoLoop cache verbos primera ultima (traza :: trazas)).1 =
      (verbosoLoop (acceder cache (if rangoVerboso verbos.operacionActual primera ultima then
          some verbos else none) traza).cache
        { verbos with operacionActual := verbos.operacionActual + 1 } primera ultima trazas).1 := by
  rw [verbosoLoop_eq]

def coste : Outcome → ℕ
  | .hit => 1
  | .fill | .clean => missPenalty + 1
  | .dirty => missPenalty + 1 + missPenalty

def codigo : Outcome → ℕ
  | .hit => 0
  | .fill | .clean => desalojoLimpio
  | .dirty => desalojoDirtyBit

def fallo (o : Outcome) : ℕ := if o = .hit then 0 else 1

theorem fallo_le {o o' : Outcome} (h : o = .hit → o' = .hit) : fallo o' ≤ fallo o := by
  unfold fallo
  split_ifs <;> simp_all

def sucio (o : Outcome) : ℕ := if o = .dirty then 1 else 0

theorem actualizarMetricas_eq (m : Metricas) (instruccion : Char) (o : Outcome) (bloque : ℕ) :
    actualizarMetricas m instruccion (o == .hit) (codigo o) bloque =
      let lee := if instruccion = lectura then 1 else 0
      let escribe := if instruccion = lectura then 0 else 1
      { lecturas := m.lecturas + lee
        escrituras := m.escrituras + escribe
        missesRead := m.missesRead + lee * fallo o
        missesWrite := m.missesWrite + escribe * fallo o
        dirtyReadMiss := m.dirtyReadMiss + lee * sucio o
        dirtyWriteMiss := m.dirtyWriteMiss + escribe * sucio o
        bytesRead := m.bytesRead + bloque * fallo o
        bytesWritten := m.bytesWritten + bloque * sucio o
        ciclosLecturas := m.ciclosLecturas + lee * coste o
        ciclosEscrituras := m.ciclosEscrituras + escribe * coste o } := by
  by_cases hi : instruccion = lectura <;> cases o <;>
    simp [actualizarMetricas, hi, fallo, sucio, coste, codigo, desalojoLimpio,
      desalojoDirtyBit, Nat.add_assoc]

def Cache.tras (cache : Cache) (traza : Traza) (s : ℕ) (set : Conjunto) (o : Outcome) : Cache :=
  { cache with
    sets := Function.update cache.sets s set
    ciclos := cache.ciclos + coste o
    metricas := actualizarMetricas cache.metricas traza.instruccion (o == .hit) (codigo o)
      cache.tamanioBloque }

/-- The outcome as the body of the loop computes it. -/
def desenlace (cache : Cache) (traza : Traza) : Outcome :=
  let r := if traza.instruccion = lectura then leerCache cache traza.direccionAccedida none
    else escribirCache cache traza.direccionAccedida none
  if r.1 then .hit
  else if (cargarLineaMiss r.2.1 traza.direccionAccedida traza.instruccion none).1 =
      desalojoDirtyBit then .dirty
  else if (lineaNoValida (r.2.1.sets
      (calcularSetYTag r.2.1 traza.direccionAccedida r.2.1.tamanioBloque).1)).isSome then .fill
  else .clean

def Accedido (cache : Cache) (ways : ℕ) (traza : Traza) (s : ℕ) (tag : Int32)
    (orden : List Linea) : Prop :=
  ∃ set' orden', (acceder cache none traza).cache =
      cache.tras traza s set' (outcome ways tag (entradas orden)) ∧
    desenlace cache traza = outcome ways tag (entradas orden) ∧
    Ordenado set' ways (cache.ciclos + coste (outcome ways tag (entradas orden))) orden' ∧
    entradas orden' =
      access ways tag (decide (traza.instruccion ≠ lectura)) (entradas orden)

section Body
variable {cache : Cache} {ways : ℕ} {traza : Traza} {s : ℕ} {tag : Int32}
  (hcalc : calcularSetYTag cache traza.direccionAccedida cache.tamanioBloque = (s, tag))
include hcalc

theorem acceder_hit {i : ℕ} (hleer : leerSet (cache.sets s) tag = some i) :
    (acceder cache none traza).cache = cache.tras traza s
        (if traza.instruccion = lectura then actualizarCiclosLectura (cache.sets s) tag cache.ciclos
          else actualizarCiclosEscritura (cache.sets s) tag cache.ciclos) .hit ∧
      desenlace cache traza = .hit := by
  have hlectura : leerCache cache traza.direccionAccedida none =
      (true, cache.guardar s (actualizarCiclosLectura (cache.sets s) tag cache.ciclos), []) := by
    simp [leerCache, hcalc, hleer, Conjunto.anotar]
  have hescritura : escribirCache cache traza.direccionAccedida none =
      (true, cache.guardar s (actualizarCiclosEscritura (cache.sets s) tag cache.ciclos), []) := by
    simp [escribirCache, hcalc, hleer, Conjunto.anotar]
  by_cases hi : traza.instruccion = lectura
  · rw [acceder, desenlace]
    simp only [hi, if_true, hlectura]
    refine ⟨?_, trivial⟩
    rw [Cache.tras, hi]
    rfl
  · rw [acceder, desenlace]
    simp only [hi, if_false, hescritura, if_true]
    exact ⟨rfl, trivial⟩

/-- The body when the tag is not found: everything is up to `cargar_linea_miss`. -/
theorem acceder_miss (hleer : leerSet (cache.sets s) tag = none) {o : Outcome} {set' : Conjunto}
    (hcarga : cargarLineaMiss cache traza.direccionAccedida traza.instruccion none =
      (codigo o, cache.guardar s set', []))
    (ho : o = if codigo o = desalojoDirtyBit then .dirty
      else if (lineaNoValida (cache.sets s)).isSome then .fill else .clean) :
    (acceder cache none traza).cache = cache.tras traza s set' o ∧ desenlace cache traza = o := by
  have hlectura : leerCache cache traza.direccionAccedida none = (false, cache, []) := by
    simp [leerCache, hcalc, hleer]
  have hescritura : escribirCache cache traza.direccionAccedida none = (false, cache, []) := by
    simp [escribirCache, hcalc, hleer]
  have hr : (if traza.instruccion = lectura then leerCache cache traza.direccionAccedida none
      else escribirCache cache traza.direccionAccedida none) = (false, cache, []) := by
    split_ifs
    · exact hlectura
    · exact hescritura
  have hmiss : o ≠ .hit := by
    rintro rfl
    simp only [codigo, desalojoDirtyBit] at ho
    split_ifs at ho
  rw [acceder, desenlace]
  simp only [hr, hcarga, hcalc, Bool.false_eq_true, if_false]
  refine ⟨?_, ho.symm⟩
  cases o with
  | hit => exact absurd rfl hmiss
  | fill => rfl
  | clean => rfl
  | dirty => rfl

theorem acceder_usada {orden : List Linea} (h : Ordenado (cache.sets s) ways cache.ciclos orden)
    (htag : tag ∈ orden.map Linea.tag) : Accedido cache ways traza s tag orden := by
  have hle := h.length_le
  have ho : outcome ways tag (entradas orden) = .hit := by
    rw [outcome, keys_entradas, if_pos htag]
  obtain ⟨i, x, a, b, hleer, rfl, hx, hlectura, hescritura⟩ := h.usada htag
  obtain ⟨hcache, hdes⟩ := acceder_hit hcalc hleer
  have hnot : tag ∉ (entradas a).map Prod.fst := by
    have htags := h.tags
    rw [List.map_append, List.map_cons, hx] at htags
    rw [keys_entradas]
    exact fun hm => (List.nodup_cons.mp (List.nodup_middle.mp htags)).1
      (List.mem_append_left _ hm)
  have hsplit : entradas (a ++ x :: b) = entradas a ++ (tag, x.dirtyBit) :: entradas b := by
    simp [entradas, hx]
  rw [← length_entradas] at hle
  have hacc := access_hit (w := decide (traza.instruccion ≠ lectura)) hnot hsplit hle
  rw [Accedido, ho, hacc]
  by_cases hi : traza.instruccion = lectura
  · rw [if_pos hi] at hcache
    refine ⟨_, _, hcache, hdes, hlectura, ?_⟩
    simp [entradas, hi, hx]
  · rw [if_neg hi] at hcache
    refine ⟨_, _, hcache, hdes, hescritura, ?_⟩
    simp [entradas, hi, hx]

theorem acceder_cargada {orden : List Linea}
    (h : Ordenado (cache.sets s) ways cache.ciclos orden) (htag : tag ∉ orden.map Linea.tag)
    (hlibre : orden.length < ways) : Accedido cache ways traza s tag orden := by
  have hnot : tag ∉ (entradas orden).map Prod.fst := by rwa [keys_entradas]
  have hlen : (entradas orden).length < ways := by rwa [length_entradas]
  have ho : outcome ways tag (entradas orden) = .fill := by
    rw [outcome, if_neg hnot, if_pos hlen]
  obtain ⟨i, x', hnv, hx', hdirty, hord⟩ := h.cargada traza.instruccion hlibre htag
    (Nat.le_refl _)
  have hcarga : cargarLineaMiss cache traza.direccionAccedida traza.instruccion none =
      (codigo .fill, cache.guardar s ⟨(cache.sets s).lineas.modify i fun l =>
        cargarLinea l tag cache.ciclos traza.instruccion, (cache.sets s).lineasOcupadas + 1⟩,
        []) := by
    simp [cargarLineaMiss, hcalc, hnv, Conjunto.anotar, Conjunto.modificar, codigo]
  have hcodigo : Outcome.fill = if codigo .fill = desalojoDirtyBit then .dirty
      else if (lineaNoValida (cache.sets s)).isSome then .fill else .clean := by
    simp [codigo, hnv, desalojoLimpio, desalojoDirtyBit]
  obtain ⟨hcache, hdes⟩ := acceder_miss hcalc (h.no_encontrada htag) hcarga hcodigo
  rw [Accedido, ho, access_fill hnot hlen]
  refine ⟨_, _, hcache, hdes, hord, ?_⟩
  simp [entradas, hx', hdirty]

theorem acceder_desalojada (hpos : 0 < ways) {orden : List Linea}
    (h : Ordenado (cache.sets s) ways cache.ciclos orden) (htag : tag ∉ orden.map Linea.tag)
    (hllena : orden.length = ways) : Accedido cache ways traza s tag orden := by
  have hnot : tag ∉ (entradas orden).map Prod.fst := by rwa [keys_entradas]
  have hlen : (entradas orden).length = ways := by rwa [length_entradas]
  obtain ⟨hnv, a, x, x', set', rfl, hx', hdirty, hdes', hord⟩ :=
    h.desalojada traza.instruccion s hllena hpos htag
  have hsplit : entradas (a ++ [x]) = entradas a ++ [(x.tag, x.dirtyBit)] := by simp [entradas]
  have ho : outcome ways tag (entradas (a ++ [x])) = if x.dirtyBit then .dirty else .clean := by
    rw [outcome, if_neg hnot, if_neg (by omega), hsplit]
    simp
  have hcarga : cargarLineaMiss cache traza.direccionAccedida traza.instruccion none =
      (codigo (if x.dirtyBit then .dirty else .clean), cache.guardar s set', []) := by
    simp only [cargarLineaMiss, hcalc, hnv, hdes']
    cases x.dirtyBit <;> rfl
  obtain ⟨hcache, hdes⟩ := acceder_miss hcalc (h.no_encontrada htag) hcarga (by
    cases x.dirtyBit <;> simp [codigo, hnv, desalojoLimpio, desalojoDirtyBit])
  rw [Accedido, ho, access_evict hnot hsplit hlen]
  refine ⟨set', x' :: a, hcache, hdes, ?_, by simp [entradas, hx', hdirty]⟩
  cases hd : x.dirtyBit <;> simpa [hd, coste, Nat.add_assoc] using hord

/-- An access is an access to the recency list of the set that the address gives. -/
theorem acceder_spec (hpos : 0 < ways) {orden : List Linea}
    (h : Ordenado (cache.sets s) ways cache.ciclos orden) :
    Accedido cache ways traza s tag orden := by
  by_cases htag : tag ∈ orden.map Linea.tag
  · exact acceder_usada hcalc h htag
  by_cases hlibre : orden.length < ways
  · exact acceder_cargada hcalc h htag hlibre
  · have hle := h.length_le
    exact acceder_desalojada hcalc hpos h htag (by omega)

end Body

end Orga.CacheSim
