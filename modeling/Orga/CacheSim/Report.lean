import Mathlib.Data.List.Induction
import Orga.CacheSim.Verbose

/-! The lines that verbose mode prints. All their columns but the last are those of the silent
run; the last one, `ultima_operacion`, is written only for the operations of the range. -/
namespace Orga.CacheSim

/-- The line that `desalojar_linea` picks. -/
def Conjunto.victima (set : Conjunto) : ℕ :=
  desalojarLoop 0 (set.linea 0).ultimoCicloUsado 1 set.lineas.tail

/-- The line that an access uses: a hit, else a free line, else the one evicted. -/
def Conjunto.usada (set : Conjunto) (tag : Int32) : ℕ :=
  (leerSet set tag).getD ((lineaNoValida set).getD set.victima)

def lineaUsada (cache : Cache) (traza : Traza) : ℕ × ℕ :=
  let (set, tag) := calcularSetYTag cache traza.direccionAccedida cache.tamanioBloque
  (set, (cache.sets set).usada tag)

/-- The line printed for an access. -/
def renglon (cache : Cache) (verboso : ModoVerboso) (traza : Traza) : Impresion :=
  let (set, tag) := calcularSetYTag cache traza.direccionAccedida cache.tamanioBloque
  let i := (cache.sets set).usada tag
  let linea := (cache.sets set).linea i
  if (leerSet (cache.sets set) tag).isSome then imprimirHit verboso set tag i linea
  else if (lineaNoValida (cache.sets set)).isSome then
    imprimirMissLimpio verboso set tag (cache.sets set).lineasOcupadas
  else imprimirMissDesalojo verboso set tag i linea
    (if linea.dirtyBit then .missDirty else .missClean)

/-- What an access does to the notes of a set: line `i` gets the number of the operation when
verbose mode is on, and is valid from then on. -/
structure Anotado (verboso : Option ModoVerboso) (i : ℕ) (set set' : Conjunto) : Prop where
  largo : set'.lineas.length = set.lineas.length
  nota : ∀ j, (set'.linea j).ultimaOperacion =
    if j = i then (verboso.map ModoVerboso.operacionActual).getD (set.linea j).ultimaOperacion
    else (set.linea j).ultimaOperacion
  valida : ∀ j, j = i ∨ (set.linea j).valido = true → (set'.linea j).valido = true

theorem cargarLinea_nota (linea : Linea) (tag : Int32) (ciclos : ℕ) (instruccion : Char) :
    (cargarLinea linea tag ciclos instruccion).ultimaOperacion = linea.ultimaOperacion := by
  unfold cargarLinea
  cases hd : linea.dirtyBit <;> by_cases hi : instruccion = lectura <;> simp [hi]

section Conjunto
variable (set : Conjunto) {i : ℕ}

theorem linea_modificar (hi : i < set.lineas.length) (cambio : Linea → Linea) (j : ℕ) :
    (set.modificar i cambio).linea j = if j = i then cambio (set.linea j) else set.linea j := by
  simp only [Conjunto.linea, Conjunto.modificar, List.getD_eq_getElem?_getD,
    List.getElem?_modify]
  by_cases hj : j = i
  · subst hj
    simp [hi]
  · have hij : i ≠ j := Ne.symm hj
    simp [hj, hij]

def notar (verboso : Option ModoVerboso) (linea : Linea) : Linea :=
  { linea with
    ultimaOperacion :=
      (verboso.map ModoVerboso.operacionActual).getD linea.ultimaOperacion }

theorem anotar_eq (i : ℕ) (verboso : Option ModoVerboso) (impresion : ModoVerboso → Impresion) :
    set.anotar i verboso impresion =
      (set.modificar i (notar verboso), (verboso.map impresion).toList) := by
  cases verboso with
  | none =>
    have hid : notar none = id := rfl
    rw [hid, Conjunto.modificar, List.modify_id]
    rfl
  | some v => rfl

theorem actualizarPrimera_getD (tag : Int32) (cambio : Linea → Linea) (lineas : List Linea)
    (j : ℕ) :
    (actualizarPrimera tag cambio lineas).getD j lineaVacia = lineas.getD j lineaVacia ∨
      (actualizarPrimera tag cambio lineas).getD j lineaVacia =
        cambio (lineas.getD j lineaVacia) := by
  induction lineas generalizing j with
  | nil => exact Or.inl rfl
  | cons x lineas ih =>
    rw [actualizarPrimera]
    split_ifs
    · cases j with
      | zero => exact Or.inr rfl
      | succ j => exact Or.inl rfl
    · cases j with
      | zero => exact Or.inl rfl
      | succ j => exact ih j

theorem length_actualizarPrimera (tag : Int32) (cambio : Linea → Linea) (lineas : List Linea) :
    (actualizarPrimera tag cambio lineas).length = lineas.length := by
  induction lineas with
  | nil => rfl
  | cons x lineas ih =>
    rw [actualizarPrimera]
    split_ifs
    · rfl
    · rw [List.length_cons, List.length_cons, ih]

theorem leerSet_some {tag : Int32} (hi : leerSet set tag = some i) :
    i < set.lineas.length ∧ (set.linea i).valido = true := by
  obtain ⟨hlt, hp, -⟩ := List.findIdx?_eq_some_iff_getElem.mp hi
  refine ⟨hlt, ?_⟩
  rw [Conjunto.linea, List.getD_eq_getElem _ _ hlt]
  exact (Bool.and_eq_true_iff.mp hp).1

theorem lineaNoValida_some (hi : lineaNoValida set = some i) :
    i < set.lineas.length ∧ (set.linea i).valido = false := by
  obtain ⟨hlt, hp, -⟩ := List.findIdx?_eq_some_iff_getElem.mp hi
  refine ⟨hlt, ?_⟩
  rw [Conjunto.linea, List.getD_eq_getElem _ _ hlt]
  simpa using hp

theorem usada_of_leerSet {tag : Int32} (hi : leerSet set tag = some i) : set.usada tag = i := by
  unfold Conjunto.usada
  rw [hi]
  rfl

theorem usada_of_lineaNoValida {tag : Int32} (hleer : leerSet set tag = none)
    (hi : lineaNoValida set = some i) : set.usada tag = i := by
  unfold Conjunto.usada
  rw [hleer, hi]
  rfl

theorem victima_lt (hpos : 0 < set.lineas.length) : set.victima < set.lineas.length := by
  have hlen : set.lineas.tail.length + 1 = set.lineas.length := by
    rw [List.length_tail]
    omega
  unfold Conjunto.victima
  rcases desalojarLoop_spec set.lineas.tail 0 (set.linea 0).ultimoCicloUsado 1 with
    ⟨heq, -⟩ | ⟨pre, x, post, hsplit, heq, -, -⟩
  · rw [heq]
    exact hpos
  · rw [hsplit, List.length_append, List.length_cons] at hlen
    rw [heq]
    omega

theorem anotado_hit {tag : Int32} (hi : leerSet set tag = some i) (verboso : Option ModoVerboso)
    {cambio : Linea → Linea} (hcambio : ∀ x, (cambio x).ultimaOperacion = x.ultimaOperacion ∧
      (cambio x).valido = true) :
    Anotado verboso i set { set.modificar i (notar verboso) with
      lineas := actualizarPrimera tag cambio (set.modificar i (notar verboso)).lineas } := by
  obtain ⟨hlt, hval⟩ := leerSet_some set hi
  have hlinea := linea_modificar set hlt (notar verboso)
  refine ⟨?_, fun j => ?_, fun j hj => ?_⟩
  · simp only [length_actualizarPrimera, Conjunto.modificar, List.length_modify]
  · have hsame : ((set.modificar i (notar verboso)).linea j).ultimaOperacion = if j = i then
        (verboso.map ModoVerboso.operacionActual).getD (set.linea j).ultimaOperacion
        else (set.linea j).ultimaOperacion := by
      rw [hlinea]
      split_ifs <;> rfl
    rw [← hsame]
    rcases actualizarPrimera_getD tag cambio (set.modificar i (notar verboso)).lineas j with h | h
    · exact congrArg Linea.ultimaOperacion h
    · exact (congrArg Linea.ultimaOperacion h).trans (hcambio _).1
  · have hj : (set.linea j).valido = true := by
      rcases hj with rfl | hj
      · exact hval
      · exact hj
    have hbefore : ((set.modificar i (notar verboso)).linea j).valido = true := by
      rw [hlinea]
      split_ifs <;> exact hj
    rcases actualizarPrimera_getD tag cambio (set.modificar i (notar verboso)).lineas j with h | h
    · exact (congrArg Linea.valido h).trans hbefore
    · exact (congrArg Linea.valido h).trans (hcambio _).2

theorem anotado_carga (hlt : i < set.lineas.length) (verboso : Option ModoVerboso) (tag : Int32)
    (ciclos : ℕ) (instruccion : Char) (ocupadas : ℕ) :
    Anotado verboso i set { (set.modificar i (notar verboso)).modificar i
      (fun l => cargarLinea l tag ciclos instruccion) with lineasOcupadas := ocupadas } := by
  have hlt' : i < (set.modificar i (notar verboso)).lineas.length := by
    rwa [Conjunto.modificar, List.length_modify]
  have hlinea : ∀ j, Conjunto.linea { (set.modificar i (notar verboso)).modificar i
      (fun l => cargarLinea l tag ciclos instruccion) with lineasOcupadas := ocupadas } j =
      if j = i then cargarLinea (notar verboso (set.linea j)) tag ciclos instruccion
      else set.linea j := by
    intro j
    refine (linea_modificar (set.modificar i (notar verboso)) hlt' _ j).trans ?_
    rw [linea_modificar set hlt]
    split_ifs <;> rfl
  refine ⟨?_, fun j => ?_, fun j hj => ?_⟩
  · simp only [Conjunto.modificar, List.length_modify]
  · rw [hlinea]
    split_ifs
    · rw [cargarLinea_nota]
      rfl
    · rfl
  · rw [hlinea]
    split_ifs with hji
    · exact (cargarLinea_spec _ tag ciclos instruccion).2.1
    · exact hj.resolve_left hji

theorem desalojarLinea_anotado (hpos : 0 < set.lineas.length) (ciclos : ℕ) (tag : Int32)
    (instruccion : Char) (verboso : Option ModoVerboso) (numSet : ℕ) :
    Anotado verboso set.victima set
        (desalojarLinea ciclos set tag instruccion verboso numSet).2.1 ∧
      (desalojarLinea ciclos set tag instruccion verboso numSet).2.2 =
        (verboso.map fun v => imprimirMissDesalojo v numSet tag set.victima
          (set.linea set.victima)
          (if (set.linea set.victima).dirtyBit then .missDirty else .missClean)).toList := by
  have hcarga := anotado_carga set (victima_lt set hpos) verboso tag ciclos instruccion
    set.lineasOcupadas
  have hloop : desalojarLoop 0 (set.linea 0).ultimoCicloUsado 1 set.lineas.tail = set.victima := rfl
  simp only [desalojarLinea, hloop, anotar_eq]
  split_ifs
  · exact ⟨hcarga, rfl⟩
  · exact ⟨hcarga, rfl⟩

end Conjunto

section Cache
variable (cache : Cache) (direccion : UInt32) (verboso : Option ModoVerboso) {set : ℕ} {tag : Int32}
  (hcalc : calcularSetYTag cache direccion cache.tamanioBloque = (set, tag))
include hcalc

theorem leerCache_none (hleer : leerSet (cache.sets set) tag = none) :
    leerCache cache direccion verboso = (false, cache, []) ∧
      escribirCache cache direccion verboso = (false, cache, []) := by
  constructor
  · simp only [leerCache, hcalc, hleer]
  · simp only [escribirCache, hcalc, hleer]

theorem leerCache_some {i : ℕ} (hleer : leerSet (cache.sets set) tag = some i) :
    (∃ set', Anotado verboso i (cache.sets set) set' ∧ leerCache cache direccion verboso =
        (true, cache.guardar set set', (verboso.map fun v =>
          imprimirHit v set tag i ((cache.sets set).linea i)).toList)) ∧
      ∃ set', Anotado verboso i (cache.sets set) set' ∧ escribirCache cache direccion verboso =
        (true, cache.guardar set set', (verboso.map fun v =>
          imprimirHit v set tag i ((cache.sets set).linea i)).toList) := by
  constructor
  · refine ⟨actualizarCiclosLectura ((cache.sets set).modificar i (notar verboso)) tag cache.ciclos,
      anotado_hit (cache.sets set) hleer verboso fun _ => ⟨rfl, rfl⟩, ?_⟩
    simp only [leerCache, hcalc, hleer, anotar_eq]
  · refine ⟨actualizarCiclosEscritura ((cache.sets set).modificar i (notar verboso)) tag
      cache.ciclos, anotado_hit (cache.sets set) hleer verboso fun _ => ⟨rfl, rfl⟩, ?_⟩
    simp only [escribirCache, hcalc, hleer, anotar_eq]

theorem cargarLineaMiss_anotado (hpos : 0 < (cache.sets set).lineas.length)
    (hleer : leerSet (cache.sets set) tag = none) (instruccion : Char) :
    ∃ set' resultado, Anotado verboso ((cache.sets set).usada tag) (cache.sets set) set' ∧
      cargarLineaMiss cache direccion instruccion verboso =
        (resultado, cache.guardar set set', (verboso.map fun v =>
          renglon cache v ⟨direccion, instruccion⟩).toList) := by
  cases hlibre : lineaNoValida (cache.sets set) with
  | some i =>
    rw [usada_of_lineaNoValida _ hleer hlibre]
    refine ⟨_, desalojoLimpio, anotado_carga (cache.sets set)
      (lineaNoValida_some (cache.sets set) hlibre).1 verboso tag cache.ciclos instruccion
      ((cache.sets set).lineasOcupadas + 1), ?_⟩
    simp only [cargarLineaMiss, renglon, hcalc, hlibre, hleer, anotar_eq]
    rfl
  | none =>
    have husada : (cache.sets set).usada tag = (cache.sets set).victima := by
      unfold Conjunto.usada
      rw [hleer, hlibre]
      rfl
    obtain ⟨hanotado, hsalida⟩ := desalojarLinea_anotado (cache.sets set) hpos cache.ciclos tag
      instruccion verboso set
    rw [husada]
    refine ⟨_, (desalojarLinea cache.ciclos (cache.sets set) tag instruccion verboso set).1,
      hanotado, ?_⟩
    simp only [cargarLineaMiss, renglon, hcalc, hlibre, hleer, hsalida, husada]
    rfl

end Cache

def Cache.nota (cache : Cache) (x : ℕ × ℕ) : ℤ := ((cache.sets x.1).linea x.2).ultimaOperacion

def Cache.valida (cache : Cache) (x : ℕ × ℕ) : Prop :=
  ((cache.sets x.1).linea x.2).valido = true

section Acceso
variable (cache : Cache) (verboso : Option ModoVerboso) (traza : Traza)
  (hpos : ∀ s, 0 < (cache.sets s).lineas.length)
include hpos

/-- An access prints its line when verbose mode is on, and notes the operation in the line it
uses. -/
theorem acceder_anotado :
    (acceder cache verboso traza).salida = (verboso.map (renglon cache · traza)).toList ∧
      ∃ set', Anotado verboso (lineaUsada cache traza).2 (cache.sets (lineaUsada cache traza).1)
          set' ∧
        (acceder cache verboso traza).cache.sets =
          Function.update cache.sets (lineaUsada cache traza).1 set' := by
  rcases hcalc : calcularSetYTag cache traza.direccionAccedida cache.tamanioBloque with ⟨set, tag⟩
  have husada : lineaUsada cache traza = (set, (cache.sets set).usada tag) := by
    rw [lineaUsada, hcalc]
  rw [husada]
  cases hleer : leerSet (cache.sets set) tag with
  | some i =>
    have hi := usada_of_leerSet _ hleer
    have hrenglon : ∀ v, renglon cache v traza =
        imprimirHit v set tag i ((cache.sets set).linea i) := by
      intro v
      simp only [renglon, hcalc, hleer, hi]
      rfl
    obtain ⟨⟨set₁, h₁, hlee⟩, set₂, h₂, hescribe⟩ :=
      leerCache_some cache traza.direccionAccedida verboso hcalc hleer
    rw [acceder, hi]
    simp only [hrenglon]
    by_cases hins : traza.instruccion = lectura
    · simp only [hins, if_true, hlee]
      exact ⟨trivial, set₁, h₁, rfl⟩
    · simp only [hins, if_false, hescribe, if_true]
      exact ⟨trivial, set₂, h₂, rfl⟩
  | none =>
    obtain ⟨hlee, hescribe⟩ := leerCache_none cache traza.direccionAccedida verboso hcalc hleer
    obtain ⟨set', resultado, hanotado, hcarga⟩ := cargarLineaMiss_anotado cache
      traza.direccionAccedida verboso hcalc (hpos set) hleer traza.instruccion
    rw [acceder]
    simp only [hlee, hescribe, ite_self, Bool.false_eq_true, if_false, hcarga, List.nil_append]
    exact ⟨trivial, set', hanotado, rfl⟩

theorem acceder_lineas (s : ℕ) : 0 < ((acceder cache verboso traza).cache.sets s).lineas.length := by
  obtain ⟨-, set', hanotado, hsets⟩ := acceder_anotado cache verboso traza hpos
  rw [hsets]
  by_cases hs : s = (lineaUsada cache traza).1
  · rw [hs, Function.update_self, hanotado.largo]
    exact hpos _
  · rw [Function.update_of_ne hs]
    exact hpos s

theorem acceder_nota (x : ℕ × ℕ) : (acceder cache verboso traza).cache.nota x =
    if lineaUsada cache traza = x then
      (verboso.map ModoVerboso.operacionActual).getD (cache.nota x)
    else cache.nota x := by
  obtain ⟨-, set', hanotado, hsets⟩ := acceder_anotado cache verboso traza hpos
  unfold Cache.nota
  rw [hsets]
  by_cases hs : x.1 = (lineaUsada cache traza).1
  · have hx : x.2 = (lineaUsada cache traza).2 ↔ lineaUsada cache traza = x :=
      ⟨fun hi => Prod.ext hs.symm hi.symm, fun heq => (congrArg Prod.snd heq).symm⟩
    simp only [hs, Function.update_self, hanotado.nota, hx]
  · have hx : lineaUsada cache traza ≠ x := fun heq => hs (congrArg Prod.fst heq).symm
    rw [Function.update_of_ne hs, if_neg hx]

theorem acceder_valida (x : ℕ × ℕ) (hx : lineaUsada cache traza = x ∨ cache.valida x) :
    (acceder cache verboso traza).cache.valida x := by
  obtain ⟨-, set', hanotado, hsets⟩ := acceder_anotado cache verboso traza hpos
  unfold Cache.valida
  rw [hsets]
  by_cases hs : x.1 = (lineaUsada cache traza).1
  · rw [hs, Function.update_self]
    apply hanotado.valida
    rw [← hs]
    exact hx.imp_left fun heq => (congrArg Prod.snd heq).symm
  · have hne : lineaUsada cache traza ≠ x := fun heq => hs (congrArg Prod.fst heq).symm
    rw [Function.update_of_ne hs]
    exact hx.resolve_left hne

end Acceso

/-! The last use of a line, and the note that verbose mode leaves of it. -/

def ultimaVez (x : ℕ × ℕ) : List (ℕ × ℕ) → Option ℕ
  | [] => none
  | y :: usos => ((ultimaVez x usos).map (· + 1)).or (if y = x then some 0 else none)

theorem ultimaVez_append (x y : ℕ × ℕ) (usos : List (ℕ × ℕ)) :
    ultimaVez x (usos ++ [y]) = if y = x then some usos.length else ultimaVez x usos := by
  induction usos with
  | nil => simp [ultimaVez]
  | cons z usos ih =>
    rw [List.cons_append, ultimaVez, ih, ultimaVez]
    by_cases hy : y = x <;> simp [hy]

theorem ultimaVez_lt {x : ℕ × ℕ} {usos : List (ℕ × ℕ)} {u : ℕ} (h : ultimaVez x usos = some u) :
    u < usos.length := by
  induction usos using List.reverseRecOn generalizing u with
  | nil => simp [ultimaVez] at h
  | append_singleton usos y ih =>
    rw [ultimaVez_append] at h
    rw [List.length_append, List.length_singleton]
    split_ifs at h
    · obtain rfl := Option.some.inj h
      omega
    · have := ih h
      omega

def usos (cache : Cache) : List Traza → List (ℕ × ℕ)
  | [] => []
  | traza :: trazas => lineaUsada cache traza :: usos (simularCacheSimple cache [traza]) trazas

theorem simularCacheSimple_append (cache : Cache) (trazas trazas' : List Traza) :
    simularCacheSimple cache (trazas ++ trazas') =
      simularCacheSimple (simularCacheSimple cache trazas) trazas' := by
  induction trazas generalizing cache with
  | nil => rfl
  | cons traza trazas ih =>
    rw [List.cons_append, simularCacheSimple_cons, simularCacheSimple_cons, ih]

theorem usos_append (cache : Cache) (trazas : List Traza) (traza : Traza) :
    usos cache (trazas ++ [traza]) =
      usos cache trazas ++ [lineaUsada (simularCacheSimple cache trazas) traza] := by
  induction trazas generalizing cache with
  | nil => rfl
  | cons otra trazas ih =>
    rw [List.cons_append, usos, ih, usos, List.cons_append, ← simularCacheSimple_append]
    rfl

theorem length_usos (cache : Cache) (trazas : List Traza) :
    (usos cache trazas).length = trazas.length := by
  induction trazas generalizing cache with
  | nil => rfl
  | cons traza trazas ih => rw [usos, List.length_cons, List.length_cons, ih]

/-- The note of a line last used by an operation: verbose mode was on from `primera`. -/
def notaDe (primera : ℤ) : Option ℕ → ℤ
  | some u => if primera ≤ u then u else 0
  | none => 0

theorem notaDe_ultimaVez (x : ℕ × ℕ) {primera : ℤ} {usos : List (ℕ × ℕ)}
    (h : usos.length ≤ primera) : notaDe primera (ultimaVez x usos) = 0 := by
  cases hu : ultimaVez x usos with
  | none => rfl
  | some u =>
    have hlt := ultimaVez_lt hu
    rw [notaDe, if_neg (by omega)]

/-- After the accesses that used `usos`, all before the end of the range, each line holds the
note of its last use. -/
structure Notas (primera : ℤ) (usos : List (ℕ × ℕ)) (cache : Cache) : Prop where
  lineas : ∀ s, 0 < (cache.sets s).lineas.length
  nota : ∀ x, cache.nota x = notaDe primera (ultimaVez x usos)
  valida : ∀ x, (ultimaVez x usos).isSome → cache.valida x

theorem Notas.valida_of_nota {primera : ℤ} {usos : List (ℕ × ℕ)} {cache : Cache}
    (h : Notas primera usos cache) (x : ℕ × ℕ) (hx : cache.nota x ≠ 0) : cache.valida x := by
  apply h.valida
  rw [h.nota] at hx
  cases hu : ultimaVez x usos with
  | none =>
    rw [hu] at hx
    exact absurd rfl hx
  | some u => rfl

theorem notas_crear (g : Geometria) (primera : ℤ) : Notas primera [] g.crear where
  lineas s := by
    show 0 < (crearSet g.ways).lineas.length
    rw [crearSet, List.length_map, List.length_range]
    exact g.ways_pos
  nota x := by
    show ((crearSet g.ways).linea x.2).ultimaOperacion = 0
    rw [Conjunto.linea, crearSet, List.getD_eq_getElem?_getD, List.getElem?_map]
    cases (List.range g.ways)[x.2]? <;> rfl
  valida x hx := by simp [ultimaVez] at hx

theorem Notas.step {primera ultima : ℤ} {usos : List (ℕ × ℕ)} {cache : Cache}
    (h : Notas primera usos cache) (hultima : usos.length ≤ ultima) (traza : Traza) (mapeo : Bool) :
    Notas primera (usos ++ [lineaUsada cache traza])
      (acceder cache (if rangoVerboso usos.length primera ultima then
        some ⟨usos.length, mapeo⟩ else none) traza).cache where
  lineas := acceder_lineas cache _ traza h.lineas
  nota x := by
    rw [acceder_nota cache _ traza h.lineas, ultimaVez_append, h.nota]
    split_ifs with hx hrango
    · have hprimera : primera ≤ usos.length := by
        simp only [rangoVerboso, Bool.and_eq_true, decide_eq_true_eq] at hrango
        exact hrango.1
      rw [notaDe, if_pos hprimera]
      rfl
    · have hprimera : usos.length < primera := by
        simp only [rangoVerboso, Bool.and_eq_true, decide_eq_true_eq] at hrango
        omega
      rw [notaDe_ultimaVez x hprimera.le, notaDe, if_neg (by omega)]
      rfl
    · rfl
  valida x hx := by
    rw [ultimaVez_append] at hx
    apply acceder_valida cache _ traza h.lineas
    by_cases hne : lineaUsada cache traza = x
    · exact Or.inl hne
    · rw [if_neg hne] at hx
      exact Or.inr (h.valida x hx)

theorem usada_olvidar (set : Conjunto) (tag : Int32) : set.olvidar.usada tag = set.usada tag := by
  have hvictima : set.olvidar.victima = set.victima := by
    rw [Conjunto.victima, linea_olvidar, Conjunto.olvidar, ← List.map_tail, desalojarLoop_olvidar]
    rfl
  rw [Conjunto.usada, leerSet_olvidar, lineaNoValida_olvidar, hvictima]
  rfl

theorem lineaUsada_olvidar (cache : Cache) (traza : Traza) :
    lineaUsada cache.olvidar traza = lineaUsada cache traza :=
  Prod.ext rfl (usada_olvidar _ _)

/-- The line printed is that of the cache without notes, but for the note of the line used. -/
theorem renglon_olvidar {cache : Cache} (hnota : ∀ x, cache.nota x ≠ 0 → cache.valida x)
    (verboso : ModoVerboso) (traza : Traza) :
    renglon cache verboso traza = { renglon cache.olvidar verboso traza with
      ultimaOperacion := if verboso.mapeoDirecto then none
        else some (cache.nota (lineaUsada cache traza)) } := by
  have hcalc : calcularSetYTag cache.olvidar traza.direccionAccedida cache.olvidar.tamanioBloque =
    calcularSetYTag cache traza.direccionAccedida cache.tamanioBloque := rfl
  have hset : ∀ s, cache.olvidar.sets s = (cache.sets s).olvidar := fun _ => rfl
  rw [renglon, renglon, lineaUsada, hcalc]
  obtain ⟨set, tag⟩ := calcularSetYTag cache traza.direccionAccedida cache.tamanioBloque
  simp only [hset, usada_olvidar, linea_olvidar, leerSet_olvidar, lineaNoValida_olvidar]
  cases hleer : leerSet (cache.sets set) tag with
  | some i => rfl
  | none =>
    cases hlibre : lineaNoValida (cache.sets set) with
    | none => rfl
    | some i =>
      have husada := usada_of_lineaNoValida _ hleer hlibre
      -- a free line has no note, so the constant 0 that is printed is its note
      have hcero : cache.nota (set, i) = 0 := by
        by_contra hne
        have hval : ((cache.sets set).linea i).valido = true := hnota (set, i) hne
        rw [(lineaNoValida_some (cache.sets set) hlibre).2] at hval
        exact Bool.false_ne_true hval
      rw [husada, hcero]
      rfl

/-! What is printed for one operation. -/

theorem verbosoLoop_append (cache : Cache) (verbos : ModoVerboso) (primera ultima : ℤ)
    (trazas trazas' : List Traza) :
    verbosoLoop cache verbos primera ultima (trazas ++ trazas') =
      let antes := verbosoLoop cache verbos primera ultima trazas
      let resto := verbosoLoop antes.1
        { verbos with operacionActual := verbos.operacionActual + trazas.length } primera ultima
        trazas'
      (resto.1, antes.2 ++ resto.2) := by
  induction trazas generalizing cache verbos with
  | nil => simp [verbosoLoop]
  | cons traza trazas ih =>
    have hnum : verbos.operacionActual + 1 + (trazas.length : ℤ) =
      verbos.operacionActual + ((trazas.length + 1 : ℕ) : ℤ) := by omega
    rw [List.cons_append, verbosoLoop_eq, verbosoLoop_eq]
    simp only [ih, List.length_cons, List.append_assoc, hnum]

theorem renglon_operacion (cache : Cache) (verboso : ModoVerboso) (traza : Traza) :
    (renglon cache verboso traza).operacion = verboso.operacionActual := by
  unfold renglon
  rcases calcularSetYTag cache traza.direccionAccedida cache.tamanioBloque with ⟨set, tag⟩
  dsimp only
  split_ifs <;> rfl

theorem verbosoLoop_operacion {cache : Cache} (hpos : ∀ s, 0 < (cache.sets s).lineas.length)
    (verbos : ModoVerboso) (primera ultima : ℤ) (trazas : List Traza) :
    ∀ l ∈ (verbosoLoop cache verbos primera ultima trazas).2,
      verbos.operacionActual ≤ l.operacion ∧
        l.operacion < verbos.operacionActual + trazas.length := by
  induction trazas generalizing cache verbos with
  | nil => simp [verbosoLoop]
  | cons traza trazas ih =>
    intro l hl
    rw [verbosoLoop_eq] at hl
    rw [List.length_cons]
    rcases List.mem_append.mp hl with hl | hl
    · have hop : l.operacion = verbos.operacionActual := by
        rw [(acceder_anotado cache _ traza hpos).1] at hl
        split_ifs at hl
        · obtain rfl := List.mem_singleton.mp hl
          exact renglon_operacion cache verbos traza
        · exact absurd hl List.not_mem_nil
      omega
    · have := ih (acceder_lineas cache _ traza hpos) _ l hl
      simp only at this
      omega

theorem notas_run (g : Geometria) (mapeo : Bool) (primera : ℤ) {ultima : ℤ} (trazas : List Traza)
    (hultima : trazas.length ≤ ultima + 1) :
    Notas primera (usos g.crear trazas)
      (verbosoLoop g.crear ⟨0, mapeo⟩ primera ultima trazas).1 := by
  induction trazas using List.reverseRecOn with
  | nil => exact notas_crear g primera
  | append_singleton trazas traza ih =>
    rw [List.length_append, List.length_singleton] at hultima
    have h := ih (by omega)
    have hlen : ((usos g.crear trazas).length : ℤ) ≤ ultima := by
      rw [length_usos]
      omega
    have hstep := h.step hlen traza mapeo
    have husada : lineaUsada (verbosoLoop g.crear ⟨0, mapeo⟩ primera ultima trazas).1 traza =
        lineaUsada (simularCacheSimple g.crear trazas) traza := by
      rw [← lineaUsada_olvidar, verbosoLoop_olvidar, ← simularCacheSimple_olvidar,
        lineaUsada_olvidar]
    rw [usos_append, verbosoLoop_append, ← husada]
    dsimp only
    rw [verbosoLoop_cons, Int.zero_add]
    rw [length_usos] at hstep
    exact hstep

theorem verbosoLoop_filter (g : Geometria) (mapeo : Bool) {primera ultima : ℤ}
    (previas : List Traza) (traza : Traza) (siguientes : List Traza)
    (hprimera : primera ≤ previas.length) (hultima : previas.length ≤ ultima) :
    (verbosoLoop g.crear ⟨0, mapeo⟩ primera ultima (previas ++ traza :: siguientes)).2.filter
        (fun l => l.operacion == (previas.length : ℤ)) =
      [renglon (verbosoLoop g.crear ⟨0, mapeo⟩ primera ultima previas).1 ⟨previas.length, mapeo⟩
        traza] := by
  have hnotas := notas_run g mapeo primera previas (Int.le_add_one hultima)
  have hrango : rangoVerboso previas.length primera ultima = true := by
    simp [rangoVerboso, hprimera, hultima]
  have hantes := verbosoLoop_operacion (notas_crear g primera).lineas ⟨0, mapeo⟩ primera ultima
    previas
  rw [verbosoLoop_append]
  dsimp only
  rw [verbosoLoop_eq]
  simp only [Int.zero_add, hrango, if_true]
  generalize (verbosoLoop g.crear ⟨0, mapeo⟩ primera ultima previas).1 = cache at hnotas
  have hdespues := verbosoLoop_operacion
    (acceder_lineas cache (some ⟨previas.length, mapeo⟩) traza hnotas.lineas)
    ⟨previas.length + 1, mapeo⟩ primera ultima siguientes
  simp only at hantes hdespues
  have hninguno : ∀ ls : List Impresion, (∀ l ∈ ls, l.operacion ≠ (previas.length : ℤ)) →
      ls.filter (fun l => l.operacion == (previas.length : ℤ)) = [] := by
    intro ls hls
    rw [List.filter_eq_nil_iff]
    intro l hl
    simpa using hls l hl
  have hantes : ∀ l ∈ (verbosoLoop g.crear ⟨0, mapeo⟩ primera ultima previas).2,
      l.operacion ≠ (previas.length : ℤ) := fun l hl => by have := hantes l hl; omega
  rw [List.filter_append, List.filter_append, (acceder_anotado cache _ traza hnotas.lineas).1,
    hninguno _ hantes, hninguno _ fun l hl => ne_of_gt (Int.lt_of_add_one_le (hdespues l hl).1)]
  simp [renglon_operacion]

/-- The lines that verbose mode prints for operation `k`. -/
def informe (g : Geometria) (primera ultima : ℤ) (trazas : List Traza) (k : ℕ) : List Impresion :=
  (simularCacheModoVerboso g.crear primera ultima trazas).2.filter fun l => l.operacion == (k : ℤ)

def ultimoUso (g : Geometria) (previas : List Traza) (traza : Traza) : Option ℕ :=
  ultimaVez (lineaUsada (simularCacheSimple g.crear previas) traza) (usos g.crear previas)

/-- An operation of the range prints one line, that of the silent run with the note of the last
use. -/
theorem informe_eq (g : Geometria) {primera ultima : ℤ} {trazas : List Traza} {k : ℕ}
    (hk : k < trazas.length) (hprimera : primera ≤ k) (hultima : k ≤ ultima) :
    informe g primera ultima trazas k =
      [{ renglon (simularCacheSimple g.crear (trazas.take k)).olvidar ⟨k, g.ways == 1⟩ trazas[k] with
        ultimaOperacion := if g.ways == 1 then none
          else some (notaDe primera (ultimoUso g (trazas.take k) trazas[k])) }] := by
  have hsplit : trazas.take k ++ trazas[k] :: trazas.drop (k + 1) = trazas := by
    rw [List.getElem_cons_drop, List.take_append_drop]
  have hlen : (trazas.take k).length = k := List.length_take_of_le hk.le
  have hmapeo : crearModoVerboso (g.crear.sets 0).lineasPorSet = ⟨0, g.ways == 1⟩ := by
    show crearModoVerboso (crearSet g.ways).lineas.length = _
    rw [crearSet, List.length_map, List.length_range, crearModoVerboso]
  have hprimera' : primera ≤ (trazas.take k).length := by rwa [hlen]
  have hultima' : (trazas.take k).length ≤ ultima := by rwa [hlen]
  have hfilter := verbosoLoop_filter g (g.ways == 1) (trazas.take k) trazas[k]
    (trazas.drop (k + 1)) hprimera' hultima'
  have hnotas := notas_run g (g.ways == 1) primera (trazas.take k) (Int.le_add_one hultima')
  have holvidar := verbosoLoop_olvidar g.crear ⟨0, g.ways == 1⟩ primera ultima (trazas.take k)
  rw [← simularCacheSimple_olvidar] at holvidar
  rw [hsplit, hlen] at hfilter
  rw [informe, simularCacheModoVerboso, hmapeo, hfilter, renglon_olvidar hnotas.valida_of_nota,
    holvidar, hnotas.nota, ← lineaUsada_olvidar, holvidar, lineaUsada_olvidar]
  rfl

/-- Two runs print the same line for operation `k`, and its last column, where there is one, is
the last use of the line in the whole trace. -/
def InformeFiel (g : Geometria) (trazas : List Traza) (k : ℕ) (h : k < trazas.length)
    (primera ultima primera' ultima' : ℤ) : Prop :=
  ∃ l, informe g primera ultima trazas k = [l] ∧ informe g primera' ultima' trazas k = [l] ∧
    (g.ways ≠ 1 → ∀ u, ultimoUso g (trazas.take k) trazas[k] = some u →
      l.ultimaOperacion = some (u : ℤ))

theorem notaDe_eq_iff (primera : ℤ) (u : ℕ) :
    notaDe primera (some u) = u ↔ u = 0 ∨ primera ≤ u := by
  rw [notaDe]
  split_ifs with h
  · simp [h]
  · simp only [h, or_false]
    omega

/-- The report is faithful unless the line was last used before the start of a range, by an
operation other than the first. -/
theorem informeFiel_iff (g : Geometria) (trazas : List Traza) {k : ℕ} (hk : k < trazas.length)
    {primera ultima primera' ultima' : ℤ} (hrango : primera ≤ k ∧ k ≤ ultima)
    (hrango' : primera' ≤ k ∧ k ≤ ultima') :
    InformeFiel g trazas k hk primera ultima primera' ultima' ↔
      g.ways = 1 ∨ ∀ u, ultimoUso g (trazas.take k) trazas[k] = some u →
        u = 0 ∨ (primera ≤ u ∧ primera' ≤ u) := by
  unfold InformeFiel
  rw [informe_eq g hk hrango.1 hrango.2, informe_eq g hk hrango'.1 hrango'.2]
  generalize renglon (simularCacheSimple g.crear (trazas.take k)).olvidar ⟨k, g.ways == 1⟩
    trazas[k] = r
  by_cases hways : g.ways = 1
  · simp [hways]
  cases ultimoUso g (trazas.take k) trazas[k] with
  | none => simp [hways, notaDe]
  | some u =>
    have hiff := notaDe_eq_iff primera u
    have hiff' := notaDe_eq_iff primera' u
    have hmapeo : (g.ways == 1) = false := beq_eq_false_iff_ne.mpr hways
    simp only [hmapeo, Bool.false_eq_true, if_false, hways, false_or, Option.some.injEq]
    constructor
    · rintro ⟨l, hl, hl', hnota⟩ v rfl
      have hu := hnota hways u rfl
      rw [← (List.cons.inj hl).1] at hu
      have hu' := hnota hways u rfl
      rw [← (List.cons.inj hl').1] at hu'
      have h := hiff.mp (Option.some.inj hu)
      have h' := hiff'.mp (Option.some.inj hu')
      omega
    · intro h
      have hu := h u rfl
      have heq := hiff.mpr (by omega)
      have heq' := hiff'.mpr (by omega)
      rw [heq, heq']
      exact ⟨_, rfl, rfl, fun _ v hv => congrArg _ (congrArg _ hv)⟩

/-- The second line of a set of two is used by operations 1 and 2. -/
def sampleTrazas : List Traza := [⟨0, 'R'⟩, ⟨16, 'W'⟩, ⟨16, 'R'⟩]

theorem informeFiel_sample :
    InformeFiel ⟨0, 1, 3, by decide⟩ sampleTrazas 2 (by decide) 0 2 1 3 :=
  (informeFiel_iff ⟨0, 1, 3, by decide⟩ sampleTrazas (by decide) (by decide) (by decide)).mpr
    (Or.inr fun u hu => by
      have hone : ultimoUso ⟨0, 1, 3, by decide⟩ (sampleTrazas.take 2) sampleTrazas[2] = some 1 := by
        decide +kernel
      rw [hone] at hu
      obtain rfl := Option.some.inj hu
      omega)

/-- The range that starts after the first use of the line forgets it. -/
theorem not_informeFiel_sample :
    ¬ InformeFiel ⟨0, 1, 3, by decide⟩ sampleTrazas 2 (by decide) 1 2 2 3 := by
  rintro ⟨l, h, h', -⟩
  have hne : informe ⟨0, 1, 3, by decide⟩ 1 2 sampleTrazas 2 ≠
      informe ⟨0, 1, 3, by decide⟩ 2 3 sampleTrazas 2 := by decide +kernel
  exact hne (h.trans h'.symm)

end Orga.CacheSim
