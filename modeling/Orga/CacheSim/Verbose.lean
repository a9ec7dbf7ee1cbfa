import Orga.CacheSim.Accesses

/-! Verbose mode writes `ultima_operacion` and nothing else. Every function of the simulator acts
alike on caches that differ in that field only, so both loops compute the same cache but for it. -/
namespace Orga.CacheSim

def Linea.olvidar (linea : Linea) : Linea := { linea with ultimaOperacion := 0 }

def Conjunto.olvidar (set : Conjunto) : Conjunto :=
  { set with lineas := set.lineas.map Linea.olvidar }

/-- The cache without what verbose mode notes in the lines. -/
def Cache.olvidar (cache : Cache) : Cache := { cache with sets := fun i => (cache.sets i).olvidar }

theorem cargarLinea_olvidar (linea : Linea) (tag : Int32) (ciclos : ℕ) (instruccion : Char) :
    (cargarLinea linea tag ciclos instruccion).olvidar =
      cargarLinea linea.olvidar tag ciclos instruccion := by
  unfold cargarLinea
  cases hd : linea.dirtyBit <;> by_cases hi : instruccion = lectura <;>
    simp [Linea.olvidar, hd, hi]

theorem actualizarPrimera_olvidar {cambio : Linea → Linea} (tag : Int32)
    (h : ∀ x, (cambio x).olvidar = cambio x.olvidar) (lineas : List Linea) :
    (actualizarPrimera tag cambio lineas).map Linea.olvidar =
      actualizarPrimera tag cambio (lineas.map Linea.olvidar) := by
  induction lineas with
  | nil => rfl
  | cons x lineas ih =>
    rw [List.map_cons, actualizarPrimera, actualizarPrimera]
    have htag : x.olvidar.tag = x.tag := rfl
    rw [htag]
    split_ifs
    · rw [List.map_cons, h]
    · rw [List.map_cons, ih]

theorem desalojarLoop_olvidar (lineas : List Linea) (pos usado i : ℕ) :
    desalojarLoop pos usado i (lineas.map Linea.olvidar) = desalojarLoop pos usado i lineas := by
  induction lineas generalizing pos usado i with
  | nil => rfl
  | cons x lineas ih =>
    rw [List.map_cons, desalojarLoop, desalojarLoop, ih, ih]
    rfl

section Conjunto
variable (set : Conjunto) (i : ℕ)

theorem linea_olvidar : set.olvidar.linea i = (set.linea i).olvidar := by
  rw [Conjunto.linea, Conjunto.linea, Conjunto.olvidar, List.getD_eq_getElem?_getD,
    List.getD_eq_getElem?_getD, List.getElem?_map]
  cases set.lineas[i]? <;> rfl

theorem leerSet_olvidar (tag : Int32) : leerSet set.olvidar tag = leerSet set tag := by
  rw [leerSet, Conjunto.olvidar, List.findIdx?_map]
  rfl

theorem lineaNoValida_olvidar : lineaNoValida set.olvidar = lineaNoValida set := by
  rw [lineaNoValida, Conjunto.olvidar, List.findIdx?_map]
  rfl

theorem modificar_olvidar {cambio cambio' : Linea → Linea}
    (h : ∀ x, (cambio x).olvidar = cambio' x.olvidar) :
    (set.modificar i cambio).olvidar = set.olvidar.modificar i cambio' := by
  have hmap : ∀ (lineas : List Linea) (i : ℕ), (lineas.modify i cambio).map Linea.olvidar =
      (lineas.map Linea.olvidar).modify i cambio' := by
    intro lineas
    induction lineas with
    | nil => simp
    | cons x lineas ih => intro i; cases i <;> simp [h, ih]
  rw [Conjunto.modificar, Conjunto.modificar, Conjunto.olvidar, Conjunto.olvidar, hmap]

theorem anotar_olvidar (verboso : Option ModoVerboso) (impresion : ModoVerboso → Impresion) :
    (set.anotar i verboso impresion).1.olvidar = set.olvidar := by
  cases verboso with
  | none => rfl
  | some v =>
    have hid : ∀ x : Linea, Linea.olvidar { x with ultimaOperacion := v.operacionActual } =
        id x.olvidar := fun _ => rfl
    refine (modificar_olvidar set i hid).trans ?_
    rw [Conjunto.modificar, List.modify_id]

theorem cargada_olvidar (tag : Int32) (ciclos : ℕ) (instruccion : Char) :
    (set.modificar i fun l => cargarLinea l tag ciclos instruccion).olvidar =
      set.olvidar.modificar i fun l => cargarLinea l tag ciclos instruccion :=
  modificar_olvidar set i fun x => cargarLinea_olvidar x tag ciclos instruccion

theorem actualizarCiclosLectura_olvidar (tag : Int32) (ciclos : ℕ) :
    (actualizarCiclosLectura set tag ciclos).olvidar =
      actualizarCiclosLectura set.olvidar tag ciclos := by
  rw [actualizarCiclosLectura, Conjunto.olvidar, actualizarPrimera_olvidar]
  · rfl
  · exact fun _ => rfl

theorem actualizarCiclosEscritura_olvidar (tag : Int32) (ciclos : ℕ) :
    (actualizarCiclosEscritura set tag ciclos).olvidar =
      actualizarCiclosEscritura set.olvidar tag ciclos := by
  rw [actualizarCiclosEscritura, Conjunto.olvidar, actualizarPrimera_olvidar]
  · rfl
  · exact fun _ => rfl

theorem desalojarLinea_olvidar (ciclos : ℕ) (tag : Int32) (instruccion : Char)
    (verboso : Option ModoVerboso) (numSet : ℕ) :
    (desalojarLinea ciclos set tag instruccion verboso numSet).1 =
        (desalojarLinea ciclos set.olvidar tag instruccion none numSet).1 ∧
      (desalojarLinea ciclos set tag instruccion verboso numSet).2.1.olvidar =
        (desalojarLinea ciclos set.olvidar tag instruccion none numSet).2.1 := by
  have hloop : desalojarLoop 0 (set.olvidar.linea 0).ultimoCicloUsado 1 set.olvidar.lineas.tail =
      desalojarLoop 0 (set.linea 0).ultimoCicloUsado 1 set.lineas.tail := by
    rw [linea_olvidar, Conjunto.olvidar, ← List.map_tail, desalojarLoop_olvidar]
    rfl
  rw [desalojarLinea, desalojarLinea, hloop]
  generalize desalojarLoop 0 (set.linea 0).ultimoCicloUsado 1 set.lineas.tail = pos
  have hdirty : (set.olvidar.linea pos).dirtyBit = (set.linea pos).dirtyBit := by
    rw [linea_olvidar]
    rfl
  rw [hdirty]
  split_ifs
  · refine ⟨rfl, ?_⟩
    rw [cargada_olvidar, anotar_olvidar]
    rfl
  · refine ⟨rfl, ?_⟩
    rw [cargada_olvidar, anotar_olvidar]
    rfl

end Conjunto

theorem guardar_olvidar (cache : Cache) (i : ℕ) (set : Conjunto) :
    (cache.guardar i set).olvidar = cache.olvidar.guardar i set.olvidar := by
  rw [Cache.guardar, Cache.guardar, Cache.olvidar, Cache.olvidar]
  congr 1
  funext k
  exact Function.apply_update (fun _ => Conjunto.olvidar) cache.sets i set k

section Cache
variable (cache : Cache) (direccion : UInt32) (verboso : Option ModoVerboso)

theorem leerCache_olvidar :
    (leerCache cache direccion verboso).1 = (leerCache cache.olvidar direccion none).1 ∧
      (leerCache cache direccion verboso).2.1.olvidar =
        (leerCache cache.olvidar direccion none).2.1 := by
  have hcalc : calcularSetYTag cache.olvidar direccion cache.olvidar.tamanioBloque =
    calcularSetYTag cache direccion cache.tamanioBloque := rfl
  rw [leerCache, leerCache, hcalc]
  obtain ⟨set, tag⟩ := calcularSetYTag cache direccion cache.tamanioBloque
  have hleer : leerSet (cache.olvidar.sets set) tag = leerSet (cache.sets set) tag :=
    leerSet_olvidar _ _
  simp only [hleer]
  cases leerSet (cache.sets set) tag with
  | none => exact ⟨rfl, rfl⟩
  | some i =>
    refine ⟨rfl, ?_⟩
    simp only [guardar_olvidar, actualizarCiclosLectura_olvidar, anotar_olvidar]
    rfl

theorem escribirCache_olvidar :
    (escribirCache cache direccion verboso).1 = (escribirCache cache.olvidar direccion none).1 ∧
      (escribirCache cache direccion verboso).2.1.olvidar =
        (escribirCache cache.olvidar direccion none).2.1 := by
  have hcalc : calcularSetYTag cache.olvidar direccion cache.olvidar.tamanioBloque =
    calcularSetYTag cache direccion cache.tamanioBloque := rfl
  rw [escribirCache, escribirCache, hcalc]
  obtain ⟨set, tag⟩ := calcularSetYTag cache direccion cache.tamanioBloque
  have hleer : leerSet (cache.olvidar.sets set) tag = leerSet (cache.sets set) tag :=
    leerSet_olvidar _ _
  simp only [hleer]
  cases leerSet (cache.sets set) tag with
  | none => exact ⟨rfl, rfl⟩
  | some i =>
    refine ⟨rfl, ?_⟩
    simp only [guardar_olvidar, actualizarCiclosEscritura_olvidar, anotar_olvidar]
    rfl

theorem cargarLineaMiss_olvidar (instruccion : Char) :
    (cargarLineaMiss cache direccion instruccion verboso).1 =
        (cargarLineaMiss cache.olvidar direccion instruccion none).1 ∧
      (cargarLineaMiss cache direccion instruccion verboso).2.1.olvidar =
        (cargarLineaMiss cache.olvidar direccion instruccion none).2.1 := by
  have hcalc : calcularSetYTag cache.olvidar direccion cache.olvidar.tamanioBloque =
    calcularSetYTag cache direccion cache.tamanioBloque := rfl
  rw [cargarLineaMiss, cargarLineaMiss, hcalc]
  obtain ⟨set, tag⟩ := calcularSetYTag cache direccion cache.tamanioBloque
  have hlibre : lineaNoValida (cache.olvidar.sets set) = lineaNoValida (cache.sets set) :=
    lineaNoValida_olvidar _
  simp only [hlibre]
  cases lineaNoValida (cache.sets set) with
  | none =>
    obtain ⟨hres, hset⟩ := desalojarLinea_olvidar (cache.sets set) cache.ciclos tag instruccion
      verboso set
    refine ⟨hres, ?_⟩
    simp only [guardar_olvidar, hset]
    rfl
  | some i =>
    refine ⟨rfl, ?_⟩
    simp only [guardar_olvidar]
    congr 1
    have hset := cargada_olvidar ((cache.sets set).anotar i verboso fun v =>
      imprimirMissLimpio v set tag (cache.sets set).lineasOcupadas).1 i tag cache.ciclos instruccion
    rw [anotar_olvidar] at hset
    exact congrArg (fun c : Conjunto => { c with lineasOcupadas := c.lineasOcupadas + 1 }) hset

/-- The body of the loop acts alike with and without verbose mode. -/
theorem acceder_olvidar (traza : Traza) :
    (acceder cache verboso traza).cache.olvidar =
      (acceder cache.olvidar none traza).cache := by
  have hr : (if traza.instruccion = lectura then leerCache cache traza.direccionAccedida verboso
        else escribirCache cache traza.direccionAccedida verboso).1 =
      (if traza.instruccion = lectura then leerCache cache.olvidar traza.direccionAccedida none
        else escribirCache cache.olvidar traza.direccionAccedida none).1 ∧
      (if traza.instruccion = lectura then leerCache cache traza.direccionAccedida verboso
        else escribirCache cache traza.direccionAccedida verboso).2.1.olvidar =
      (if traza.instruccion = lectura then leerCache cache.olvidar traza.direccionAccedida none
        else escribirCache cache.olvidar traza.direccionAccedida none).2.1 := by
    split_ifs
    · exact leerCache_olvidar cache traza.direccionAccedida verboso
    · exact escribirCache_olvidar cache traza.direccionAccedida verboso
  rw [acceder, acceder]
  generalize (if traza.instruccion = lectura then leerCache cache traza.direccionAccedida verboso
    else escribirCache cache traza.direccionAccedida verboso) = r at hr
  generalize (if traza.instruccion = lectura then
    leerCache cache.olvidar traza.direccionAccedida none
    else escribirCache cache.olvidar traza.direccionAccedida none) = r' at hr
  obtain ⟨hit, c, salida⟩ := r
  obtain ⟨hit', c', salida'⟩ := r'
  obtain ⟨rfl, rfl⟩ : hit = hit' ∧ c.olvidar = c' := hr
  cases hit with
  | true => rfl
  | false =>
    have hmiss := cargarLineaMiss_olvidar c traza.direccionAccedida verboso traza.instruccion
    simp only [Bool.false_eq_true, if_false]
    rw [← hmiss.1, ← hmiss.2]
    rfl

theorem simularCacheSimple_olvidar (trazas : List Traza) :
    (simularCacheSimple cache trazas).olvidar = simularCacheSimple cache.olvidar trazas := by
  induction trazas generalizing cache with
  | nil => rfl
  | cons traza trazas ih =>
    rw [simularCacheSimple_cons, simularCacheSimple_cons, ih, acceder_olvidar]

theorem verbosoLoop_olvidar (verbos : ModoVerboso) (primera ultima : ℤ) (trazas : List Traza) :
    (verbosoLoop cache verbos primera ultima trazas).1.olvidar =
      simularCacheSimple cache.olvidar trazas := by
  induction trazas generalizing cache verbos with
  | nil => rfl
  | cons traza trazas ih =>
    rw [verbosoLoop_cons, simularCacheSimple_cons, ih, acceder_olvidar]

theorem modoVerboso_olvidar (primera ultima : ℤ) (trazas : List Traza) :
    (simularCacheModoVerboso cache primera ultima trazas).1.olvidar =
      (simularCacheSimple cache trazas).olvidar := by
  rw [simularCacheModoVerboso, verbosoLoop_olvidar, simularCacheSimple_olvidar]

end Cache

/-- Verbose mode, with any range, computes what the simple mode computes: only
`ultima_operacion` may differ. -/
theorem modoVerboso_simple (cache : Cache) (primera ultima : ℤ) (trazas : List Traza) :
    let verbosa := (simularCacheModoVerboso cache primera ultima trazas).1
    let simple := simularCacheSimple cache trazas
    verbosa.metricas = simple.metricas ∧ verbosa.ciclos = simple.ciclos ∧
      (∀ s, (verbosa.sets s).lineas.map
          (fun l => (l.tag, l.valido, l.dirtyBit, l.ultimoCicloUsado)) =
        (simple.sets s).lineas.map
          fun l => (l.tag, l.valido, l.dirtyBit, l.ultimoCicloUsado)) ∧
      verbosa.olvidar = simple.olvidar := by
  have h := modoVerboso_olvidar cache primera ultima trazas
  refine ⟨?_, ?_, fun s => ?_, h⟩
  · simpa [Cache.olvidar] using congrArg Cache.metricas h
  · simpa [Cache.olvidar] using congrArg Cache.ciclos h
  have hlineas := congrArg (fun c => ((c.sets s).lineas.map
    fun l => (l.tag, l.valido, l.dirtyBit, l.ultimoCicloUsado))) h
  simpa [Cache.olvidar, Conjunto.olvidar, Linea.olvidar, Function.comp_def] using hlineas

end Orga.CacheSim
