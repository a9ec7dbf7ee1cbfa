import Mathlib.Algebra.Group.Int.Defs
import Mathlib.Algebra.Group.Nat.Defs
import Mathlib.Data.List.Basic
import Mathlib.Logic.Function.Basic

/-! The cache simulator of `alpha4.0.c`, function by function. Counters and cycles are
natural numbers, which the accounting results bound; `Contadores` has them with the types of the
code. Memory allocation succeeds, and the trace is the list of records that `fscanf` reads. -/
namespace Orga.CacheSim

def missPenalty : ℕ := 100
def lectura : Char := 'R'
def desalojoLimpio : ℕ := 1
def desalojoDirtyBit : ℕ := 2

structure Linea where
  tag : Int32
  numLinea : ℕ
  dirtyBit : Bool
  valido : Bool
  ultimoCicloUsado : ℕ
  ultimaOperacion : ℤ
  deriving DecidableEq, Repr

/-- `set_t`; `lineas_por_set` is the length of the array. -/
@[ext] structure Conjunto where
  lineas : List Linea
  lineasOcupadas : ℕ
  deriving DecidableEq, Repr

def Conjunto.lineasPorSet (set : Conjunto) : ℕ := set.lineas.length

structure Metricas where
  lecturas : ℕ
  escrituras : ℕ
  missesRead : ℕ
  missesWrite : ℕ
  dirtyReadMiss : ℕ
  dirtyWriteMiss : ℕ
  bytesRead : ℕ
  bytesWritten : ℕ
  ciclosLecturas : ℕ
  ciclosEscrituras : ℕ
  deriving DecidableEq, Repr

/-- `cache_t`, with the array of sets as a function of the index. -/
structure Cache where
  metricas : Metricas
  sets : ℕ → Conjunto
  cantidadSets : ℕ
  tamanioBloque : ℕ
  tamanioCache : ℕ
  ciclos : ℕ

structure Traza where
  direccionAccedida : UInt32
  instruccion : Char
  deriving DecidableEq, Repr

structure ModoVerboso where
  operacionActual : ℤ
  mapeoDirecto : Bool
  deriving DecidableEq, Repr

inductive Caso where
  | hit
  | missClean
  | missDirty
  deriving DecidableEq, Repr

/-- One line printed in verbose mode; the last column is left out for direct mapping. -/
structure Impresion where
  operacion : ℤ
  caso : Caso
  set : ℕ
  tag : Int32
  linea : ℕ
  tagAnterior : Int32
  valido : Bool
  dirtyBit : Bool
  ultimaOperacion : Option ℤ
  deriving DecidableEq, Repr

/-- A line as `calloc` leaves it. -/
def lineaVacia : Linea := ⟨0, 0, false, false, 0, 0⟩

def crearSet (asociatividad : ℕ) : Conjunto where
  lineas := (List.range asociatividad).map fun j =>
    { lineaVacia with numLinea := if asociatividad > 1 then j else 0 }
  lineasOcupadas := 0

def crearCache (tamanioCache asociatividad numeroSets : ℕ) : Cache where
  metricas := ⟨0, 0, 0, 0, 0, 0, 0, 0, 0, 0⟩
  sets := fun _ => crearSet asociatividad
  cantidadSets := numeroSets
  tamanioBloque := tamanioCache / (asociatividad * numeroSets)
  tamanioCache := tamanioCache
  ciclos := 0

/-- The loop of `es_potencia_de_dos`; `numero` tells how many rounds are enough. -/
def potenciaLoop (numero : ℤ) : ℕ → ℤ → ℕ → ℤ
  | 0, potencia, _ => potencia
  | fuel + 1, potencia, i =>
    if potencia < numero then potenciaLoop numero fuel (2 ^ i) (i + 1) else potencia

def esPotenciaDeDos (numero : ℤ) : Bool :=
  potenciaLoop numero (numero.toNat + 1) 0 0 == numero

/-- The cast to `int`. -/
def comoInt (numero : ℤ) : ℤ := numero.bmod (2 ^ 32)

def sonPotenciasDeDos (tamanioCache asociatividad numeroSets : ℤ) : Bool :=
  esPotenciaDeDos (comoInt tamanioCache) && esPotenciaDeDos asociatividad &&
    esPotenciaDeDos numeroSets

/-- A product of `int`s. -/
def productoInt (a b : ℤ) : ℤ := comoInt (a * b)

/-- A division of the code; by zero it has no result. -/
def dividir (a b : ℤ) : Option ℤ := if b = 0 then none else some (a.tdiv b)

def combinacionCorrecta (tamanioCache asociatividad numeroSets : ℤ) : Option Bool := do
  let tamanioBloque ← dividir tamanioCache (productoInt asociatividad numeroSets)
  let chequeoCache := productoInt (productoInt tamanioBloque asociatividad) numeroSets
  return tamanioCache == chequeoCache

/-- The checks of `main` before it creates the cache. -/
def mainAcepta (tamanioCache asociatividad numeroSets : ℤ) : Bool :=
  !(tamanioCache ≤ 0 || !sonPotenciasDeDos tamanioCache asociatividad numeroSets) &&
    combinacionCorrecta (comoInt tamanioCache) asociatividad numeroSets == some true

/-- The `tamanio_bloque` of `crear_cache`: a `long` division by an `int` product. -/
def tamanioBloqueDe (tamanioCache asociatividad numeroSets : ℤ) : Option ℤ := do
  let tamanioBloque ← dividir tamanioCache (productoInt asociatividad numeroSets)
  return comoInt tamanioBloque

/-- `main` up to the cache it creates: its block size, or the end with `ERROR`. Without a result,
a division by zero. -/
def mainInicio (tamanioCache asociatividad numeroSets : ℤ) : Option (Option ℤ) := do
  if tamanioCache ≤ 0 || !sonPotenciasDeDos tamanioCache asociatividad numeroSets then
    return none
  let correcta ← combinacionCorrecta (comoInt tamanioCache) asociatividad numeroSets
  if !correcta then
    return none
  return some (← tamanioBloqueDe tamanioCache asociatividad numeroSets)

def leerSet (set : Conjunto) (tagBuscado : Int32) : Option ℕ :=
  set.lineas.findIdx? fun linea => linea.valido && linea.tag == tagBuscado

/-- The bits of the set index, moved to the right end. -/
def mascaraSet (bitsSet bitsOffset : ℕ) : UInt32 :=
  let bitsTag := 32 - (bitsSet + bitsOffset)
  let mascaraTag := (((1 : Int32) <<< 31) >>> Int32.ofNat (bitsTag - 1)).toUInt32
  let mascaraOffset := (~~~ ((((1 : Int32) <<< 31) ^^^ ~~~0) <<< Int32.ofNat bitsOffset)).toUInt32
  (~~~ (mascaraTag ||| mascaraOffset)) >>> UInt32.ofNat bitsOffset

def calcularSetYTag (cache : Cache) (direccionAccedida : UInt32) (tamanioBloque : ℕ) : ℕ × Int32 :=
  let bitsSet := cache.cantidadSets.log2
  let bitsOffset := tamanioBloque.log2
  (((direccionAccedida >>> UInt32.ofNat bitsOffset) &&& mascaraSet bitsSet bitsOffset).toNat,
    (direccionAccedida >>> UInt32.ofNat (bitsSet + bitsOffset)).toInt32)

def actualizarPrimera (tag : Int32) (cambio : Linea → Linea) : List Linea → List Linea
  | [] => []
  | linea :: lineas =>
    if linea.tag = tag then cambio linea :: lineas
    else linea :: actualizarPrimera tag cambio lineas

def actualizarCiclosLectura (set : Conjunto) (tag : Int32) (ciclos : ℕ) : Conjunto :=
  let cambio (linea : Linea) := { linea with ultimoCicloUsado := ciclos + 1, valido := true }
  { set with lineas := actualizarPrimera tag cambio set.lineas }

def actualizarCiclosEscritura (set : Conjunto) (tag : Int32) (ciclos : ℕ) : Conjunto :=
  let cambio (linea : Linea) :=
    { linea with ultimoCicloUsado := ciclos + 1, dirtyBit := true, valido := true }
  { set with lineas := actualizarPrimera tag cambio set.lineas }

def imprimirHit (verboso : ModoVerboso) (set : ℕ) (tag : Int32) (numLinea : ℕ) (linea : Linea) :
    Impresion :=
  ⟨verboso.operacionActual, .hit, set, tag, numLinea, tag, true, linea.dirtyBit,
    if verboso.mapeoDirecto then none else some linea.ultimaOperacion⟩

def imprimirMissDesalojo (verboso : ModoVerboso) (set : ℕ) (tag : Int32) (numLinea : ℕ)
    (linea : Linea) (tipoMiss : Caso) : Impresion :=
  ⟨verboso.operacionActual, tipoMiss, set, tag, numLinea, linea.tag, true, linea.dirtyBit,
    if verboso.mapeoDirecto then none else some linea.ultimaOperacion⟩

def imprimirMissLimpio (verboso : ModoVerboso) (set : ℕ) (tag : Int32) (linea : ℕ) : Impresion :=
  ⟨verboso.operacionActual, .missClean, set, tag, linea, -1, false, false,
    if verboso.mapeoDirecto then none else some 0⟩

def Conjunto.linea (set : Conjunto) (i : ℕ) : Linea := set.lineas.getD i lineaVacia

def Conjunto.modificar (set : Conjunto) (i : ℕ) (cambio : Linea → Linea) : Conjunto :=
  { set with lineas := set.lineas.modify i cambio }

/-- The verbose branches: a printed line, and the operation noted in the line. -/
def Conjunto.anotar (set : Conjunto) (i : ℕ) (verboso : Option ModoVerboso)
    (impresion : ModoVerboso → Impresion) : Conjunto × List Impresion :=
  match verboso with
  | some v => (set.modificar i fun l => { l with ultimaOperacion := v.operacionActual },
      [impresion v])
  | none => (set, [])

def Cache.guardar (cache : Cache) (i : ℕ) (set : Conjunto) : Cache :=
  { cache with sets := Function.update cache.sets i set }

def leerCache (cache : Cache) (direccionAccedida : UInt32) (verboso : Option ModoVerboso) :
    Bool × Cache × List Impresion :=
  let (set, tag) := calcularSetYTag cache direccionAccedida cache.tamanioBloque
  match leerSet (cache.sets set) tag with
  | some i =>
    let (conjunto, salida) := (cache.sets set).anotar i verboso fun v =>
      imprimirHit v set tag i ((cache.sets set).linea i)
    (true, cache.guardar set (actualizarCiclosLectura conjunto tag cache.ciclos), salida)
  | none => (false, cache, [])

def escribirCache (cache : Cache) (direccionAccedida : UInt32) (verboso : Option ModoVerboso) :
    Bool × Cache × List Impresion :=
  let (set, tag) := calcularSetYTag cache direccionAccedida cache.tamanioBloque
  match leerSet (cache.sets set) tag with
  | some i =>
    let (conjunto, salida) := (cache.sets set).anotar i verboso fun v =>
      imprimirHit v set tag i ((cache.sets set).linea i)
    (true, cache.guardar set (actualizarCiclosEscritura conjunto tag cache.ciclos), salida)
  | none => (false, cache, [])

def lineaNoValida (set : Conjunto) : Option ℕ := set.lineas.findIdx? fun linea => !linea.valido

def cargarLinea (linea : Linea) (tag : Int32) (ciclos : ℕ) (instruccion : Char) : Linea :=
  let linea := { linea with
    valido := true
    tag := tag
    ultimoCicloUsado := ciclos + missPenalty + 1 }
  if linea.dirtyBit ∧ instruccion ≠ lectura then
    { linea with ultimoCicloUsado := linea.ultimoCicloUsado + missPenalty }
  else if ¬ linea.dirtyBit ∧ instruccion ≠ lectura then
    { linea with dirtyBit := true }
  else
    { linea with dirtyBit := false }

/-- The loop of `desalojar_linea`: `usado` is the last cycle of the line `posDesalojar`, and the
list holds the lines from index `i` on. -/
def desalojarLoop (posDesalojar usado i : ℕ) : List Linea → ℕ
  | [] => posDesalojar
  | linea :: lineas =>
    if usado > linea.ultimoCicloUsado then desalojarLoop i linea.ultimoCicloUsado (i + 1) lineas
    else desalojarLoop posDesalojar usado (i + 1) lineas

def desalojarLinea (ciclos : ℕ) (set : Conjunto) (tag : Int32) (instruccion : Char)
    (verboso : Option ModoVerboso) (numSet : ℕ) : ℕ × Conjunto × List Impresion :=
  let pos := desalojarLoop 0 (set.linea 0).ultimoCicloUsado 1 set.lineas.tail
  if (set.linea pos).dirtyBit then
    let (set, salida) := set.anotar pos verboso fun v =>
      imprimirMissDesalojo v numSet tag pos (set.linea pos) .missDirty
    (desalojoDirtyBit, set.modificar pos fun l => cargarLinea l tag ciclos instruccion, salida)
  else
    let (set, salida) := set.anotar pos verboso fun v =>
      imprimirMissDesalojo v numSet tag pos (set.linea pos) .missClean
    (desalojoLimpio, set.modificar pos fun l => cargarLinea l tag ciclos instruccion, salida)

def cargarLineaMiss (cache : Cache) (direccionAccedida : UInt32) (instruccion : Char)
    (verboso : Option ModoVerboso) : ℕ × Cache × List Impresion :=
  let (set, tag) := calcularSetYTag cache direccionAccedida cache.tamanioBloque
  match lineaNoValida (cache.sets set) with
  | some i =>
    let (conjunto, salida) := (cache.sets set).anotar i verboso fun v =>
      imprimirMissLimpio v set tag (cache.sets set).lineasOcupadas
    let conjunto := conjunto.modificar i fun l => cargarLinea l tag cache.ciclos instruccion
    let conjunto := { conjunto with lineasOcupadas := conjunto.lineasOcupadas + 1 }
    (desalojoLimpio, cache.guardar set conjunto, salida)
  | none =>
    let (resultado, conjunto, salida) :=
      desalojarLinea cache.ciclos (cache.sets set) tag instruccion verboso set
    (resultado, cache.guardar set conjunto, salida)

def actualizarMetricas (m : Metricas) (instruccion : Char) (fueHit : Bool)
    (desalojo tamanioBloque : ℕ) : Metricas :=
  if instruccion = lectura then
    let m := { m with lecturas := m.lecturas + 1 }
    if fueHit then
      { m with ciclosLecturas := m.ciclosLecturas + 1 }
    else
      let m := { m with
        missesRead := m.missesRead + 1
        ciclosLecturas := m.ciclosLecturas + (missPenalty + 1)
        bytesRead := m.bytesRead + tamanioBloque }
      if desalojo = desalojoDirtyBit then
        { m with
          dirtyReadMiss := m.dirtyReadMiss + 1
          ciclosLecturas := m.ciclosLecturas + missPenalty
          bytesWritten := m.bytesWritten + tamanioBloque }
      else m
  else
    let m := { m with escrituras := m.escrituras + 1 }
    if fueHit then
      { m with ciclosEscrituras := m.ciclosEscrituras + 1 }
    else
      let m := { m with
        bytesRead := m.bytesRead + tamanioBloque
        missesWrite := m.missesWrite + 1
        ciclosEscrituras := m.ciclosEscrituras + (missPenalty + 1) }
      if desalojo = desalojoDirtyBit then
        { m with
          dirtyWriteMiss := m.dirtyWriteMiss + 1
          ciclosEscrituras := m.ciclosEscrituras + missPenalty
          bytesWritten := m.bytesWritten + tamanioBloque }
      else m

/-- The loop of `simular_cache_simple`. -/
def simularCacheSimple (cache : Cache) : List Traza → Cache
  | [] => cache
  | traza :: trazas =>
    let (hit, cache, _) :=
      if traza.instruccion = lectura then leerCache cache traza.direccionAccedida none
      else escribirCache cache traza.direccionAccedida none
    let (resultado, cache) :=
      if hit then
        (0, { cache with ciclos := cache.ciclos + 1 })
      else
        let (resultado, cache, _) :=
          cargarLineaMiss cache traza.direccionAccedida traza.instruccion none
        let cache := { cache with ciclos := cache.ciclos + (missPenalty + 1) }
        if resultado = desalojoDirtyBit then
          (resultado, { cache with ciclos := cache.ciclos + missPenalty })
        else
          (resultado, cache)
    let metricas :=
      actualizarMetricas cache.metricas traza.instruccion hit resultado cache.tamanioBloque
    simularCacheSimple { cache with metricas := metricas } trazas

def rangoVerboso (operacionActual primeraOperacion ultimaOperacion : ℤ) : Bool :=
  operacionActual ≥ primeraOperacion && operacionActual ≤ ultimaOperacion

/-- The loop of `simular_cache_modo_verboso`, with the lines it prints. -/
def verbosoLoop (cache : Cache) (verbos : ModoVerboso) (primeraOperacion ultimaOperacion : ℤ) :
    List Traza → Cache × List Impresion
  | [] => (cache, [])
  | traza :: trazas =>
    let verboso := if rangoVerboso verbos.operacionActual primeraOperacion ultimaOperacion then
      some verbos else none
    let (hit, cache, salida) :=
      if traza.instruccion = lectura then leerCache cache traza.direccionAccedida verboso
      else escribirCache cache traza.direccionAccedida verboso
    let (resultado, cache, salida) :=
      if hit then
        (0, { cache with ciclos := cache.ciclos + 1 }, salida)
      else
        let (resultado, cache, salida') :=
          cargarLineaMiss cache traza.direccionAccedida traza.instruccion verboso
        let cache := { cache with ciclos := cache.ciclos + (missPenalty + 1) }
        if resultado = desalojoDirtyBit then
          (resultado, { cache with ciclos := cache.ciclos + missPenalty }, salida ++ salida')
        else
          (resultado, cache, salida ++ salida')
    let metricas :=
      actualizarMetricas cache.metricas traza.instruccion hit resultado cache.tamanioBloque
    let verbos := { verbos with operacionActual := verbos.operacionActual + 1 }
    let (final, resto) :=
      verbosoLoop { cache with metricas := metricas } verbos primeraOperacion ultimaOperacion trazas
    (final, salida ++ resto)

def crearModoVerboso (mapeo : ℕ) : ModoVerboso := ⟨0, mapeo == 1⟩

def simularCacheModoVerboso (cache : Cache) (primeraOperacion ultimaOperacion : ℤ)
    (trazas : List Traza) : Cache × List Impresion :=
  verbosoLoop cache (crearModoVerboso (cache.sets 0).lineasPorSet) primeraOperacion ultimaOperacion
    trazas

end Orga.CacheSim
