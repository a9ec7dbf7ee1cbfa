import Orga.CacheSim.Accounting

/-! The counters of `metricas_t` with their own types. An increment wraps; in a run of fewer than
`2 ^ 31` accesses none does, and the machine words are the natural numbers of `Metricas`. -/
namespace Orga.CacheSim

/-- The fields of `metricas_t` that the loop counts, `int` and `long`. -/
structure Contadores where
  lecturas : Int32
  escrituras : Int32
  missesRead : Int32
  missesWrite : Int32
  dirtyReadMiss : Int32
  dirtyWriteMiss : Int32
  bytesRead : Int64
  bytesWritten : Int64
  ciclosLecturas : Int64
  ciclosEscrituras : Int64
  deriving DecidableEq, Repr

/-- `actualizar_metricas` on the machine words. -/
def actualizarContadores (m : Contadores) (instruccion : Char) (fueHit : Bool) (desalojo : ℕ)
    (tamanioBloque : Int32) : Contadores :=
  if instruccion = lectura then
    let m := { m with lecturas := m.lecturas + 1 }
    if fueHit then
      { m with ciclosLecturas := m.ciclosLecturas + 1 }
    else
      let m := { m with
        missesRead := m.missesRead + 1
        ciclosLecturas := m.ciclosLecturas + (Int64.ofNat missPenalty + 1)
        bytesRead := m.bytesRead + tamanioBloque.toInt64 }
      if desalojo = desalojoDirtyBit then
        { m with
          dirtyReadMiss := m.dirtyReadMiss + 1
          ciclosLecturas := m.ciclosLecturas + Int64.ofNat missPenalty
          bytesWritten := m.bytesWritten + tamanioBloque.toInt64 }
      else m
  else
    let m := { m with escrituras := m.escrituras + 1 }
    if fueHit then
      { m with ciclosEscrituras := m.ciclosEscrituras + 1 }
    else
      let m := { m with
        bytesRead := m.bytesRead + tamanioBloque.toInt64
        missesWrite := m.missesWrite + 1
        ciclosEscrituras := m.ciclosEscrituras + (Int64.ofNat missPenalty + 1) }
      if desalojo = desalojoDirtyBit then
        { m with
          dirtyWriteMiss := m.dirtyWriteMiss + 1
          ciclosEscrituras := m.ciclosEscrituras + Int64.ofNat missPenalty
          bytesWritten := m.bytesWritten + tamanioBloque.toInt64 }
      else m

/-- The machine words of a run of `simular_cache_simple`, which never reads them. -/
def contar (cache : Cache) (m : Contadores) : List Traza → Contadores
  | [] => m
  | traza :: trazas =>
    let acceso := acceder cache none traza
    contar acceso.cache (actualizarContadores m traza.instruccion acceso.hit acceso.resultado
      (Int32.ofNat cache.tamanioBloque)) trazas

def Metricas.contadores (m : Metricas) : Contadores where
  lecturas := Int32.ofNat m.lecturas
  escrituras := Int32.ofNat m.escrituras
  missesRead := Int32.ofNat m.missesRead
  missesWrite := Int32.ofNat m.missesWrite
  dirtyReadMiss := Int32.ofNat m.dirtyReadMiss
  dirtyWriteMiss := Int32.ofNat m.dirtyWriteMiss
  bytesRead := Int64.ofNat m.bytesRead
  bytesWritten := Int64.ofNat m.bytesWritten
  ciclosLecturas := Int64.ofNat m.ciclosLecturas
  ciclosEscrituras := Int64.ofNat m.ciclosEscrituras

section Words

theorem toInt64_ofNat {n : ℕ} (hn : n < 2 ^ 31) : (Int32.ofNat n).toInt64 = Int64.ofNat n := by
  apply Int64.toInt_inj.mp
  rw [Int32.toInt_toInt64, Int32.toInt_ofNat_of_lt hn, Int64.toInt_ofNat_of_lt (by omega)]

theorem contadores_actualizar (m : Metricas) (instruccion : Char) (fueHit : Bool)
    (desalojo : ℕ) {bloque : ℕ} (hbloque : bloque < 2 ^ 31) :
    (actualizarMetricas m instruccion fueHit desalojo bloque).contadores =
      actualizarContadores m.contadores instruccion fueHit desalojo (Int32.ofNat bloque) := by
  unfold actualizarMetricas actualizarContadores Metricas.contadores
  rw [toInt64_ofNat hbloque]
  split_ifs <;> simp [Int32.ofNat_add, Int64.ofNat_add]

end Words

section Body
variable (cache : Cache) (direccion : UInt32) (verboso : Option ModoVerboso)

theorem leerCache_metricas : (leerCache cache direccion verboso).2.1.metricas = cache.metricas ∧
    (leerCache cache direccion verboso).2.1.tamanioBloque = cache.tamanioBloque := by
  unfold leerCache
  dsimp only
  split <;> exact ⟨rfl, rfl⟩

theorem escribirCache_metricas :
    (escribirCache cache direccion verboso).2.1.metricas = cache.metricas ∧
      (escribirCache cache direccion verboso).2.1.tamanioBloque = cache.tamanioBloque := by
  unfold escribirCache
  dsimp only
  split <;> exact ⟨rfl, rfl⟩

theorem cargarLineaMiss_metricas (instruccion : Char) :
    (cargarLineaMiss cache direccion instruccion verboso).2.1.metricas = cache.metricas ∧
      (cargarLineaMiss cache direccion instruccion verboso).2.1.tamanioBloque =
        cache.tamanioBloque := by
  unfold cargarLineaMiss
  dsimp only
  split <;> exact ⟨rfl, rfl⟩

theorem acceder_metricas (traza : Traza) :
    (acceder cache verboso traza).cache.metricas =
        actualizarMetricas cache.metricas traza.instruccion (acceder cache verboso traza).hit
          (acceder cache verboso traza).resultado cache.tamanioBloque ∧
      (acceder cache verboso traza).cache.tamanioBloque = cache.tamanioBloque := by
  rw [acceder]
  generalize hr : (if traza.instruccion = lectura then
    leerCache cache traza.direccionAccedida verboso
    else escribirCache cache traza.direccionAccedida verboso) = r
  have hsame : r.2.1.metricas = cache.metricas ∧ r.2.1.tamanioBloque = cache.tamanioBloque := by
    rw [← hr]
    split_ifs
    · exact leerCache_metricas cache _ verboso
    · exact escribirCache_metricas cache _ verboso
  obtain ⟨hmetricas, hbloque⟩ := hsame
  have hmiss := cargarLineaMiss_metricas r.2.1 traza.direccionAccedida verboso traza.instruccion
  rw [hmetricas, hbloque] at hmiss
  by_cases hhit : r.1 = true
  · simp only [if_pos hhit, hmetricas, hbloque, and_self]
  · simp only [if_neg hhit, hmiss.1, hmiss.2, and_self]

end Body

/-- In every run the machine words are the words of the natural counters. -/
theorem contar_eq {cache : Cache} (hbloque : cache.tamanioBloque < 2 ^ 31) (trazas : List Traza) :
    contar cache cache.metricas.contadores trazas =
      (simularCacheSimple cache trazas).metricas.contadores := by
  induction trazas generalizing cache with
  | nil => rfl
  | cons traza trazas ih =>
    obtain ⟨hmetricas, htam⟩ := acceder_metricas cache none traza
    have hrest := ih (by rw [htam]; exact hbloque)
    rw [simularCacheSimple_cons, ← hrest, contar, hmetricas, contadores_actualizar _ _ _ _ hbloque]

def contarLecturas (trazas : List Traza) : ℕ :=
  trazas.countP fun traza => traza.instruccion = lectura

def contarEscrituras (trazas : List Traza) : ℕ :=
  trazas.countP fun traza => traza.instruccion ≠ lectura

theorem simular_lecturas (cache : Cache) (trazas : List Traza) :
    (simularCacheSimple cache trazas).metricas.lecturas =
        cache.metricas.lecturas + contarLecturas trazas ∧
      (simularCacheSimple cache trazas).metricas.escrituras =
        cache.metricas.escrituras + contarEscrituras trazas := by
  unfold contarLecturas contarEscrituras
  induction trazas generalizing cache with
  | nil => exact ⟨rfl, rfl⟩
  | cons traza trazas ih =>
    have hone : (acceder cache none traza).cache.metricas.lecturas =
          cache.metricas.lecturas + (if traza.instruccion = lectura then 1 else 0) ∧
        (acceder cache none traza).cache.metricas.escrituras =
          cache.metricas.escrituras + (if traza.instruccion = lectura then 0 else 1) := by
      rw [(acceder_metricas cache none traza).1, actualizarMetricas]
      split_ifs <;> exact ⟨rfl, rfl⟩
    obtain ⟨hlee, hescribe⟩ := ih (acceder cache none traza).cache
    rw [simularCacheSimple_cons, hlee, hescribe, hone.1, hone.2, List.countP_cons,
      List.countP_cons]
    by_cases hi : traza.instruccion = lectura <;> simp [hi] <;> omega

theorem caben_crear (g : Geometria) {trazas : List Traza} (hlee : contarLecturas trazas < 2 ^ 31)
    (hescribe : contarEscrituras trazas < 2 ^ 31) : Caben (simularCacheSimple g.crear trazas) := by
  obtain ⟨hcuentas, hbloque⟩ := (cuentas_crear g).run (simula_crear g) trazas
  obtain ⟨hlecturas, hescrituras⟩ := simular_lecturas g.crear trazas
  have hcero : g.crear.metricas.lecturas = 0 ∧ g.crear.metricas.escrituras = 0 := ⟨rfl, rfl⟩
  exact hcuentas.caben_of (by omega) (by omega) (hbloque.le.trans g.bloque_le)

theorem Geometria.crear_bloque_lt (g : Geometria) : g.crear.tamanioBloque < 2 ^ 31 := by
  have hle := g.bloque_le
  rw [(forma_crear g).bloque]
  omega

/-- The words are the numbers. -/
structure Contadores.Valen (c : Contadores) (m : Metricas) : Prop where
  lecturas : c.lecturas.toInt = m.lecturas
  escrituras : c.escrituras.toInt = m.escrituras
  missesRead : c.missesRead.toInt = m.missesRead
  missesWrite : c.missesWrite.toInt = m.missesWrite
  dirtyReadMiss : c.dirtyReadMiss.toInt = m.dirtyReadMiss
  dirtyWriteMiss : c.dirtyWriteMiss.toInt = m.dirtyWriteMiss
  bytesRead : c.bytesRead.toInt = m.bytesRead
  bytesWritten : c.bytesWritten.toInt = m.bytesWritten
  ciclosLecturas : c.ciclosLecturas.toInt = m.ciclosLecturas
  ciclosEscrituras : c.ciclosEscrituras.toInt = m.ciclosEscrituras

theorem Caben.valen {cache : Cache} (h : Caben cache) :
    cache.metricas.contadores.Valen cache.metricas where
  lecturas := Int32.toInt_ofNat_of_lt h.accesos.1
  escrituras := Int32.toInt_ofNat_of_lt h.accesos.2
  missesRead := Int32.toInt_ofNat_of_lt h.misses.1
  missesWrite := Int32.toInt_ofNat_of_lt h.misses.2
  dirtyReadMiss := Int32.toInt_ofNat_of_lt h.dirty.1
  dirtyWriteMiss := Int32.toInt_ofNat_of_lt h.dirty.2
  bytesRead := Int64.toInt_ofNat_of_lt h.bytes.1
  bytesWritten := Int64.toInt_ofNat_of_lt h.bytes.2
  ciclosLecturas := Int64.toInt_ofNat_of_lt h.ciclos.1
  ciclosEscrituras := Int64.toInt_ofNat_of_lt h.ciclos.2.1

/-- The code counts what the model counts below `2 ^ 31` reads and `2 ^ 31` writes. -/
theorem contar_valen (g : Geometria) {trazas : List Traza}
    (hlee : contarLecturas trazas < 2 ^ 31) (hescribe : contarEscrituras trazas < 2 ^ 31) :
    (contar g.crear g.crear.metricas.contadores trazas).Valen
      (simularCacheSimple g.crear trazas).metricas := by
  rw [contar_eq g.crear_bloque_lt]
  exact (caben_crear g hlee hescribe).valen

end Orga.CacheSim
