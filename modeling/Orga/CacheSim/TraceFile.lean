import Mathlib.Logic.Relation
import Orga.CacheSim.Accesses
import Orga.Lib.Scanf

/-! The loop over the trace file. A file is the list of its characters. The loop goes on until
`fscanf` returns `EOF`, whatever number of conversions it reports before. -/
namespace Orga.CacheSim
open Orga.Scanf

/-- `traza_t`. -/
structure TrazaLeida extends Traza where
  instructionPointer : UInt32
  datosLeidos : UInt32
  cantDeBytes : Int32
  deriving DecidableEq, Repr

/-- `%x`. The C standard leaves a value out of range undefined: here it wraps. -/
def valorX (item : List Char) : UInt32 := UInt32.ofInt (numeralValue 16 item)

def valorI (item : List Char) : Int32 := Int32.ofInt (numeralValue 0 item)

/-- `"%x: %c %x %i %x\n"`, with the fields that the arguments point to. -/
def formatoLecturaTraza : List (Directive TrazaLeida) :=
  [.number 16 fun item t => { t with instructionPointer := valorX item }, .literal ':', .space,
    .char fun c t => { t with instruccion := c }, .space,
    .number 16 fun item t => { t with direccionAccedida := valorX item }, .space,
    .number 0 fun item t => { t with cantDeBytes := valorI item }, .space,
    .number 16 fun item t => { t with datosLeidos := valorX item }, .space]

/-- The variables of the loop: `estado` is what its body changes. -/
structure Lectura (σ : Type*) where
  leidos : ℤ
  traza : TrazaLeida
  archivo : List Char
  estado : σ

section Lectura
variable {σ : Type*} (cuerpo : σ → Traza → σ)

def leer (estado : σ) (traza : TrazaLeida) (archivo : List Char) : Lectura σ :=
  let r := scan traza archivo formatoLecturaTraza
  ⟨r.result, r.state, r.rest, estado⟩

def iteracion (l : Lectura σ) : Option (Lectura σ) :=
  if l.leidos ≠ eof then some (leer (cuerpo l.estado l.traza.toTraza) l.traza l.archivo) else none

def Alcanza : Lectura σ → Lectura σ → Prop :=
  Relation.ReflTransGen fun l l' => iteracion cuerpo l = some l'

def Termina (l : Lectura σ) : Prop := ∃ fin, Alcanza cuerpo l fin ∧ iteracion cuerpo fin = none

/-- The loop stops, and `fscanf` had converted all five fields before each run of its body. -/
def LecturaCompleta (l : Lectura σ) : Prop :=
  Termina cuerpo l ∧ ∀ l', Alcanza cuerpo l l' → (iteracion cuerpo l').isSome → l'.leidos = 5

end Lectura

def cuerpoSimple (cache : Cache) (traza : Traza) : Cache := simularCacheSimple cache [traza]

/-- The body of `simular_cache_modo_verboso`, on the cache, the mode and the lines printed. -/
def cuerpoVerboso (primera ultima : ℤ) (estado : Cache × ModoVerboso × List Impresion)
    (traza : Traza) : Cache × ModoVerboso × List Impresion :=
  let r := verbosoLoop estado.1 estado.2.1 primera ultima [traza]
  (r.1, { estado.2.1 with operacionActual := estado.2.1.operacionActual + 1 }, estado.2.2 ++ r.2)

/-- A complete record at the front of the file, and what follows it and its white space. -/
inductive Registro : List Char → Traza → List Char → Prop
  | mk {s ip r₁ r₂ direccion r₃ bytes r₄ datos r₅ : List Char} {instruccion : Char} :
      ReadsNumeral 16 s ip (':' :: r₁) → skipSpace r₁ = instruccion :: r₂ →
      ReadsNumeral 16 r₂ direccion r₃ → ReadsNumeral 0 r₃ bytes r₄ → ReadsNumeral 16 r₄ datos r₅ →
      Registro s ⟨valorX direccion, instruccion⟩ (skipSpace r₅)

/-- A file of complete records, with nothing but white space after them. -/
inductive Registros : List Char → List Traza → Prop
  | fin {s : List Char} : skipSpace s = [] → Registros s []
  | registro {s r : List Char} {traza : Traza} {trazas : List Traza} :
      Registro s traza r → Registros r trazas → Registros s (traza :: trazas)

theorem readsNumeral_skipSpace {base : ℕ} {s item rest : List Char} :
    ReadsNumeral base (skipSpace s) item rest ↔ ReadsNumeral base s item rest := by
  constructor
  · rintro ⟨h, hitem⟩
    exact ⟨h, by rwa [skipSpace_skipSpace] at hitem⟩
  · rintro ⟨h, hitem⟩
    exact ⟨h, by rwa [skipSpace_skipSpace]⟩

theorem registro_iff (traza : TrazaLeida) {s r : List Char} {t : Traza} :
    Registro s t r ↔ ∃ t' : TrazaLeida, t'.toTraza = t ∧
      Matches formatoLecturaTraza traza s t' r := by
  simp only [formatoLecturaTraza, Matches, readsNumeral_skipSpace]
  constructor
  · rintro ⟨hip, hins, hdir, hbytes, hdatos⟩
    exact ⟨_, rfl, _, _, hip, _, rfl, _, _, hins, _, _, hdir, _, _, hbytes, _, _, hdatos, rfl, rfl⟩
  · rintro ⟨t', rfl, ip, s₁, hip, r₁, rfl, c, r₂, hins, dir, r₃, hdir, bytes, r₄, hbytes, datos, r₅,
      hdatos, rfl, rfl⟩
    exact ⟨hip, hins, hdir, hbytes, hdatos⟩

theorem conversions_formato : conversions formatoLecturaTraza = 5 := rfl

theorem tight_formato : Tight formatoLecturaTraza := by
  simp [formatoLecturaTraza, Tight, conversions]

section Lectura
variable {σ : Type*} (cuerpo : σ → Traza → σ) (estado : σ) (traza : TrazaLeida) (s : List Char)

theorem leidos_eof : (leer estado traza s).leidos = eof ↔ skipSpace s = [] :=
  scan_number_eof 16 _

theorem leer_registro {t : Traza} {r : List Char} (h : Registro s t r) :
    (leer estado traza s).leidos = 5 ∧ (leer estado traza s).traza.toTraza = t ∧
      (leer estado traza s).archivo = r := by
  obtain ⟨t', ht', hmatch⟩ := (registro_iff traza).mp h
  rw [leer, scan_of_matches hmatch]
  exact ⟨rfl, ht', rfl⟩

theorem registro_of_leidos (h : (leer estado traza s).leidos = 5) :
    ∃ t r, Registro s t r ∧ (leer estado traza s).archivo = r := by
  by_cases hmatch : ∃ t' r, Matches formatoLecturaTraza traza s t' r
  · obtain ⟨t', r, hmatch⟩ := hmatch
    have hreg : Registro s t'.toTraza r := (registro_iff traza).mpr ⟨t', rfl, hmatch⟩
    exact ⟨_, r, hreg, (leer_registro estado traza s hreg).2.2⟩
  · have hno : ∀ t' r, ¬ Matches formatoLecturaTraza traza s t' r :=
      fun t' r hm => hmatch ⟨t', r, hm⟩
    have hlt := assigned_lt_of_not_matches tight_formato hno
    rw [conversions_formato] at hlt
    simp only [leer, Scan.result, eof] at h
    split_ifs at h
    omega

variable {cuerpo s}

theorem iteracion_eq_none {l : Lectura σ} : iteracion cuerpo l = none ↔ l.leidos = eof := by
  simp [iteracion]

theorem iteracion_eq_some {l l' : Lectura σ} : iteracion cuerpo l = some l' ↔
    l.leidos ≠ eof ∧ leer (cuerpo l.estado l.traza.toTraza) l.traza l.archivo = l' := by
  simp [iteracion]

variable (cuerpo) in
/-- On a file of complete records the loop does what its body does to the list of the records. -/
theorem alcanza_registros {trazas : List Traza} (h : Registros s trazas) :
    ∃ fin, Alcanza cuerpo (leer estado traza s) fin ∧ iteracion cuerpo fin = none ∧
      fin.estado = trazas.foldl cuerpo estado := by
  induction h generalizing estado traza with
  | fin hs =>
    exact ⟨_, .refl, iteracion_eq_none.mpr ((leidos_eof estado traza _).mpr hs), rfl⟩
  | @registro s r t trazas hreg _ ih =>
    obtain ⟨hcinco, htraza, hresto⟩ := leer_registro estado traza s hreg
    obtain ⟨fin, halcanza, hnone, hestado⟩ := ih (cuerpo estado t) (leer estado traza s).traza
    refine ⟨fin, .head ?_ halcanza, hnone, hestado⟩
    rw [iteracion_eq_some, hcinco, htraza, hresto]
    exact ⟨by decide, rfl⟩

theorem leidos_registros {trazas : List Traza} (h : Registros s trazas) {l : Lectura σ}
    (hl : Alcanza cuerpo (leer estado traza s) l) (hsome : (iteracion cuerpo l).isSome) :
    l.leidos = 5 := by
  induction h generalizing estado traza with
  | fin hs =>
    have hnone : iteracion cuerpo (leer estado traza _) = none :=
      iteracion_eq_none.mpr ((leidos_eof estado traza _).mpr hs)
    rcases hl.cases_head with rfl | ⟨l', hstep, -⟩
    · rw [hnone] at hsome
      exact absurd hsome Bool.false_ne_true
    · rw [hnone] at hstep
      exact absurd hstep (Option.some_ne_none l').symm
  | @registro s r t trazas hreg _ ih =>
    obtain ⟨hcinco, htraza, hresto⟩ := leer_registro estado traza s hreg
    rcases hl.cases_head with rfl | ⟨l', hstep, hrest⟩
    · exact hcinco
    · obtain ⟨-, rfl⟩ := iteracion_eq_some.mp hstep
      rw [hresto] at hrest
      exact ih _ _ hrest

/-- A loop that stops after complete records only has read a file of complete records. -/
theorem registros_of_alcanza {l fin : Lectura σ} (h : Alcanza cuerpo l fin)
    (hfin : iteracion cuerpo fin = none)
    (hcinco : ∀ l', Alcanza cuerpo l l' → (iteracion cuerpo l').isSome → l'.leidos = 5)
    (hl : l = leer estado traza s) : ∃ trazas, Registros s trazas := by
  induction h using Relation.ReflTransGen.head_induction_on generalizing estado traza s with
  | refl =>
    rw [hl, iteracion_eq_none, leidos_eof] at hfin
    exact ⟨[], .fin hfin⟩
  | head hstep _ ih =>
    have hleidos := hcinco _ .refl (by rw [hstep]; rfl)
    rw [hl] at hleidos
    obtain ⟨t, r, hreg, hresto⟩ := registro_of_leidos estado traza s hleidos
    obtain ⟨-, hnext⟩ := iteracion_eq_some.mp hstep
    rw [hl, hresto] at hnext
    obtain ⟨trazas, hregistros⟩ := ih _ _ (fun l' hl' => hcinco l' (.head hstep hl')) hnext.symm
    exact ⟨t :: trazas, .registro hreg hregistros⟩

theorem lecturaCompleta_iff :
    LecturaCompleta cuerpo (leer estado traza s) ↔ ∃ trazas, Registros s trazas := by
  constructor
  · rintro ⟨⟨fin, halcanza, hfin⟩, hcinco⟩
    exact registros_of_alcanza estado traza halcanza hfin hcinco rfl
  · rintro ⟨trazas, h⟩
    obtain ⟨fin, halcanza, hfin, -⟩ := alcanza_registros cuerpo estado traza h
    exact ⟨⟨fin, halcanza, hfin⟩, fun l' hl' => leidos_registros estado traza h hl'⟩

/-- Where no number begins, `fscanf` takes nothing and returns 0: the loop never stops. -/
theorem no_termina {c : Char} {r : List Char} (hc : isSpace c = false)
    (hnum : ¬ Begins (Numeral 16) [c]) : ¬ Termina cuerpo (leer estado traza (c :: r)) := by
  have hleer : ∀ (estado : σ) (traza : TrazaLeida),
      leer estado traza (c :: r) = ⟨0, traza, c :: r, estado⟩ := by
    intro estado traza
    rw [leer, formatoLecturaTraza, scan_number_stuck 16 _ hc hnum]
    rfl
  have hstuck : ∀ l, Alcanza cuerpo (leer estado traza (c :: r)) l →
      l.leidos = 0 ∧ l.archivo = c :: r := by
    intro l hl
    induction hl with
    | refl =>
      rw [hleer]
      exact ⟨rfl, rfl⟩
    | tail _ hstep ih =>
      obtain ⟨-, rfl⟩ := iteracion_eq_some.mp hstep
      rw [ih.2, hleer]
      exact ⟨rfl, rfl⟩
  rintro ⟨fin, halcanza, hfin⟩
  rw [iteracion_eq_none, (hstuck fin halcanza).1] at hfin
  exact absurd hfin (by decide)

end Lectura

theorem foldl_cuerpoSimple (cache : Cache) (trazas : List Traza) :
    trazas.foldl cuerpoSimple cache = simularCacheSimple cache trazas := by
  induction trazas generalizing cache with
  | nil => rfl
  | cons traza trazas ih =>
    rw [List.foldl_cons, ih, simularCacheSimple_cons, cuerpoSimple, simularCacheSimple_cons]
    rfl

theorem foldl_cuerpoVerboso (primera ultima : ℤ) (cache : Cache) (verbos : ModoVerboso)
    (salida : List Impresion) (trazas : List Traza) :
    let fin := trazas.foldl (cuerpoVerboso primera ultima) (cache, verbos, salida)
    let r := verbosoLoop cache verbos primera ultima trazas
    fin.1 = r.1 ∧ fin.2.2 = salida ++ r.2 := by
  induction trazas generalizing cache verbos salida with
  | nil => exact ⟨rfl, (List.append_nil salida).symm⟩
  | cons traza trazas ih =>
    have hone : verbosoLoop cache verbos primera ultima [traza] =
        ((acceder cache (if rangoVerboso verbos.operacionActual primera ultima then
          some verbos else none) traza).cache,
        (acceder cache (if rangoVerboso verbos.operacionActual primera ultima then
          some verbos else none) traza).salida) := by
      rw [verbosoLoop_eq]
      simp [verbosoLoop]
    rw [List.foldl_cons, verbosoLoop_eq, cuerpoVerboso, hone]
    generalize acceder cache (if rangoVerboso verbos.operacionActual primera ultima then
      some verbos else none) traza = acceso
    obtain ⟨hcache, hsalida⟩ := ih acceso.cache
      { verbos with operacionActual := verbos.operacionActual + 1 } (salida ++ acceso.salida)
    exact ⟨hcache, hsalida.trans (List.append_assoc _ _ _)⟩

def lecturaSimple (cache : Cache) (traza : TrazaLeida) (archivo : List Char) : Lectura Cache :=
  leer cache traza archivo

def lecturaVerbosa (cache : Cache) (traza : TrazaLeida) (archivo : List Char) :
    Lectura (Cache × ModoVerboso × List Impresion) :=
  leer (cache, crearModoVerboso (cache.sets 0).lineasPorSet, []) traza archivo

theorem simular_archivo {archivo : List Char} {trazas : List Traza}
    (h : Registros archivo trazas) (cache : Cache) (traza : TrazaLeida) (primera ultima : ℤ) :
    (∃ fin, Alcanza cuerpoSimple (lecturaSimple cache traza archivo) fin ∧
      iteracion cuerpoSimple fin = none ∧ fin.estado = simularCacheSimple cache trazas) ∧
    ∃ fin, Alcanza (cuerpoVerboso primera ultima) (lecturaVerbosa cache traza archivo) fin ∧
      iteracion (cuerpoVerboso primera ultima) fin = none ∧
      (fin.estado.1, fin.estado.2.2) = simularCacheModoVerboso cache primera ultima trazas := by
  constructor
  · obtain ⟨fin, halcanza, hfin, hestado⟩ := alcanza_registros cuerpoSimple cache traza h
    exact ⟨fin, halcanza, hfin, hestado.trans (foldl_cuerpoSimple cache trazas)⟩
  · obtain ⟨fin, halcanza, hfin, hestado⟩ := alcanza_registros (cuerpoVerboso primera ultima)
      (cache, crearModoVerboso (cache.sets 0).lineasPorSet, []) traza h
    obtain ⟨hcache, hsalida⟩ := foldl_cuerpoVerboso primera ultima cache
      (crearModoVerboso (cache.sets 0).lineasPorSet) [] trazas
    exact ⟨fin, halcanza, hfin, by rw [hestado, hcache, hsalida]; rfl⟩

/-- Both functions stop, after complete records only, on the files of complete records and on no
others. -/
theorem lecturas_iff (cache : Cache) (traza : TrazaLeida) (primera ultima : ℤ)
    (archivo : List Char) :
    (LecturaCompleta cuerpoSimple (lecturaSimple cache traza archivo) ↔
      ∃ trazas, Registros archivo trazas) ∧
    (LecturaCompleta (cuerpoVerboso primera ultima) (lecturaVerbosa cache traza archivo) ↔
      ∃ trazas, Registros archivo trazas) :=
  ⟨lecturaCompleta_iff _ _, lecturaCompleta_iff _ _⟩

/-- A file that holds one letter: neither loop stops. -/
theorem not_lecturas_letra :
    ¬ LecturaCompleta cuerpoSimple
        (lecturaSimple (Geometria.crear ⟨1, 0, 3, by decide⟩) ⟨⟨0, 'R'⟩, 0, 0, 0⟩ ['z']) ∧
      ¬ LecturaCompleta (cuerpoVerboso 0 1)
        (lecturaVerbosa (Geometria.crear ⟨1, 0, 3, by decide⟩) ⟨⟨0, 'R'⟩, 0, 0, 0⟩ ['z']) := by
  have hnum : ¬ Begins (Numeral 16) ['z'] := by
    rw [begins_numeral_iff]
    rintro ⟨q, hq⟩
    exact Option.some_ne_none q hq.symm
  exact ⟨fun h => no_termina _ _ rfl hnum h.1, fun h => no_termina _ _ rfl hnum h.1⟩

end Orga.CacheSim
