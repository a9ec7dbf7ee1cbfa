import Orga.CacheSim.Simulator
import Orga.Lib.Lru

/-! One set of the simulator as a list of lines from the most to the least recently used. The
stamps `ultimo_ciclo_usado` order the lines, and each stamp given lies between the clock before
the access and the clock after it. -/
namespace Orga.CacheSim
open Orga.Lru

/-- The lines in use, most recent first: they fill the array from the left, and the free lines
after them are clean. -/
structure Ordenado (set : Conjunto) (ways ciclos : ℕ) (orden : List Linea) : Prop where
  reparto : ∃ usadas libres, set.lineas = usadas ++ libres ∧ usadas.Perm orden ∧
    ∀ x ∈ libres, x.valido = false ∧ x.dirtyBit = false
  ocupadas : set.lineasOcupadas = orden.length
  ways : set.lineas.length = ways
  validas : ∀ x ∈ orden, x.valido = true
  tags : (orden.map Linea.tag).Nodup
  recientes : orden.Pairwise fun x y => y.ultimoCicloUsado < x.ultimoCicloUsado
  reloj : ∀ x ∈ orden, x.ultimoCicloUsado ≤ ciclos

def entradas (orden : List Linea) : List (Int32 × Bool) := orden.map fun x => (x.tag, x.dirtyBit)

theorem keys_entradas (orden : List Linea) :
    (entradas orden).map Prod.fst = orden.map Linea.tag := by
  simp [entradas]

theorem length_entradas (orden : List Linea) : (entradas orden).length = orden.length :=
  List.length_map _

theorem ordenado_crearSet (ways : ℕ) : Ordenado (crearSet ways) ways 0 [] where
  reparto := by
    refine ⟨[], (crearSet ways).lineas, rfl, .refl _, fun x hx => ?_⟩
    obtain ⟨i, -, rfl⟩ := List.mem_map.mp hx
    exact ⟨rfl, rfl⟩
  ocupadas := rfl
  ways := by simp [crearSet]
  validas := by simp
  tags := by simp
  recientes := by simp
  reloj := by simp

theorem Ordenado.mono {set : Conjunto} {ways ciclos ciclos' : ℕ} {orden : List Linea}
    (h : Ordenado set ways ciclos orden) (hle : ciclos ≤ ciclos') :
    Ordenado set ways ciclos' orden :=
  { h with reloj := fun x hx => Nat.le_trans (h.reloj x hx) hle }

theorem actualizarPrimera_append {tag : Int32} {cambio : Linea → Linea} {pre post : List Linea}
    {x : Linea} (hpre : ∀ y ∈ pre, y.tag ≠ tag) (hx : x.tag = tag) :
    actualizarPrimera tag cambio (pre ++ x :: post) = pre ++ cambio x :: post := by
  induction pre with
  | nil => simp [actualizarPrimera, hx]
  | cons y pre ih =>
    rw [List.cons_append, actualizarPrimera, if_neg (hpre y (by simp)),
      ih fun z hz => hpre z (by simp [hz])]
    rfl

theorem findIdx?_append_cons {p : Linea → Bool} {pre post : List Linea} {x : Linea}
    (hpre : ∀ y ∈ pre, p y = false) (hx : p x = true) :
    (pre ++ x :: post).findIdx? p = some pre.length := by
  induction pre with
  | nil =>
    rw [List.nil_append, List.findIdx?_cons, hx]
    rfl
  | cons y pre ih =>
    rw [List.cons_append, List.findIdx?_cons, hpre y (by simp),
      ih fun z hz => hpre z (by simp [hz])]
    simp

theorem modify_append_cons {f : Linea → Linea} {pre post : List Linea} {x : Linea} :
    (pre ++ x :: post).modify pre.length f = pre ++ f x :: post := by
  induction pre with
  | nil => rfl
  | cons y pre ih => simp [ih]

theorem desalojarLoop_spec (lineas : List Linea) (pos usado i : ℕ) :
    (desalojarLoop pos usado i lineas = pos ∧ ∀ y ∈ lineas, usado ≤ y.ultimoCicloUsado) ∨
    ∃ pre x post, lineas = pre ++ x :: post ∧
      desalojarLoop pos usado i lineas = i + pre.length ∧ x.ultimoCicloUsado < usado ∧
      ∀ y ∈ lineas, x.ultimoCicloUsado ≤ y.ultimoCicloUsado := by
  induction lineas generalizing pos usado i with
  | nil => exact Or.inl ⟨rfl, by simp⟩
  | cons z lineas ih =>
    rw [desalojarLoop]
    by_cases hz : usado > z.ultimoCicloUsado
    · rw [if_pos hz]
      rcases ih i z.ultimoCicloUsado (i + 1) with ⟨heq, hmin⟩ | ⟨pre, x, post, rfl, heq, hlt, hmin⟩
      · exact Or.inr ⟨[], z, lineas, rfl, heq, hz, List.forall_mem_cons.mpr ⟨Nat.le_refl _, hmin⟩⟩
      · refine Or.inr ⟨z :: pre, x, post, rfl, ?_, by omega,
          List.forall_mem_cons.mpr ⟨by omega, hmin⟩⟩
        rw [heq, List.length_cons]
        omega
    · rw [if_neg hz]
      rcases ih pos usado (i + 1) with ⟨heq, hmin⟩ | ⟨pre, x, post, rfl, heq, hlt, hmin⟩
      · exact Or.inl ⟨heq, List.forall_mem_cons.mpr ⟨by omega, hmin⟩⟩
      · refine Or.inr ⟨z :: pre, x, post, rfl, ?_, hlt,
          List.forall_mem_cons.mpr ⟨by omega, hmin⟩⟩
        rw [heq, List.length_cons]
        omega

theorem cargarLinea_spec (linea : Linea) (tag : Int32) (ciclos : ℕ) (instruccion : Char) :
    (cargarLinea linea tag ciclos instruccion).tag = tag ∧
      (cargarLinea linea tag ciclos instruccion).valido = true ∧
      (cargarLinea linea tag ciclos instruccion).dirtyBit = decide (instruccion ≠ lectura) ∧
      ciclos < (cargarLinea linea tag ciclos instruccion).ultimoCicloUsado ∧
      (cargarLinea linea tag ciclos instruccion).ultimoCicloUsado ≤
        ciclos + (missPenalty + 1) + if linea.dirtyBit then missPenalty else 0 := by
  unfold cargarLinea
  have hpenalty : missPenalty = 100 := rfl
  cases hd : linea.dirtyBit <;> by_cases hi : instruccion = lectura <;> simp [hi]
  all_goals omega

section Ordenado
variable {set : Conjunto} {ways ciclos : ℕ} {orden : List Linea} {tag : Int32}
  (h : Ordenado set ways ciclos orden)
include h

theorem Ordenado.length_le : orden.length ≤ ways := by
  obtain ⟨usadas, libres, hlineas, hperm, -⟩ := h.reparto
  have hways := h.ways
  rw [hlineas, List.length_append, hperm.length_eq] at hways
  omega

theorem Ordenado.cons_recientes {ciclos' : ℕ} {x : Linea} {resto : List Linea}
    (hresto : resto.Sublist orden) (hx : ciclos < x.ultimoCicloUsado)
    (hx' : x.ultimoCicloUsado ≤ ciclos') (htag : x.tag ∉ resto.map Linea.tag)
    (hval : x.valido = true) :
    (∀ y ∈ x :: resto, y.valido = true) ∧ ((x :: resto).map Linea.tag).Nodup ∧
      (x :: resto).Pairwise (fun x y => y.ultimoCicloUsado < x.ultimoCicloUsado) ∧
      ∀ y ∈ x :: resto, y.ultimoCicloUsado ≤ ciclos' := by
  have hold : ∀ y ∈ resto, y.ultimoCicloUsado ≤ ciclos := fun y hy => h.reloj y (hresto.subset hy)
  refine ⟨?_, ?_, ?_, ?_⟩
  · exact List.forall_mem_cons.mpr ⟨hval, fun y hy => h.validas y (hresto.subset hy)⟩
  · exact List.nodup_cons.mpr ⟨htag, h.tags.sublist (hresto.map _)⟩
  · refine List.pairwise_cons.mpr ⟨fun y hy => ?_, h.recientes.sublist hresto⟩
    have := hold y hy
    omega
  · refine List.forall_mem_cons.mpr ⟨hx', fun y hy => ?_⟩
    have := hold y hy
    omega

theorem Ordenado.encontrada (htag : tag ∈ orden.map Linea.tag) :
    ∃ pre x post libres a b, set.lineas = pre ++ x :: (post ++ libres) ∧
      (∀ y ∈ libres, y.valido = false ∧ y.dirtyBit = false) ∧ orden = a ++ x :: b ∧
      (pre ++ post).Perm (a ++ b) ∧ x.tag = tag ∧ ∀ y ∈ pre, y.tag ≠ tag := by
  obtain ⟨usadas, libres, hlineas, hperm, hlibres⟩ := h.reparto
  obtain ⟨x, hx, rfl⟩ := List.mem_map.mp htag
  obtain ⟨pre, post, rfl⟩ := List.append_of_mem (hperm.mem_iff.mpr hx)
  obtain ⟨a, b, rfl⟩ := List.append_of_mem hx
  refine ⟨pre, x, post, libres, a, b, by rw [hlineas]; simp, hlibres, rfl, ?_, rfl, ?_⟩
  · have hcons := List.perm_middle.symm.trans (hperm.trans List.perm_middle)
    exact hcons.cons_inv
  · intro y hy heq
    have hnodup : ((pre ++ x :: post).map Linea.tag).Nodup := (hperm.map _).nodup_iff.mpr h.tags
    rw [List.map_append, List.map_cons, List.nodup_append] at hnodup
    exact hnodup.2.2 y.tag (List.mem_map.mpr ⟨y, hy, rfl⟩) x.tag (by simp) heq

theorem Ordenado.no_encontrada (htag : tag ∉ orden.map Linea.tag) : leerSet set tag = none := by
  obtain ⟨usadas, libres, hlineas, hperm, hlibres⟩ := h.reparto
  rw [leerSet, List.findIdx?_eq_none_iff, hlineas]
  intro x hx
  rcases List.mem_append.mp hx with hx | hx
  · have hne : x.tag ≠ tag := by
      rintro rfl
      exact htag (List.mem_map.mpr ⟨x, hperm.mem_iff.mp hx, rfl⟩)
    simp [hne]
  · simp [(hlibres x hx).1]

theorem Ordenado.reescrita {pre post libres a b : List Linea} {x x' : Linea} {ciclos' : ℕ}
    (hlineas : set.lineas = pre ++ x :: (post ++ libres))
    (hlibres : ∀ y ∈ libres, y.valido = false ∧ y.dirtyBit = false) (horden : orden = a ++ x :: b)
    (hperm : (pre ++ post).Perm (a ++ b)) (hx : ciclos < x'.ultimoCicloUsado)
    (hx' : x'.ultimoCicloUsado ≤ ciclos') (htag : x'.tag ∉ (a ++ b).map Linea.tag)
    (hval : x'.valido = true) :
    Ordenado { set with lineas := pre ++ x' :: (post ++ libres) } ways ciclos'
      (x' :: (a ++ b)) := by
  have hsub : (a ++ b).Sublist orden := by
    rw [horden]
    exact (List.sublist_cons_self x b).append_left a
  obtain ⟨hvalidas, htags, hrecientes, hreloj⟩ := h.cons_recientes hsub hx hx' htag hval
  refine ⟨⟨pre ++ x' :: post, libres, by simp, ?_, hlibres⟩, ?_, ?_, hvalidas, htags, hrecientes,
    hreloj⟩
  · exact List.perm_middle.trans (hperm.cons x')
  · rw [h.ocupadas, horden]
    simp [Nat.add_assoc]
  · rw [← h.ways, hlineas]
    simp

theorem Ordenado.usada (htag : tag ∈ orden.map Linea.tag) :
    ∃ i x a b, leerSet set tag = some i ∧ orden = a ++ x :: b ∧ x.tag = tag ∧
      Ordenado (actualizarCiclosLectura set tag ciclos) ways (ciclos + 1)
        ({ x with ultimoCicloUsado := ciclos + 1, valido := true } :: (a ++ b)) ∧
      Ordenado (actualizarCiclosEscritura set tag ciclos) ways (ciclos + 1)
        ({ x with ultimoCicloUsado := ciclos + 1, dirtyBit := true, valido := true } ::
          (a ++ b)) := by
  obtain ⟨pre, x, post, libres, a, b, hlineas, hlibres, horden, hperm, hx, hpre⟩ :=
    h.encontrada htag
  have hnot : tag ∉ (a ++ b).map Linea.tag := by
    have htags := h.tags
    rw [horden, List.map_append, List.map_cons, hx] at htags
    have hmid := List.nodup_middle.mp htags
    rw [List.map_append]
    exact (List.nodup_cons.mp hmid).1
  have hxval : x.valido = true := h.validas x (by rw [horden]; simp)
  refine ⟨pre.length, x, a, b, ?_, horden, hx, ?_, ?_⟩
  · rw [leerSet, hlineas]
    refine findIdx?_append_cons (fun y hy => ?_) (by simp [hxval, hx])
    simp [hpre y hy]
  · have heq : actualizarCiclosLectura set tag ciclos = { set with lineas := pre ++
        { x with ultimoCicloUsado := ciclos + 1, valido := true } :: (post ++ libres) } := by
      rw [actualizarCiclosLectura, hlineas, actualizarPrimera_append hpre hx]
    rw [heq]
    exact h.reescrita hlineas hlibres horden hperm (Nat.lt_succ_self _) (Nat.le_refl _)
      (by rw [hx]; exact hnot) rfl
  · have heq : actualizarCiclosEscritura set tag ciclos = { set with lineas := pre ++
        { x with ultimoCicloUsado := ciclos + 1, dirtyBit := true, valido := true } ::
          (post ++ libres) } := by
      rw [actualizarCiclosEscritura, hlineas, actualizarPrimera_append hpre hx]
    rw [heq]
    exact h.reescrita hlineas hlibres horden hperm (Nat.lt_succ_self _) (Nat.le_refl _)
      (by rw [hx]; exact hnot) rfl

theorem Ordenado.cargada (instruccion : Char) {ciclos' : ℕ} (hlibre : orden.length < ways)
    (htag : tag ∉ orden.map Linea.tag) (hciclos : ciclos + (missPenalty + 1) ≤ ciclos') :
    ∃ i x', lineaNoValida set = some i ∧ x'.tag = tag ∧
      x'.dirtyBit = decide (instruccion ≠ lectura) ∧
      Ordenado { lineas := set.lineas.modify i fun l => cargarLinea l tag ciclos instruccion
                 lineasOcupadas := set.lineasOcupadas + 1 } ways ciclos' (x' :: orden) := by
  obtain ⟨usadas, libres, hlineas, hperm, hlibres⟩ := h.reparto
  have hlen := hperm.length_eq
  have hways := h.ways
  rw [hlineas, List.length_append] at hways
  obtain ⟨y, libres, rfl⟩ : ∃ y resto, libres = y :: resto := by
    cases libres with
    | nil => simp at hways; omega
    | cons y resto => exact ⟨y, resto, rfl⟩
  have hy := hlibres y (by simp)
  obtain ⟨htag', hval, hdirty, hlo, hhi⟩ := cargarLinea_spec y tag ciclos instruccion
  simp only [hy.2, Bool.false_eq_true, if_false, Nat.add_zero] at hhi
  obtain ⟨hvalidas, htags, hrecientes, hreloj⟩ := h.cons_recientes (List.Sublist.refl orden) hlo
    (Nat.le_trans hhi hciclos) (by rw [htag']; exact htag) hval
  refine ⟨usadas.length, cargarLinea y tag ciclos instruccion, ?_, htag', hdirty, ?_⟩
  · rw [lineaNoValida, hlineas]
    refine findIdx?_append_cons (fun x hx => ?_) (by simp [hy.1])
    simp [h.validas x (hperm.mem_iff.mp hx)]
  · rw [hlineas, modify_append_cons]
    refine ⟨⟨usadas ++ [cargarLinea y tag ciclos instruccion], libres, by simp, ?_,
      fun z hz => hlibres z (by simp [hz])⟩, ?_, ?_, hvalidas, htags, hrecientes, hreloj⟩
    · exact (List.perm_append_comm).trans (hperm.cons _)
    · rw [h.ocupadas, List.length_cons]
    · simpa using hways

theorem Ordenado.lineas_llenas (hllena : orden.length = ways) : set.lineas.Perm orden := by
  obtain ⟨usadas, libres, hlineas, hperm, -⟩ := h.reparto
  have hlen := hperm.length_eq
  have hways := h.ways
  rw [hlineas, List.length_append] at hways
  obtain rfl : libres = [] := List.length_eq_zero_iff.mp (by omega)
  rwa [hlineas, List.append_nil]

theorem Ordenado.sin_libres (hllena : orden.length = ways) : lineaNoValida set = none := by
  rw [lineaNoValida, List.findIdx?_eq_none_iff]
  intro x hx
  simp [h.validas x ((h.lineas_llenas hllena).mem_iff.mp hx)]

theorem Ordenado.masAntigua (hllena : orden.length = ways) (hpos : 0 < ways) :
    ∃ pre x post a, set.lineas = pre ++ x :: post ∧ orden = a ++ [x] ∧
      (pre ++ post).Perm a ∧
      desalojarLoop 0 (set.linea 0).ultimoCicloUsado 1 set.lineas.tail = pre.length := by
  have hperm := h.lineas_llenas hllena
  obtain ⟨l0, ls, hls⟩ := List.exists_cons_of_length_pos (h.ways.symm ▸ hpos)
  -- the loop stops at a line with the smallest stamp
  obtain ⟨pre, x, post, hsplit, hloop, hmin⟩ : ∃ pre x post, set.lineas = pre ++ x :: post ∧
      desalojarLoop 0 (set.linea 0).ultimoCicloUsado 1 set.lineas.tail = pre.length ∧
      ∀ y ∈ set.lineas, x.ultimoCicloUsado ≤ y.ultimoCicloUsado := by
    have h0 : (set.linea 0).ultimoCicloUsado = l0.ultimoCicloUsado := by
      rw [Conjunto.linea, hls]
      rfl
    rw [h0, hls, List.tail_cons]
    rcases desalojarLoop_spec ls 0 l0.ultimoCicloUsado 1 with
      ⟨heq, hmin⟩ | ⟨pre, x, post, rfl, heq, hlt, hmin⟩
    · exact ⟨[], l0, ls, rfl, heq, List.forall_mem_cons.mpr ⟨Nat.le_refl _, hmin⟩⟩
    · refine ⟨l0 :: pre, x, post, rfl, ?_, List.forall_mem_cons.mpr ⟨by omega, hmin⟩⟩
      rw [heq, List.length_cons, Nat.add_comm]
  -- the stamps are distinct, so that line is the last of the order
  obtain ⟨a, z, rfl⟩ : ∃ a z, orden = a ++ [z] := by
    rcases List.eq_nil_or_concat' orden with hnil | ⟨a, z, hz⟩
    · rw [hnil, List.length_nil] at hllena
      omega
    · exact ⟨a, z, hz⟩
  have hxz : x = z := by
    have hx : x ∈ a ++ [z] := hperm.mem_iff.mp (by rw [hsplit]; simp)
    have hz : z ∈ set.lineas := hperm.mem_iff.mpr (by simp)
    rcases List.mem_append.mp hx with hx | hx
    · have hlt := (List.pairwise_append.mp h.recientes).2.2 x hx z (by simp)
      have hle := hmin z hz
      omega
    · exact List.mem_singleton.mp hx
  subst hxz
  refine ⟨pre, x, post, a, hsplit, rfl, ?_, hloop⟩
  rw [hsplit] at hperm
  have hcons := (List.perm_middle.symm.trans (hperm.trans List.perm_middle)).cons_inv
  rwa [List.append_nil] at hcons

/-- In a full set the last line of the order is evicted. -/
theorem Ordenado.desalojada (instruccion : Char) (numSet : ℕ) (hllena : orden.length = ways)
    (hpos : 0 < ways) (htag : tag ∉ orden.map Linea.tag) :
    lineaNoValida set = none ∧ ∃ a x x' set', orden = a ++ [x] ∧ x'.tag = tag ∧
      x'.dirtyBit = decide (instruccion ≠ lectura) ∧
      desalojarLinea ciclos set tag instruccion none numSet =
        (if x.dirtyBit then desalojoDirtyBit else desalojoLimpio, set', []) ∧
      Ordenado set' ways (ciclos + (missPenalty + 1) + if x.dirtyBit then missPenalty else 0)
        (x' :: a) := by
  obtain ⟨pre, x, post, a, hsplit, rfl, hperm, hloop⟩ := h.masAntigua hllena hpos
  have hlinea : set.linea pre.length = x := by
    rw [Conjunto.linea, hsplit]
    simp
  obtain ⟨htag', hval, hdirty, hlo, hhi⟩ := cargarLinea_spec x tag ciclos instruccion
  have hnot : tag ∉ (a ++ []).map Linea.tag := by
    intro hmem
    rw [List.append_nil] at hmem
    exact htag (by rw [List.map_append]; exact List.mem_append_left _ hmem)
  have hsplit' : set.lineas = pre ++ x :: (post ++ []) := by rw [hsplit, List.append_nil]
  have hres := h.reescrita hsplit' (by simp) rfl (by rwa [List.append_nil]) hlo hhi
    (by rw [htag']; exact hnot) hval
  rw [List.append_nil, List.append_nil] at hres
  refine ⟨h.sin_libres hllena, a, x, cargarLinea x tag ciclos instruccion,
    { set with lineas := pre ++ cargarLinea x tag ciclos instruccion :: post }, rfl, htag',
    hdirty, ?_, hres⟩
  rw [desalojarLinea, hloop, hlinea]
  cases hd : x.dirtyBit <;>
    simp [Conjunto.anotar, Conjunto.modificar, hsplit, modify_append_cons]

end Ordenado

end Orga.CacheSim
