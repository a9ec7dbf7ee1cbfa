import Orga.CacheSim.Accounting
import Orga.CacheSim.Report
import Orga.Lib.LruHistory

/-! The outcomes of the simulator without its state: what an access finds is decided by the earlier
accesses to the same set. From there, the misses of a whole trace against its distinct blocks. -/
namespace Orga.CacheSim
open Orga.Lru

/-- The accesses to a set: each with its tag and whether it writes. -/
def Geometria.usosDe (g : Geometria) (s : ℕ) (trazas : List Traza) : List (Int32 × Bool) :=
  (trazas.filter fun t => g.setDe t.direccionAccedida = s).map fun t =>
    (g.tagDe t.direccionAccedida, decide (t.instruccion ≠ lectura))

theorem simularCacheSimple_concat (cache : Cache) (trazas : List Traza) (traza : Traza) :
    simularCacheSimple cache (trazas ++ [traza]) =
      (acceder (simularCacheSimple cache trazas) none traza).cache := by
  rw [simularCacheSimple_append, simularCacheSimple_cons]
  rfl

section Historia
variable (g : Geometria) (previas : List Traza) (traza : Traza)

theorem usosDe_concat (s : ℕ) : g.usosDe s (previas ++ [traza]) =
    if g.setDe traza.direccionAccedida = s then
      g.usosDe s previas ++
        [(g.tagDe traza.direccionAccedida, decide (traza.instruccion ≠ lectura))]
    else g.usosDe s previas := by
  unfold Geometria.usosDe
  rw [List.filter_append, List.map_append]
  split_ifs with h <;> simp [h]

theorem simula_historia : Simula g (simularCacheSimple g.crear previas)
    fun s => run g.ways (g.usosDe s previas) := by
  induction previas using List.reverseRecOn with
  | nil => exact simula_crear g
  | append_singleton previas traza ih =>
    obtain ⟨-, -, hnext⟩ := ih.step traza rfl rfl
    rw [simularCacheSimple_concat]
    convert hnext using 1
    funext s
    rw [usosDe_concat]
    by_cases hs : g.setDe traza.direccionAccedida = s
    · subst hs
      rw [if_pos rfl, run_concat, Function.update_self]
    · rw [if_neg hs, Function.update_of_ne (Ne.symm hs)]

theorem desenlace_simple : desenlace (simularCacheSimple g.crear previas) traza =
    outcome g.ways (g.tagDe traza.direccionAccedida)
      (run g.ways (g.usosDe (g.setDe traza.direccionAccedida) previas)) :=
  ((simula_historia g previas).step traza rfl rfl).1

theorem desenlace_hit : desenlace (simularCacheSimple g.crear previas) traza = .hit ↔
    Resident g.ways (g.tagDe traza.direccionAccedida)
      (g.usosDe (g.setDe traza.direccionAccedida) previas) := by
  rw [desenlace_simple]
  exact outcome_run_hit

/-- The outcome of an access, from the history of its set: a hit when fewer than `ways` other tags
were used since the last use; a free line while fewer than `ways` tags were used at all; and a
write-back when the line that goes was written and has been there ever since. -/
theorem desenlace_historia :
    let usos := g.usosDe (g.setDe traza.direccionAccedida) previas
    let tag := g.tagDe traza.direccionAccedida
    let o := desenlace (simularCacheSimple g.crear previas) traza
    (o = .hit ↔ Resident g.ways tag usos) ∧
      (o = .fill ↔ ¬ Resident g.ways tag usos ∧ (usos.map Prod.fst).toFinset.card < g.ways) ∧
      (o = .dirty ↔ ¬ Resident g.ways tag usos ∧
        ∃ v, Modified g.ways v usos ∧ ¬ Resident (g.ways - 1) v usos) := by
  dsimp only
  rw [desenlace_simple]
  exact ⟨outcome_run_hit, outcome_run_fill, outcome_run_dirty g.ways_pos⟩

end Historia

/-- The misses that `mostrar_metricas` adds up. -/
def Metricas.totalMisses (m : Metricas) : ℕ := m.missesRead + m.missesWrite

def Metricas.totalDirty (m : Metricas) : ℕ := m.dirtyReadMiss + m.dirtyWriteMiss

/-- The set and the tag of an access: its block. -/
def Geometria.lugar (g : Geometria) (traza : Traza) : ℕ × Int32 :=
  (g.setDe traza.direccionAccedida, g.tagDe traza.direccionAccedida)

def Geometria.bloques (g : Geometria) (trazas : List Traza) : Finset (ℕ × Int32) :=
  (trazas.map g.lugar).toFinset

def Geometria.etiquetas (g : Geometria) (s : ℕ) (trazas : List Traza) : Finset Int32 :=
  ((g.usosDe s trazas).map Prod.fst).toFinset

section Misses
variable (g : Geometria) (previas : List Traza) (traza : Traza)

theorem totales_tras (cache : Cache) (s : ℕ) (set : Conjunto) (o : Outcome) :
    (cache.tras traza s set o).metricas.totalMisses = cache.metricas.totalMisses + fallo o ∧
      (cache.tras traza s set o).metricas.totalDirty = cache.metricas.totalDirty + sucio o := by
  simp only [Cache.tras, actualizarMetricas_eq, Metricas.totalMisses, Metricas.totalDirty]
  split_ifs <;> constructor <;> omega

theorem totales_concat :
    let antes := simularCacheSimple g.crear previas
    let m := (simularCacheSimple g.crear (previas ++ [traza])).metricas
    m.totalMisses = antes.metricas.totalMisses + fallo (desenlace antes traza) ∧
      m.totalDirty = antes.metricas.totalDirty + sucio (desenlace antes traza) := by
  obtain ⟨hdes, ⟨set', hcache⟩, -⟩ := (simula_historia g previas).step traza rfl rfl
  dsimp only
  rw [simularCacheSimple_concat, hcache, ← hdes]
  exact totales_tras traza _ _ _ _

theorem mem_etiquetas {s : ℕ} {tag : Int32} :
    tag ∈ g.etiquetas s previas ↔ (s, tag) ∈ g.bloques previas := by
  simp only [Geometria.etiquetas, Geometria.bloques, Geometria.usosDe, Geometria.lugar,
    List.mem_toFinset, List.map_map, List.mem_map, List.mem_filter, decide_eq_true_eq,
    Function.comp, Prod.mk.injEq, and_assoc]

theorem bloques_concat : g.bloques (previas ++ [traza]) =
    insert (g.lugar traza) (g.bloques previas) := by
  ext b
  simp only [Geometria.bloques, List.map_append, List.map_singleton, List.mem_toFinset,
    List.mem_append, List.mem_singleton, Finset.mem_insert]
  exact or_comm

theorem fallo_nuevo (hnuevo : g.lugar traza ∉ g.bloques previas) :
    fallo (desenlace (simularCacheSimple g.crear previas) traza) = 1 := by
  refine if_neg fun hhit => hnuevo ?_
  have hres := (desenlace_hit g previas traza).mp hhit
  exact (mem_etiquetas g previas).mp (List.mem_toFinset.mpr hres.mem)

theorem bloques_le_misses :
    (g.bloques previas).card ≤ (simularCacheSimple g.crear previas).metricas.totalMisses := by
  induction previas using List.reverseRecOn with
  | nil => exact Nat.zero_le _
  | append_singleton previas traza ih =>
    have hstep := (totales_concat g previas traza).1
    rw [bloques_concat]
    by_cases hvisto : g.lugar traza ∈ g.bloques previas
    · rw [Finset.insert_eq_of_mem hvisto]
      omega
    · have hfallo := fallo_nuevo g previas traza hvisto
      rw [Finset.card_insert_of_notMem hvisto]
      omega

/-- Every access to a block that was accessed before finds it. -/
def Geometria.SinRecargas (g : Geometria) (trazas : List Traza) : Prop :=
  ∀ previas traza siguientes, trazas = previas ++ traza :: siguientes →
    g.lugar traza ∈ g.bloques previas →
      Resident g.ways (g.tagDe traza.direccionAccedida)
        (g.usosDe (g.setDe traza.direccionAccedida) previas)

theorem sinRecargas_concat : g.SinRecargas (previas ++ [traza]) ↔
    g.SinRecargas previas ∧ (g.lugar traza ∈ g.bloques previas →
      Resident g.ways (g.tagDe traza.direccionAccedida)
        (g.usosDe (g.setDe traza.direccionAccedida) previas)) := by
  constructor
  · intro h
    refine ⟨fun pre t post heq => h pre t (post ++ [traza]) (by simp [heq]), ?_⟩
    exact h previas traza [] rfl
  · rintro ⟨hantes, hultima⟩ pre t post heq
    rcases List.eq_nil_or_concat' post with rfl | ⟨post, u, rfl⟩
    · obtain ⟨rfl, ht⟩ := List.append_inj' heq rfl
      rwa [← List.singleton_inj.mp ht]
    · rw [← List.cons_append, ← List.append_assoc] at heq
      exact hantes pre t post (List.append_inj' heq rfl).1

theorem misses_eq_iff :
    (simularCacheSimple g.crear previas).metricas.totalMisses = (g.bloques previas).card ↔
      g.SinRecargas previas := by
  induction previas using List.reverseRecOn with
  | nil => exact ⟨fun _ pre t post h => absurd h (by simp), fun _ => rfl⟩
  | append_singleton previas traza ih =>
    have hstep := (totales_concat g previas traza).1
    have hle := bloques_le_misses g previas
    rw [sinRecargas_concat, ← ih, bloques_concat]
    by_cases hvisto : g.lugar traza ∈ g.bloques previas
    · rw [Finset.insert_eq_of_mem hvisto, ← desenlace_hit]
      simp only [hvisto, true_implies]
      by_cases h : desenlace (simularCacheSimple g.crear previas) traza = .hit
      · rw [h, show fallo .hit = 0 from rfl] at hstep
        simp only [h, and_true]
        omega
      · rw [show fallo _ = 1 from if_neg h] at hstep
        simp only [h, and_false, iff_false]
        omega
    · have hfallo := fallo_nuevo g previas traza hvisto
      rw [Finset.card_insert_of_notMem hvisto]
      simp only [hvisto, false_implies, and_true]
      omega

/-- Every block of the trace is missed at least once; and only once, for all of them, exactly when
no access comes back to a block after `ways` others of its set. -/
theorem misses_frios_iff :
    (g.bloques previas).card ≤ (simularCacheSimple g.crear previas).metricas.totalMisses ∧
      ((simularCacheSimple g.crear previas).metricas.totalMisses = (g.bloques previas).card ↔
        g.SinRecargas previas) :=
  ⟨bloques_le_misses g previas, misses_eq_iff g previas⟩

end Misses

section ConjuntoDeTrabajo
variable {g : Geometria} {trazas : List Traza}

theorem etiquetas_mono (g : Geometria) (s : ℕ) (previas siguientes : List Traza) :
    g.etiquetas s previas ⊆ g.etiquetas s (previas ++ siguientes) := by
  intro tag htag
  rw [mem_etiquetas] at htag ⊢
  unfold Geometria.bloques at htag ⊢
  rw [List.map_append, List.toFinset_append]
  exact Finset.mem_union_left _ htag

theorem desenlace_cabe {previas : List Traza} {traza : Traza}
    (hcabe : ∀ s, (g.etiquetas s (previas ++ [traza])).card ≤ g.ways) :
    desenlace (simularCacheSimple g.crear previas) traza ≠ .dirty := by
  intro hdirty
  rw [desenlace_simple] at hdirty
  obtain ⟨hno, v, hmod, hv⟩ := (outcome_run_dirty g.ways_pos).mp hdirty
  have hsub := etiquetas_mono g (g.setDe traza.direccionAccedida) previas [traza]
  have hle := hcabe (g.setDe traza.direccionAccedida)
  have hnueva : g.tagDe traza.direccionAccedida ∉
      g.etiquetas (g.setDe traza.direccionAccedida) previas := fun h =>
    hno (resident_of_card (List.mem_toFinset.mp h) ((Finset.card_le_card hsub).trans hle))
  have hentra : g.tagDe traza.direccionAccedida ∈
      g.etiquetas (g.setDe traza.direccionAccedida) (previas ++ [traza]) := by
    rw [mem_etiquetas, bloques_concat]
    exact Finset.mem_insert_self _ _
  have hlt := Finset.card_lt_card (Finset.ssubset_iff_of_subset hsub |>.mpr ⟨_, hentra, hnueva⟩)
  exact hv (resident_of_card hmod.resident.mem (by
    show (g.etiquetas (g.setDe traza.direccionAccedida) previas).card ≤ _
    omega))

/-- When the blocks of each set fit in its lines, the simulator fetches each block once and
writes nothing back. -/
theorem conjuntoDeTrabajo (hcabe : ∀ s, (g.etiquetas s trazas).card ≤ g.ways) :
    let m := (simularCacheSimple g.crear trazas).metricas
    m.totalMisses = (g.bloques trazas).card ∧ m.bytesRead = g.bloque * (g.bloques trazas).card ∧
      m.totalDirty = 0 ∧ m.bytesWritten = 0 := by
  have hmisses : (simularCacheSimple g.crear trazas).metricas.totalMisses =
      (g.bloques trazas).card := by
    refine (misses_eq_iff g trazas).mpr ?_
    rintro previas traza siguientes rfl hvisto
    have hsub := etiquetas_mono g (g.setDe traza.direccionAccedida) previas (traza :: siguientes)
    exact resident_of_card (List.mem_toFinset.mp ((mem_etiquetas g previas).mpr hvisto))
      ((Finset.card_le_card hsub).trans (hcabe _))
  have hdirty : (simularCacheSimple g.crear trazas).metricas.totalDirty = 0 := by
    clear hmisses
    induction trazas using List.reverseRecOn with
    | nil => rfl
    | append_singleton previas traza ih =>
      have hantes := ih fun s => (Finset.card_le_card (etiquetas_mono g s _ _)).trans (hcabe s)
      rw [(totales_concat g previas traza).2, hantes, sucio, if_neg (desenlace_cabe hcabe)]
  obtain ⟨hcuentas, hbloque⟩ := (cuentas_crear g).run (simula_crear g) trazas
  have hread := hcuentas.bytesRead
  have hwritten := hcuentas.bytesWritten
  rw [hbloque] at hread hwritten
  refine ⟨hmisses, ?_, hdirty, ?_⟩
  · rw [hread, ← hmisses]
    rfl
  · rw [hwritten]
    exact mul_eq_zero_of_right _ hdirty

/-- Four lines for each set are enough for three accesses. -/
theorem conjuntoDeTrabajo_sample :
    let g : Geometria := ⟨1, 2, 3, by decide⟩
    let trazas : List Traza := [⟨0, 'R'⟩, ⟨16, 'W'⟩, ⟨0, 'R'⟩]
    (simularCacheSimple g.crear trazas).metricas.totalMisses = (g.bloques trazas).card :=
  (conjuntoDeTrabajo fun s => (List.toFinset_card_le _).trans (by
    rw [List.length_map, Geometria.usosDe, List.length_map]
    exact (List.length_filter_le _ _).trans (by decide))).1

end ConjuntoDeTrabajo

end Orga.CacheSim
