import Orga.CacheSim.Simulator
import Orga.Lib.BitFields

/-! The geometries that `main` accepts, and the set and the tag of an address in them. -/
namespace Orga.CacheSim
open Orga.BitFields

theorem potenciaLoop_pow {k fuel i : ℕ} {potencia : ℤ} (hi : potencia < 2 ^ k → i ≤ k)
    (hle : potencia ≤ 2 ^ k) (hfuel : potencia < 2 ^ k → k < fuel + i) :
    potenciaLoop (2 ^ k) fuel potencia i = 2 ^ k := by
  induction fuel generalizing i potencia with
  | zero =>
    unfold potenciaLoop
    by_contra hne
    have hlt := lt_of_le_of_ne hle hne
    have := hi hlt
    have := hfuel hlt
    omega
  | succ fuel ih =>
    unfold potenciaLoop
    split_ifs with hlt
    · have hik := hi hlt
      refine ih (fun hpow => ?_) (pow_le_pow_right₀ (by omega) hik) fun _ => ?_
      · exact (pow_lt_pow_iff_right₀ (by omega)).mp hpow
      · have := hfuel hlt
        omega
    · exact le_antisymm hle (not_lt.mp hlt)

theorem potenciaLoop_result (numero : ℤ) (fuel : ℕ) {potencia : ℤ} (i : ℕ)
    (hp : potencia = 0 ∨ ∃ k : ℕ, potencia = 2 ^ k) :
    potenciaLoop numero fuel potencia i = 0 ∨
      ∃ k : ℕ, potenciaLoop numero fuel potencia i = 2 ^ k := by
  induction fuel generalizing i potencia with
  | zero => exact hp
  | succ fuel ih =>
    unfold potenciaLoop
    split_ifs
    · exact ih (i + 1) (Or.inr ⟨i, rfl⟩)
    · exact hp

/-- `0` passes the test too. -/
theorem esPotenciaDeDos_iff (numero : ℤ) :
    esPotenciaDeDos numero = true ↔ numero = 0 ∨ ∃ k : ℕ, numero = 2 ^ k := by
  rw [esPotenciaDeDos, beq_iff_eq]
  constructor
  · intro h
    have hres := potenciaLoop_result numero (numero.toNat + 1) 0 (Or.inl rfl)
    rwa [h] at hres
  · rintro (rfl | ⟨k, rfl⟩)
    · rfl
    · have hlt : (k : ℤ) < 2 ^ k := by exact_mod_cast Nat.lt_two_pow_self
      have hpos : (0 : ℤ) < 2 ^ k := pow_pos (by omega) k
      refine potenciaLoop_pow (fun _ => Nat.zero_le k) hpos.le fun _ => ?_
      omega

/-- The geometry of a cache: `2 ^ bitsSet` sets of `2 ^ bitsLineas` lines of `2 ^ bitsOffset`
bytes, at most `2 ^ 30` bytes in all. -/
structure Geometria where
  bitsSet : ℕ
  bitsLineas : ℕ
  bitsOffset : ℕ
  cabe : bitsSet + bitsOffset + bitsLineas ≤ 30

namespace Geometria
variable (g : Geometria)

def sets : ℕ := 2 ^ g.bitsSet
def ways : ℕ := 2 ^ g.bitsLineas
def bloque : ℕ := 2 ^ g.bitsOffset
def tamanio : ℕ := 2 ^ (g.bitsSet + g.bitsOffset + g.bitsLineas)

/-- The cache that `main` creates. -/
def crear : Cache := crearCache g.tamanio g.ways g.sets

theorem ways_pos : 0 < g.ways := Nat.two_pow_pos _

def setDe (direccion : UInt32) : ℕ := direccion.toNat / g.bloque % g.sets

def tagDe (direccion : UInt32) : Int32 :=
  (UInt32.ofNat (direccion.toNat / 2 ^ (g.bitsSet + g.bitsOffset))).toInt32

theorem setDe_lt (direccion : UInt32) : g.setDe direccion < g.sets :=
  Nat.mod_lt _ (Nat.two_pow_pos _)

end Geometria

theorem Geometria.ways_mul_sets (g : Geometria) :
    g.ways * g.sets = 2 ^ (g.bitsLineas + g.bitsSet) := by
  rw [Geometria.ways, Geometria.sets, ← pow_add]

theorem Geometria.bloque_eq (g : Geometria) : g.tamanio / (g.ways * g.sets) = g.bloque := by
  rw [g.ways_mul_sets, Geometria.tamanio, Geometria.bloque, Nat.pow_div (by omega) (by omega)]
  congr 1
  omega

theorem comoInt_of_lt {n : ℕ} (h : n < 2 ^ 31) : comoInt n = n := by
  rw [comoInt, Int.bmod_eq_of_le (by omega) (by omega)]

theorem productoInt_pow {i j : ℕ} (h : i + j ≤ 30) :
    productoInt (2 ^ i) (2 ^ j) = 2 ^ (i + j) := by
  have hlt : 2 ^ (i + j) < 2 ^ 31 := Nat.pow_lt_pow_right (by omega) (by omega)
  rw [productoInt, ← pow_add]
  exact_mod_cast comoInt_of_lt hlt

theorem productoInt_pow_sign {i j : ℕ} (h : i + j = 31) :
    productoInt (2 ^ i) (2 ^ j) = -2 ^ 31 := by
  rw [productoInt, ← pow_add, h]
  rfl

theorem productoInt_pow_zero {i j : ℕ} (h : 32 ≤ i + j) : productoInt (2 ^ i) (2 ^ j) = 0 := by
  rw [productoInt, ← pow_add, comoInt]
  exact Int.bmod_eq_zero_of_dvd (pow_dvd_pow 2 h)

theorem dividir_of_ne {b : ℤ} (a : ℤ) (hb : b ≠ 0) : dividir a b = some (a.tdiv b) := if_neg hb

/-- The products of the check wrap as one product does. -/
theorem combinacionCorrecta_of {asoc sets divisor : ℤ} (tamanio : ℤ)
    (hprod : productoInt asoc sets = divisor) (hne : divisor ≠ 0) :
    combinacionCorrecta tamanio asoc sets =
      some (tamanio == comoInt (tamanio.tdiv divisor * (asoc * sets))) := by
  rw [combinacionCorrecta, hprod, dividir_of_ne tamanio hne, Option.bind_eq_bind,
    Option.bind_some, productoInt, productoInt, comoInt, comoInt, Int.bmod_mul_bmod, mul_assoc]
  rfl

theorem combinacionCorrecta_zero {asoc sets : ℤ} (tamanio : ℤ) (hprod : productoInt asoc sets = 0) :
    combinacionCorrecta tamanio asoc sets = none := by
  rw [combinacionCorrecta, hprod]
  rfl

theorem combinacionCorrecta_pow {t : ℕ} (i j : ℕ) (ht : t < 2 ^ 31) :
    combinacionCorrecta t (2 ^ i) (2 ^ j) =
      if i + j ≤ 31 then some (decide (2 ^ (i + j) ∣ t)) else none := by
  obtain h | h | h : i + j ≤ 30 ∨ i + j = 31 ∨ 32 ≤ i + j := by omega
  · have hne : (2 : ℤ) ^ (i + j) ≠ 0 := pow_ne_zero _ (by omega)
    have hlt : t / 2 ^ (i + j) * 2 ^ (i + j) < 2 ^ 31 :=
      lt_of_le_of_lt (Nat.div_mul_le_self _ _) ht
    have hcheq : comoInt ((t : ℤ).tdiv (2 ^ (i + j)) * (2 ^ i * 2 ^ j)) =
        ((t / 2 ^ (i + j) * 2 ^ (i + j) : ℕ) : ℤ) := by
      rw [← comoInt_of_lt hlt, ← pow_add]
      push_cast
      rw [Int.tdiv_eq_ediv_of_nonneg (by omega)]
    rw [combinacionCorrecta_of t (productoInt_pow h) hne, hcheq, if_pos (by omega),
      Option.some_inj, Bool.eq_iff_iff, beq_iff_eq, decide_eq_true_iff, Nat.dvd_iff_div_mul_eq]
    omega
  · have hdiv : (t : ℤ).tdiv (-2 ^ 31) = 0 := by
      rw [Int.tdiv_neg, Int.tdiv_eq_zero_of_lt (by omega) (by omega), neg_zero]
    have hdvd : 2 ^ 31 ∣ t ↔ t = 0 := by
      constructor
      · exact fun hd => Nat.eq_zero_of_dvd_of_lt hd ht
      · rintro rfl
        exact dvd_zero _
    rw [combinacionCorrecta_of t (productoInt_pow_sign h) (by omega), hdiv, zero_mul,
      if_pos (by omega), Option.some_inj, Bool.eq_iff_iff, beq_iff_eq, decide_eq_true_iff, h, hdvd]
    exact Int.natCast_eq_zero
  · rw [combinacionCorrecta_zero t (productoInt_pow_zero h), if_neg (by omega)]

theorem productoInt_of_zero {asoc sets : ℤ} (h : asoc = 0 ∨ sets = 0) :
    productoInt asoc sets = 0 := by
  rw [productoInt, mul_eq_zero.mpr h]
  rfl

theorem sonPotenciasDeDos_iff (tamanio asoc sets : ℤ) :
    sonPotenciasDeDos tamanio asoc sets = true ↔
      (comoInt tamanio = 0 ∨ ∃ k : ℕ, comoInt tamanio = 2 ^ k) ∧
        (asoc = 0 ∨ ∃ i : ℕ, asoc = 2 ^ i) ∧ (sets = 0 ∨ ∃ j : ℕ, sets = 2 ^ j) := by
  rw [sonPotenciasDeDos, Bool.and_eq_true, Bool.and_eq_true, esPotenciaDeDos_iff,
    esPotenciaDeDos_iff, esPotenciaDeDos_iff, and_assoc]

theorem comoInt_potencia {tamanio : ℤ} (h : comoInt tamanio = 0 ∨ ∃ k : ℕ, comoInt tamanio = 2 ^ k) :
    ∃ t : ℕ, comoInt tamanio = t ∧ t < 2 ^ 31 ∧ (t = 0 ∨ ∃ k : ℕ, t = 2 ^ k) := by
  have hlt : comoInt tamanio < 2 ^ 31 := Int.bmod_lt (by omega)
  obtain h0 | ⟨k, hk⟩ := h
  · exact ⟨0, h0, by omega, Or.inl rfl⟩
  · refine ⟨2 ^ k, by exact_mod_cast hk, ?_, Or.inr ⟨k, rfl⟩⟩
    rw [hk] at hlt
    exact_mod_cast hlt

/-- What `main` accepts: powers of two whose product divides the size read as an `int`. -/
theorem mainAcepta_iff_dvd {tamanio asoc sets : ℤ} :
    mainAcepta tamanio asoc sets = true ↔
      0 < tamanio ∧ ∃ t i j : ℕ, comoInt tamanio = t ∧ (t = 0 ∨ ∃ k : ℕ, t = 2 ^ k) ∧
        asoc = 2 ^ i ∧ sets = 2 ^ j ∧ i + j ≤ 31 ∧ 2 ^ (i + j) ∣ t := by
  rw [mainAcepta, Bool.and_eq_true, Bool.not_eq_true', Bool.or_eq_false_iff,
    decide_eq_false_iff_not, not_le, Bool.not_eq_false', sonPotenciasDeDos_iff, beq_iff_eq]
  constructor
  · rintro ⟨⟨hpos, htam, hasoc, hsets⟩, hcomb⟩
    obtain ⟨t, ht, hlt, hpot⟩ := comoInt_potencia htam
    have hne : ¬ (asoc = 0 ∨ sets = 0) := fun h0 => by
      rw [combinacionCorrecta_zero _ (productoInt_of_zero h0)] at hcomb
      cases hcomb
    obtain ⟨hasoc0, hsets0⟩ := not_or.mp hne
    obtain ⟨i, rfl⟩ := hasoc.resolve_left hasoc0
    obtain ⟨j, rfl⟩ := hsets.resolve_left hsets0
    rw [ht, combinacionCorrecta_pow i j hlt] at hcomb
    split_ifs at hcomb with hij
    exact ⟨hpos, t, i, j, ht, hpot, rfl, rfl, hij, of_decide_eq_true (Option.some_inj.mp hcomb)⟩
  · rintro ⟨hpos, t, i, j, ht, hpot, rfl, rfl, hij, hdvd⟩
    have hlt : comoInt tamanio < 2 ^ 31 := Int.bmod_lt (by omega)
    rw [ht] at hlt ⊢
    rw [combinacionCorrecta_pow i j (by omega), if_pos hij, decide_eq_true hdvd]
    exact ⟨⟨hpos, by exact_mod_cast hpot, Or.inr ⟨i, rfl⟩, Or.inr ⟨j, rfl⟩⟩, rfl⟩

/-- The sizes below `2 ^ 31` that `main` accepts are those of the geometries. -/
theorem mainAcepta_iff {tamanio asoc sets : ℕ} (htam : tamanio < 2 ^ 31) :
    mainAcepta tamanio asoc sets = true ↔
      ∃ g : Geometria, g.tamanio = tamanio ∧ g.ways = asoc ∧ g.sets = sets := by
  rw [mainAcepta_iff_dvd]
  constructor
  · rintro ⟨hpos, t, i, j, ht, hpot, ha, hs, -, hdvd⟩
    rw [comoInt_of_lt htam, Int.natCast_inj] at ht
    subst t
    obtain ⟨k, rfl⟩ := hpot.resolve_left (by omega)
    have hk : k < 31 := (Nat.pow_lt_pow_iff_right (by omega)).mp htam
    rw [Nat.pow_dvd_pow_iff_le_right (by omega)] at hdvd
    refine ⟨⟨j, i, k - (i + j), by omega⟩, ?_, by exact_mod_cast ha.symm, by exact_mod_cast hs.symm⟩
    show 2 ^ (j + (k - (i + j)) + i) = 2 ^ k
    congr 1
    omega
  · rintro ⟨g, rfl, rfl, rfl⟩
    have hcabe := g.cabe
    have hpos : 0 < g.tamanio := Nat.two_pow_pos _
    refine ⟨by omega, g.tamanio, g.bitsLineas, g.bitsSet, comoInt_of_lt htam, Or.inr ⟨_, rfl⟩,
      by norm_cast, by norm_cast, by omega, pow_dvd_pow 2 (by omega)⟩

/-- A cache of the geometry, whatever it holds. -/
structure Cache.Forma (cache : Cache) (g : Geometria) : Prop where
  sets : cache.cantidadSets = g.sets
  bloque : cache.tamanioBloque = g.bloque

theorem forma_crear (g : Geometria) : g.crear.Forma g where
  sets := rfl
  bloque := g.bloque_eq

set_option maxRecDepth 20000 in
theorem mascaraSet_eq : ∀ j < 31, ∀ b < 31, j + b ≤ 30 →
    mascaraSet j b = UInt32.ofNat (2 ^ j - 1) := by
  decide +kernel

private theorem toNat_ofNat32 {n : ℕ} (h : n < 2 ^ 32) : (UInt32.ofNat n).toNat = n := by
  rw [UInt32.toNat_ofNat']
  exact Nat.mod_eq_of_lt h

/-- The masks take the address apart. -/
theorem calcularSetYTag_eq {cache : Cache} {g : Geometria} (hf : cache.Forma g)
    (direccion : UInt32) :
    calcularSetYTag cache direccion cache.tamanioBloque =
      (g.setDe direccion, g.tagDe direccion) := by
  have hcabe := g.cabe
  have hpow : 2 ^ g.bitsSet ≤ 2 ^ 30 := Nat.pow_le_pow_right (by omega) (by omega)
  have hset : (direccion >>> UInt32.ofNat g.bitsOffset &&&
      UInt32.ofNat (2 ^ g.bitsSet - 1)).toNat = g.setDe direccion := by
    rw [toNat_mask g.bitsSet (toNat_ofNat32 (by omega)),
      toNat_shiftRight g.bitsOffset (toNat_ofNat32 (by omega)) (by omega)]
    rfl
  have htag : direccion >>> UInt32.ofNat (g.bitsSet + g.bitsOffset) =
      UInt32.ofNat (direccion.toNat / 2 ^ (g.bitsSet + g.bitsOffset)) := by
    apply UInt32.toNat_inj.mp
    have hlt := direccion.toNat_lt
    have hle := Nat.div_le_self direccion.toNat (2 ^ (g.bitsSet + g.bitsOffset))
    rw [toNat_shiftRight (g.bitsSet + g.bitsOffset) (toNat_ofNat32 (by omega)) (by omega),
      toNat_ofNat32 (by omega)]
  rw [calcularSetYTag, hf.sets, hf.bloque, Geometria.sets, Geometria.bloque, Nat.log2_two_pow,
    Nat.log2_two_pow, mascaraSet_eq _ (by omega) _ (by omega) (by omega), hset, htag]
  rfl

end Orga.CacheSim
