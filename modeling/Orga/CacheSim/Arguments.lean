import Orga.CacheSim.Geometry

/-! The numeric arguments of `main`: the geometries that pass its checks, and what it divides by.
The checks read the size as an `int`, `crear_cache` divides the whole `long`. -/
namespace Orga.CacheSim

/-- What the rest of the simulator needs of a size, an associativity, a number of sets and the
block size computed from them. -/
structure BienFormada (tamanio asoc sets bloque : ℤ) : Prop where
  potenciaTamanio : ∃ k : ℕ, tamanio = 2 ^ k
  potenciaAsoc : ∃ i : ℕ, asoc = 2 ^ i
  potenciaSets : ∃ j : ℕ, sets = 2 ^ j
  potenciaBloque : ∃ b : ℕ, bloque = 2 ^ b
  producto : bloque * asoc * sets = tamanio
  bits : sets.toNat.log2 + bloque.toNat.log2 ≤ 31

theorem tamanioBloqueDe_of {asoc sets divisor : ℤ} (tamanio : ℤ)
    (hprod : productoInt asoc sets = divisor) (hne : divisor ≠ 0) :
    tamanioBloqueDe tamanio asoc sets = some (comoInt (tamanio.tdiv divisor)) := by
  rw [tamanioBloqueDe, hprod, dividir_of_ne tamanio hne]
  rfl

theorem tamanioBloqueDe_lt {tamanio asoc sets bloque : ℤ}
    (h : tamanioBloqueDe tamanio asoc sets = some bloque) : bloque < 2 ^ 31 := by
  obtain ⟨cociente, -, hbloque⟩ := Option.bind_eq_some_iff.mp h
  rw [← Option.some_inj.mp hbloque]
  exact Int.bmod_lt (by omega)

theorem log2_toNat_pow (k : ℕ) : ((2 : ℤ) ^ k).toNat.log2 = k := by
  rw [show ((2 : ℤ) ^ k).toNat = 2 ^ k by exact_mod_cast Int.toNat_natCast (2 ^ k),
    Nat.log2_two_pow]

theorem int_pow_lt_pow_iff {k n : ℕ} : (2 : ℤ) ^ k < 2 ^ n ↔ k < n :=
  pow_lt_pow_iff_right₀ (by omega)

theorem int_pow_le_pow_iff {k n : ℕ} : (2 : ℤ) ^ k ≤ 2 ^ n ↔ k ≤ n :=
  pow_le_pow_iff_right₀ (by omega)

theorem tamanioBloqueDe_pow {k i j : ℕ} (hij : i + j ≤ 30) (hle : i + j ≤ k)
    (hk : k ≤ 30 + (i + j)) :
    tamanioBloqueDe (2 ^ k) (2 ^ i) (2 ^ j) = some (2 ^ (k - (i + j))) := by
  have hne : (2 : ℤ) ^ (i + j) ≠ 0 := pow_ne_zero _ (by omega)
  have hdiv : ((2 : ℤ) ^ k).tdiv (2 ^ (i + j)) = 2 ^ (k - (i + j)) := by
    rw [← Nat.sub_add_cancel hle, pow_add, Int.mul_tdiv_cancel _ hne, Nat.add_sub_cancel]
  have hlt : 2 ^ (k - (i + j)) < 2 ^ 31 := Nat.pow_lt_pow_right (by omega) (by omega)
  rw [tamanioBloqueDe_of _ (productoInt_pow hij) hne, hdiv, Option.some_inj]
  exact_mod_cast comoInt_of_lt hlt

/-- With `2 ^ 31` lines the divisor is negative, and so is every power of two divided by it. -/
theorem tamanioBloqueDe_pow_sign {k i j b : ℕ} (hij : i + j = 31) (hk : k = b + 31) (hb : b ≤ 30) :
    tamanioBloqueDe (2 ^ k) (2 ^ i) (2 ^ j) = some (-2 ^ b) := by
  have hlt : (2 : ℤ) ^ b < 2 ^ 31 := int_pow_lt_pow_iff.mpr (by omega)
  have hpos : (0 : ℤ) < 2 ^ b := pow_pos (by omega) b
  rw [tamanioBloqueDe_of _ (productoInt_pow_sign hij) (by omega), hk, pow_add, Int.tdiv_neg,
    Int.mul_tdiv_cancel _ (by omega), Option.some_inj, comoInt,
    Int.bmod_eq_of_le (by omega) (by omega)]

theorem Geometria.tamanioBloqueDe_eq (g : Geometria) :
    tamanioBloqueDe g.tamanio g.ways g.sets = some (g.crear.tamanioBloque : ℤ) := by
  have hcabe := g.cabe
  have hexp : g.bitsSet + g.bitsOffset + g.bitsLineas - (g.bitsLineas + g.bitsSet) =
      g.bitsOffset := by omega
  have hpow := tamanioBloqueDe_pow (k := g.bitsSet + g.bitsOffset + g.bitsLineas)
    (i := g.bitsLineas) (j := g.bitsSet) (by omega) (by omega) (by omega)
  rw [hexp] at hpow
  rw [(forma_crear g).bloque]
  exact_mod_cast hpow

theorem bienFormada_pow {k i j : ℕ} (hij : i + j ≤ 30) (hle : i + j ≤ k)
    (hk : k ≤ 30 + (i + j)) (hbits : k ≤ 31 + i) :
    ∃ bloque, tamanioBloqueDe (2 ^ k) (2 ^ i) (2 ^ j) = some bloque ∧
      BienFormada (2 ^ k) (2 ^ i) (2 ^ j) bloque := by
  refine ⟨_, tamanioBloqueDe_pow hij hle hk, ⟨k, rfl⟩, ⟨i, rfl⟩, ⟨j, rfl⟩, ⟨_, rfl⟩, ?_, ?_⟩
  · rw [← pow_add, ← pow_add]
    congr 1
    omega
  · rw [log2_toNat_pow, log2_toNat_pow]
    omega

theorem le_of_comoInt_pow {k n t : ℕ} (ht : comoInt (2 ^ k) = t) (hdvd : 2 ^ n ∣ t)
    (hk : k ≤ 30) : n ≤ k := by
  have hlt : 2 ^ k < 2 ^ 31 := Nat.pow_lt_pow_right (by omega) (by omega)
  have hpow : comoInt (2 ^ k) = ((2 ^ k : ℕ) : ℤ) := by exact_mod_cast comoInt_of_lt hlt
  rw [hpow, Int.natCast_inj] at ht
  subst t
  exact (Nat.pow_dvd_pow_iff_le_right (by omega)).mp hdvd

/-- An accepted geometry is well formed exactly when its size is an `int`, or it is a power of
two with at most `2 ^ 30` lines, blocks of at most `2 ^ 30` bytes and at most `2 ^ 31` bytes for
each line of a set. -/
theorem mainAcepta_bienFormada {tamanio asoc sets : ℤ}
    (hacepta : mainAcepta tamanio asoc sets = true) :
    (∃ bloque, tamanioBloqueDe tamanio asoc sets = some bloque ∧
      BienFormada tamanio asoc sets bloque) ↔
      tamanio < 2 ^ 31 ∨ (∃ k : ℕ, tamanio = 2 ^ k) ∧ asoc * sets ≤ 2 ^ 30 ∧
        tamanio ≤ 2 ^ 30 * (asoc * sets) ∧ tamanio ≤ 2 ^ 31 * asoc := by
  obtain ⟨hpos, t, i, j, ht, hpot, rfl, rfl, hij, hdvd⟩ := mainAcepta_iff_dvd.mp hacepta
  constructor
  · rintro ⟨bloque, hbloque, ⟨k, rfl⟩, -, -, ⟨b, rfl⟩, hprod, hbits⟩
    have hk : b + i + j = k := by
      rw [← pow_add, ← pow_add] at hprod
      exact pow_right_injective₀ (by omega) (by omega) hprod
    have hb : b ≤ 30 := Nat.le_of_lt_succ (int_pow_lt_pow_iff.mp (tamanioBloqueDe_lt hbloque))
    rw [log2_toNat_pow, log2_toNat_pow] at hbits
    have hij : i + j ≤ 30 := by
      by_contra hgt
      rw [tamanioBloqueDe_pow_sign (b := b) (by omega) (by omega) hb, Option.some_inj] at hbloque
      have : (0 : ℤ) < 2 ^ b := pow_pos (by omega) b
      omega
    rw [← pow_add, ← pow_add, ← pow_add, int_pow_le_pow_iff, int_pow_le_pow_iff,
      int_pow_le_pow_iff]
    exact Or.inr ⟨⟨k, rfl⟩, hij, by omega, by omega⟩
  · rintro (hlt | ⟨⟨k, rfl⟩, hlineas, hbloque, hvia⟩)
    · obtain ⟨n, rfl⟩ := Int.eq_ofNat_of_zero_le hpos.le
      have hn : n < 2 ^ 31 := by omega
      have heq : n = t := by
        rw [comoInt_of_lt hn] at ht
        omega
      obtain ⟨k, rfl⟩ : ∃ k : ℕ, n = 2 ^ k := heq ▸ hpot.resolve_left (by omega)
      have hk : k < 31 := (Nat.pow_lt_pow_iff_right (by omega)).mp hn
      have hle := le_of_comoInt_pow (by exact_mod_cast ht) hdvd (Nat.le_of_lt_succ hk)
      exact_mod_cast bienFormada_pow (by omega) hle (by omega) (by omega)
    · rw [← pow_add, int_pow_le_pow_iff] at hlineas
      rw [← pow_add, ← pow_add, int_pow_le_pow_iff] at hbloque
      rw [← pow_add, int_pow_le_pow_iff] at hvia
      have hle : i + j ≤ k := by
        by_cases hk : k ≤ 30
        · exact le_of_comoInt_pow ht hdvd hk
        · omega
      exact bienFormada_pow hlineas hle hbloque hvia

/-- The cast takes `2 ^ 32` to `0`, which passes both checks; the block size is `0` as well. -/
theorem mainAcepta_bloqueCero :
    mainAcepta (2 ^ 32) 1 1 = true ∧
      ¬ ∃ bloque, tamanioBloqueDe (2 ^ 32) 1 1 = some bloque ∧
        BienFormada (2 ^ 32) 1 1 bloque := by
  refine ⟨by decide, ?_⟩
  rintro ⟨bloque, hbloque, hforma⟩
  have hcero : tamanioBloqueDe (2 ^ 32) 1 1 = some 0 := by decide
  rw [hcero, Option.some_inj] at hbloque
  subst bloque
  have := hforma.producto
  omega

/-- A page of `4096` bytes in eight sets of two lines. -/
theorem mainAcepta_bienFormada_pagina :
    mainAcepta 4096 2 8 = true ∧
      ∃ bloque, tamanioBloqueDe 4096 2 8 = some bloque ∧ BienFormada 4096 2 8 bloque :=
  have hacepta : mainAcepta 4096 2 8 = true := by decide
  ⟨hacepta, (mainAcepta_bienFormada hacepta).mpr (Or.inl (by omega))⟩

theorem mainInicio_eq_some_some {tamanio asoc sets bloque : ℤ} :
    mainInicio tamanio asoc sets = some (some bloque) ↔
      mainAcepta tamanio asoc sets = true ∧ tamanioBloqueDe tamanio asoc sets = some bloque := by
  rw [mainInicio, mainAcepta]
  cases hcheck : tamanio ≤ 0 || !sonPotenciasDeDos tamanio asoc sets with
  | true => simp
  | false =>
    obtain hcomb | ⟨correcta, hcomb⟩ :=
      Option.eq_none_or_eq_some (combinacionCorrecta (comoInt tamanio) asoc sets)
    · simp [hcomb]
    · cases correcta <;> simp [hcomb, Option.bind_eq_some_iff]

/-- The division by zero is the one of the check: `crear_cache` divides by the same product. -/
theorem mainInicio_ne_none {tamanio asoc sets : ℤ} (htam : 0 < tamanio) :
    mainInicio tamanio asoc sets ≠ none ↔
      (sonPotenciasDeDos tamanio asoc sets = true → productoInt asoc sets ≠ 0) := by
  have hle : ¬ tamanio ≤ 0 := by omega
  rw [mainInicio]
  cases hpot : sonPotenciasDeDos tamanio asoc sets with
  | false => simp [hle]
  | true =>
    by_cases hprod : productoInt asoc sets = 0
    · simp [hle, combinacionCorrecta_zero _ hprod, hprod]
    · rw [combinacionCorrecta_of _ rfl hprod, tamanioBloqueDe_of _ rfl hprod]
      simp only [Option.bind_eq_bind, Option.bind_some, Option.pure_def]
      split_ifs <;> simp_all

theorem productoInt_pow_eq_zero {i j : ℕ} : productoInt (2 ^ i) (2 ^ j) = 0 ↔ 32 ≤ i + j := by
  have hpos : (0 : ℤ) < 2 ^ (i + j) := pow_pos (by omega) _
  obtain h | h | h : i + j ≤ 30 ∨ i + j = 31 ∨ 32 ≤ i + j := by omega
  · rw [productoInt_pow h]
    omega
  · rw [productoInt_pow_sign h]
    omega
  · rw [productoInt_pow_zero h]
    omega

theorem productoInt_ne_zero {asoc sets : ℤ} (hasoc : asoc = 0 ∨ ∃ i : ℕ, asoc = 2 ^ i)
    (hsets : sets = 0 ∨ ∃ j : ℕ, sets = 2 ^ j) :
    productoInt asoc sets ≠ 0 ↔ asoc ≠ 0 ∧ sets ≠ 0 ∧ asoc * sets < 2 ^ 32 := by
  constructor
  · intro hprod
    obtain ⟨hasoc0, hsets0⟩ := not_or.mp fun h0 => hprod (productoInt_of_zero h0)
    obtain ⟨i, rfl⟩ := hasoc.resolve_left hasoc0
    obtain ⟨j, rfl⟩ := hsets.resolve_left hsets0
    rw [← pow_add, int_pow_lt_pow_iff]
    exact ⟨hasoc0, hsets0, not_le.mp (mt productoInt_pow_eq_zero.mpr hprod)⟩
  · rintro ⟨hasoc0, hsets0, hlt⟩
    obtain ⟨i, rfl⟩ := hasoc.resolve_left hasoc0
    obtain ⟨j, rfl⟩ := hsets.resolve_left hsets0
    rw [← pow_add, int_pow_lt_pow_iff] at hlt
    exact mt productoInt_pow_eq_zero.mp (by omega)

/-- No division of `main` is by zero exactly when one of the three numbers is neither `0` nor a
power of two, or the two factors are not zero and their product is below `2 ^ 32`. -/
theorem mainInicio_divide {tamanio asoc sets : ℤ} (htam : 0 < tamanio) :
    mainInicio tamanio asoc sets ≠ none ↔
      ¬ ((comoInt tamanio = 0 ∨ ∃ k : ℕ, comoInt tamanio = 2 ^ k) ∧
          (asoc = 0 ∨ ∃ i : ℕ, asoc = 2 ^ i) ∧ (sets = 0 ∨ ∃ j : ℕ, sets = 2 ^ j)) ∨
        asoc ≠ 0 ∧ sets ≠ 0 ∧ asoc * sets < 2 ^ 32 := by
  rw [mainInicio_ne_none htam, ← sonPotenciasDeDos_iff]
  cases hpot : sonPotenciasDeDos tamanio asoc sets with
  | false => simp
  | true =>
    obtain ⟨-, hasoc, hsets⟩ := (sonPotenciasDeDos_iff tamanio asoc sets).mp hpot
    rw [productoInt_ne_zero hasoc hsets]
    simp

/-- `0` passes the test for powers of two, and so does a product that wraps to `0`. -/
theorem mainInicio_divisorCero :
    mainInicio 64 0 1 = none ∧ mainInicio 64 (2 ^ 16) (2 ^ 16) = none := by
  decide

theorem mainInicio_divide_pagina : (0 : ℤ) < 4096 ∧ mainInicio 4096 2 8 ≠ none :=
  ⟨by omega, (mainInicio_divide (by omega)).mpr (Or.inr (by omega))⟩

end Orga.CacheSim
