import Orga.Lib.Scanf

/-! Decimal numbers as `scanf` reads back what a printer writes, the words of `%s`, and how much
of the input is left. -/
namespace Orga.Scanf

/-- What `%u` prints. -/
def decimal (n : ℕ) : List Char := Nat.toDigits 10 n

theorem decimal_ne_nil (n : ℕ) : decimal n ≠ [] := Nat.toDigits_ne_nil

theorem isDigit_of_mem_decimal {n : ℕ} {c : Char} (hc : c ∈ decimal n) : c.isDigit = true :=
  Nat.isDigit_of_mem_toDigits (by decide) (by decide) hc

theorem digitVal_of_isDigit {c : Char} (hc : c.isDigit = true) :
    digitVal c = some (c.toNat - 48) := by
  have hrange : '0' ≤ c ∧ c ≤ '9' := by
    simpa [Char.isDigit, Char.le_def] using hc
  rw [digitVal, if_pos hrange]

theorem isDigit_ten {c : Char} (hc : c.isDigit = true) : isDigit 10 c = true := by
  have hle : c.toNat ≤ 57 := by
    have hrange : '0' ≤ c ∧ c ≤ '9' := by
      simpa [Char.isDigit, Char.le_def] using hc
    exact hrange.2
  rw [isDigit, digitVal_of_isDigit hc, Option.any_some, decide_eq_true_eq]
  omega

theorem numeral_of_digits {s : List Char} (hne : s ≠ []) (hs : ∀ c ∈ s, c.isDigit = true) :
    Numeral 10 s := by
  cases s with
  | nil => exact absurd rfl hne
  | cons d ds =>
    obtain ⟨hd, hds⟩ := List.forall_mem_cons.mp hs
    have htail : ∀ c ∈ ds, isDigit 10 c = true := fun c hc => isDigit_ten (hds c hc)
    by_cases hzero : d = '0'
    · subst hzero
      exact .unsigned (.zero htail)
    · exact .unsigned (.plain hzero (isDigit_ten hd) htail)

theorem isDigit_of_numeral {d : Char} {ds : List Char} (h : Numeral 10 (d :: ds)) :
    ∀ c ∈ ds, isDigit 10 c = true := by
  have hmag : ∀ {d : Char} {ds : List Char}, Magnitude 10 (d :: ds) →
      (d = '0' ∨ isDigit 10 d = true) ∧ ∀ c ∈ ds, isDigit 10 c = true := by
    intro d ds h
    cases h with
    | plain _ hd hds => exact ⟨Or.inr hd, hds⟩
    | zero hds => exact ⟨Or.inl rfl, hds⟩
    | hex hbase => exact absurd hbase (by decide)
  cases h with
  | unsigned h => exact (hmag h).2
  | signed _ h =>
    cases ds with
    | nil => exact fun _ hc => nomatch hc
    | cons e es =>
      obtain ⟨he, hes⟩ := hmag h
      refine List.forall_mem_cons.mpr ⟨?_, hes⟩
      rcases he with rfl | he
      · decide
      · exact he

theorem numeralValue_of_digits {s : List Char} (hs : ∀ c ∈ s, c.isDigit = true) :
    numeralValue 10 s = Nat.ofDigitChars 10 s 0 := by
  have hfold : ∀ (ds : List Char) (n : ℕ), (∀ c ∈ ds, c.isDigit = true) →
      ds.foldl (fun n c => 10 * n + (digitVal c).getD 0) n = Nat.ofDigitChars 10 ds n := by
    intro ds n hds
    rw [Nat.ofDigitChars_eq_foldl]
    refine List.foldl_ext _ _ _ fun a c hc => ?_
    rw [digitVal_of_isDigit (hds c hc)]
    rfl
  cases s with
  | nil => rfl
  | cons d ds =>
    obtain ⟨hd, hds⟩ := List.forall_mem_cons.mp hs
    have hsign : isSign d = false := by
      by_contra hsign
      have hdigit := isDigit_of_isSign 10 (Bool.of_not_eq_false hsign)
      rw [isDigit_ten hd] at hdigit
      cases hdigit
    have hminus : d ≠ '-' := by
      rintro rfl
      cases hsign
    have hmark : ds.head?.any isHexMark = false := by
      cases ds with
      | nil => rfl
      | cons e es =>
        by_contra hmark
        have hdigit := isDigit_of_isHexMark 10 (Bool.of_not_eq_false hmark)
        rw [isDigit_ten (hds e List.mem_cons_self)] at hdigit
        cases hdigit
    have hhead : (some d).any isSign = false := hsign
    simp only [numeralValue, List.head?_cons, hhead, Bool.false_eq_true, if_false,
      Option.some.injEq, hminus, List.tail_cons, hmark]
    split_ifs with hzero
    · subst hzero
      rw [Nat.ofDigitChars_cons]
      exact congrArg Nat.cast (hfold ds 0 hds)
    · exact congrArg Nat.cast (hfold (d :: ds) 0 hs)

theorem numeralValue_decimal (n : ℕ) : numeralValue 10 (decimal n) = n := by
  rw [numeralValue_of_digits fun _ hc => isDigit_of_mem_decimal hc]
  exact congrArg Nat.cast Nat.ofDigitChars_ten_toDigits

theorem skipSpace_append {blank s : List Char} (hblank : ∀ c ∈ blank, isSpace c = true)
    (hs : ∀ c r, s = c :: r → isSpace c = false) : skipSpace (blank ++ s) = s := by
  induction blank with
  | nil =>
    cases s with
    | nil => rfl
    | cons c r =>
      rw [List.nil_append, skipSpace, List.dropWhile_cons, hs c r rfl]
      rfl
  | cons b blank ih =>
    obtain ⟨hb, hblank⟩ := List.forall_mem_cons.mp hblank
    rw [List.cons_append, skipSpace, List.dropWhile_cons, hb]
    exact ih hblank

theorem isSpace_of_isDigit {c : Char} (hc : c.isDigit = true) : isSpace c = false := by
  have hrange : '0' ≤ c ∧ c ≤ '9' := by
    simpa [Char.isDigit, Char.le_def] using hc
  have hlow : 48 ≤ c.toNat := hrange.1
  have hne : c ≠ ' ' := by
    rintro rfl
    exact absurd hlow (by decide)
  have hgt : ¬ c ≤ '\r' := fun hle => by
    have hup : c.toNat ≤ 13 := hle
    omega
  simp [isSpace, hne, hgt]

/-- A printed number is read back, if no digit follows it. -/
theorem readsNumeral_decimal (n : ℕ) {blank rest : List Char}
    (hblank : ∀ c ∈ blank, isSpace c = true)
    (hrest : ∀ c r, rest = c :: r → isDigit 10 c = false) :
    ReadsNumeral 10 (blank ++ (decimal n ++ rest)) (decimal n) rest := by
  obtain ⟨d, ds, hds⟩ := List.exists_cons_of_ne_nil (decimal_ne_nil n)
  have hnum : Numeral 10 (decimal n) :=
    numeral_of_digits (decimal_ne_nil n) fun _ hc => isDigit_of_mem_decimal hc
  have hskip : skipSpace (blank ++ (decimal n ++ rest)) = decimal n ++ rest := by
    refine skipSpace_append hblank fun c r heq => ?_
    rw [hds, List.cons_append] at heq
    obtain ⟨rfl, -⟩ := List.cons.inj heq
    exact isSpace_of_isDigit (isDigit_of_mem_decimal (hds ▸ List.mem_cons_self))
  refine ⟨hnum, hskip, ⟨[], by rwa [List.append_nil]⟩, fun c r heq hbegins => ?_⟩
  obtain ⟨q, hq⟩ := hbegins
  rw [hds, List.cons_append, List.cons_append] at hq
  have hdigit := isDigit_of_numeral hq c (by simp)
  rw [hrest c r heq] at hdigit
  cases hdigit

/-- `%s`: a word and the input after it, or nothing at the end of the input. -/
def readWord (s : List Char) : Option (List Char × List Char) :=
  match skipSpace s with
  | [] => none
  | c :: r => some ((c :: r).takeWhile (!isSpace ·), (c :: r).dropWhile (!isSpace ·))

theorem readWord_append {blank word rest : List Char} (hblank : ∀ c ∈ blank, isSpace c = true)
    (hne : word ≠ []) (hword : ∀ c ∈ word, isSpace c = false)
    (hrest : ∀ c r, rest = c :: r → isSpace c = true) :
    readWord (blank ++ (word ++ rest)) = some (word, rest) := by
  obtain ⟨c, cs, rfl⟩ := List.exists_cons_of_ne_nil hne
  have hskip : skipSpace (blank ++ (c :: cs ++ rest)) = c :: (cs ++ rest) :=
    skipSpace_append hblank fun d r heq => by
      obtain ⟨rfl, -⟩ := List.cons.inj heq
      exact hword c List.mem_cons_self
  have hall : ∀ d ∈ c :: cs, (!isSpace d) = true := fun d hd => by rw [hword d hd]; rfl
  have hstop : rest.takeWhile (fun d => !isSpace d) = [] ∧
      rest.dropWhile (fun d => !isSpace d) = rest := by
    cases rest with
    | nil => exact ⟨rfl, rfl⟩
    | cons d r =>
      have hd : (!isSpace d) = false := by rw [hrest d r rfl]; rfl
      simp [hd]
  rw [readWord, hskip]
  dsimp only
  rw [← List.cons_append, List.takeWhile_append_of_pos hall,
    List.dropWhile_append_of_pos hall, hstop.1, hstop.2, List.append_nil]

theorem readWord_blank {blank : List Char} (hblank : ∀ c ∈ blank, isSpace c = true) :
    readWord blank = none := by
  have hskip : skipSpace (blank ++ []) = [] := skipSpace_append hblank fun _ _ h => nomatch h
  rw [List.append_nil] at hskip
  rw [readWord, hskip]

theorem length_skipSpace_le (s : List Char) : (skipSpace s).length ≤ s.length :=
  (List.dropWhile_suffix _).length_le

theorem length_readWord_lt {s word rest : List Char} (h : readWord s = some (word, rest)) :
    rest.length < s.length := by
  have hskip := length_skipSpace_le s
  unfold readWord at h
  split at h
  · cases h
  · next c r heq =>
    obtain ⟨-, rfl⟩ := Prod.mk.inj (Option.some.inj h)
    have hc : isSpace c = false := by
      have hhead := List.head?_dropWhile_not isSpace s
      rwa [show s.dropWhile isSpace = c :: r from heq] at hhead
    rw [heq] at hskip
    have htail : ((c :: r).dropWhile (!isSpace ·)).length ≤ r.length := by
      rw [List.dropWhile_cons, hc]
      exact (List.dropWhile_suffix _).length_le
    rw [List.length_cons] at hskip
    omega

section Rest
variable {σ : Type*}

theorem length_exec_le (d : Directive σ) (state : σ) (s : List Char) :
    (d.exec state s).rest.length ≤ s.length := by
  have hskip := length_skipSpace_le s
  cases d with
  | space => exact hskip
  | literal c =>
    cases s with
    | nil => exact le_rfl
    | cons a r =>
      simp only [Directive.exec]
      split_ifs
      · exact Nat.le_succ _
      · exact le_rfl
  | char store =>
    cases s with
    | nil => exact le_rfl
    | cons a r => exact Nat.le_succ _
  | number base store =>
    have hitem := congrArg List.length (read_number base (skipSpace s)).split
    rw [List.length_append] at hitem
    simp only [Directive.exec]
    split_ifs
    · exact Nat.zero_le _
    · dsimp only
      omega
    · dsimp only
      omega

theorem length_scan_le (ds : List (Directive σ)) (state : σ) (s : List Char) :
    (scan state s ds).rest.length ≤ s.length := by
  induction ds generalizing state s with
  | nil => exact le_rfl
  | cons d ds ih =>
    have hfirst := length_exec_le d state s
    simp only [scan]
    split_ifs
    · exact hfirst
    · exact (ih _ _).trans hfirst

/-- The store of a conversion keeps a property of the state. -/
def Directive.Keeps (P : σ → Prop) : Directive σ → Prop
  | .space | .literal _ => True
  | .char store => ∀ c state, P state → P (store c state)
  | .number _ store => ∀ item state, P state → P (store item state)

theorem exec_keeps {P : σ → Prop} {d : Directive σ} (hd : d.Keeps P) {state : σ} (h : P state)
    (s : List Char) : P (d.exec state s).state := by
  cases d with
  | space => exact h
  | literal c =>
    cases s with
    | nil => exact h
    | cons a r =>
      simp only [Directive.exec]
      split_ifs <;> exact h
  | char store =>
    cases s with
    | nil => exact h
    | cons a r => exact hd a state h
  | number base store =>
    simp only [Directive.exec]
    split_ifs
    · exact h
    · exact hd _ state h
    · exact h

theorem scan_keeps {P : σ → Prop} {ds : List (Directive σ)} (hds : ∀ d ∈ ds, d.Keeps P)
    {state : σ} (h : P state) (s : List Char) : P (scan state s ds).state := by
  induction ds generalizing state s with
  | nil => exact h
  | cons d ds ih =>
    obtain ⟨hd, hds⟩ := List.forall_mem_cons.mp hds
    have hfirst := exec_keeps hd h s
    simp only [scan]
    split_ifs
    · exact hfirst
    · exact ih hds hfirst _

end Rest

end Orga.Scanf
