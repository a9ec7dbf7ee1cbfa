import Mathlib.Data.List.DropRight

/-! Formatted input in the manner of `scanf`. A conversion reads the longest prefix of the input
that begins a string it matches, also where that prefix is no match itself: it is then lost. -/
namespace Orga.Scanf

/-- White space of the C locale. -/
def isSpace (c : Char) : Bool := c == ' ' || ('\t' ≤ c && c ≤ '\r')

def skipSpace (s : List Char) : List Char := s.dropWhile isSpace

theorem skipSpace_skipSpace (s : List Char) : skipSpace (skipSpace s) = skipSpace s :=
  List.dropWhile_idempotent _ _

/-- A string that some string of the language starts with. -/
def Begins (L : List Char → Prop) (p : List Char) : Prop := ∃ q, L (p ++ q)

/-- The input item: the longest prefix of the input that begins a string of the language. -/
structure InputItem (L : List Char → Prop) (s item rest : List Char) : Prop where
  split : s = item ++ rest
  begins : Begins L item
  longest : ∀ c r, rest = c :: r → ¬ Begins L (item ++ [c])

variable {L : List Char → Prop} {s item rest : List Char}

theorem Begins.of_append {p q : List Char} (h : Begins L (p ++ q)) : Begins L p := by
  obtain ⟨r, hr⟩ := h
  exact ⟨q ++ r, by rwa [← List.append_assoc]⟩

theorem InputItem.maximal (h : InputItem L s item rest) {item' rest' : List Char}
    (h' : InputItem L s item' rest') : item'.length ≤ item.length := by
  by_contra hlt
  rcases List.append_eq_append_iff.mp (h.split.symm.trans h'.split) with
    ⟨more, heq, hrest⟩ | ⟨more, heq, -⟩
  · cases more with
    | nil => simp [heq] at hlt
    | cons c more =>
      have hbegins : Begins L ((item ++ [c]) ++ more) := by
        rw [List.append_assoc, List.singleton_append, ← heq]
        exact h'.begins
      exact h.longest c (more ++ rest') hrest hbegins.of_append
  · rw [heq, List.length_append] at hlt
    omega

theorem InputItem.unique (h : InputItem L s item rest) {item' rest' : List Char}
    (h' : InputItem L s item' rest') : item = item' ∧ rest = rest' :=
  List.append_inj (h.split.symm.trans h'.split)
    (Nat.le_antisymm (h'.maximal h) (h.maximal h'))

/-- A deterministic automaton that reads input items. -/
structure Matcher (σ : Type*) where
  start : σ
  step : σ → Char → Option σ
  accept : σ → Bool

namespace Matcher
variable {σ : Type*} (m : Matcher σ)

def run : σ → List Char → Option σ
  | q, [] => some q
  | q, c :: s => (m.step q c).bind fun q' => run q' s

def AcceptsFrom (q : σ) (s : List Char) : Prop := ∃ q', m.run q s = some q' ∧ m.accept q' = true

def Accepts (s : List Char) : Prop := m.AcceptsFrom m.start s

def Live : Prop := ∀ q, ∃ s, m.AcceptsFrom q s

/-- Read as far as the automaton goes: the state reached, the item and the rest. -/
def read : σ → List Char → σ × List Char × List Char
  | q, [] => (q, [], [])
  | q, c :: s =>
    match m.step q c with
    | none => (q, [], c :: s)
    | some q' => ((read q' s).1, c :: (read q' s).2.1, (read q' s).2.2)

variable {m}

theorem run_append (q : σ) (s t : List Char) :
    m.run q (s ++ t) = (m.run q s).bind fun q' => m.run q' t := by
  induction s generalizing q with
  | nil => rfl
  | cons c s ih =>
    rw [List.cons_append, run, run]
    cases m.step q c with
    | none => rfl
    | some q' => exact ih q'

/-- In a live automaton the prefixes of the language are the strings that can be read. -/
theorem begins_iff (hlive : m.Live) (p : List Char) :
    Begins m.Accepts p ↔ ∃ q, m.run m.start p = some q := by
  constructor
  · rintro ⟨r, q, hrun, -⟩
    rw [run_append] at hrun
    obtain ⟨q', hq', -⟩ := Option.bind_eq_some_iff.mp hrun
    exact ⟨q', hq'⟩
  · rintro ⟨q, hq⟩
    obtain ⟨r, q', hr, hacc⟩ := hlive q
    refine ⟨r, q', ?_, hacc⟩
    rw [run_append, hq]
    exact hr

theorem read_spec (q : σ) (s : List Char) :
    s = (m.read q s).2.1 ++ (m.read q s).2.2 ∧ m.run q (m.read q s).2.1 = some (m.read q s).1 ∧
      ∀ c r, (m.read q s).2.2 = c :: r → m.step (m.read q s).1 c = none := by
  induction s generalizing q with
  | nil => exact ⟨rfl, rfl, fun c r h => absurd h (List.cons_ne_nil c r).symm⟩
  | cons c s ih =>
    rw [read]
    cases hstep : m.step q c with
    | none =>
      refine ⟨rfl, rfl, fun d r h => ?_⟩
      obtain ⟨rfl, -⟩ := List.cons.inj h
      exact hstep
    | some q' =>
      obtain ⟨hsplit, hrun, hstop⟩ := ih q'
      refine ⟨congrArg (c :: ·) hsplit, ?_, hstop⟩
      show (m.step q c).bind _ = _
      rw [hstep]
      exact hrun

/-- What a live automaton reads is the input item of its language. -/
theorem read_item (hlive : m.Live) (s : List Char) :
    InputItem m.Accepts s (m.read m.start s).2.1 (m.read m.start s).2.2 := by
  obtain ⟨hsplit, hrun, hstop⟩ := read_spec (m := m) m.start s
  refine ⟨hsplit, (begins_iff hlive _).mpr ⟨_, hrun⟩, fun c r hrest hbegins => ?_⟩
  obtain ⟨q, hq⟩ := (begins_iff hlive _).mp hbegins
  rw [run_append, hrun] at hq
  have hstep := hstop c r hrest
  simp [run, hstep] at hq

theorem accepts_read (s : List Char) :
    m.Accepts (m.read m.start s).2.1 ↔ m.accept (m.read m.start s).1 = true := by
  obtain ⟨-, hrun, -⟩ := read_spec (m := m) m.start s
  simp [Accepts, AcceptsFrom, hrun]

theorem acceptsFrom_nil (q : σ) : m.AcceptsFrom q [] ↔ m.accept q = true := by
  simp [AcceptsFrom, run]

theorem acceptsFrom_cons (q : σ) (c : Char) (s : List Char) :
    m.AcceptsFrom q (c :: s) ↔ ∃ q', m.step q c = some q' ∧ m.AcceptsFrom q' s := by
  simp only [AcceptsFrom, run]
  cases m.step q c <;> simp

end Matcher

/-! Numbers, in a base from 2 to 16 or with base 0: then the prefix tells the base. -/

def digitVal (c : Char) : Option ℕ :=
  if '0' ≤ c ∧ c ≤ '9' then some (c.toNat - 48)
  else if 'a' ≤ c ∧ c ≤ 'f' then some (c.toNat - 87)
  else if 'A' ≤ c ∧ c ≤ 'F' then some (c.toNat - 55)
  else none

def isDigit (base : ℕ) (c : Char) : Bool := (digitVal c).any (· < base)

def isSign (c : Char) : Bool := c == '+' || c == '-'

def isHexMark (c : Char) : Bool := c == 'x' || c == 'X'

/-- The base of a number with no zero in front. -/
def plainBase (base : ℕ) : ℕ := if base = 0 then 10 else base

/-- The base of a number with a zero in front. -/
def zeroBase (base : ℕ) : ℕ := if base = 0 then 8 else base

/-- The strings that `strtol` converts whole, without a sign. -/
inductive Magnitude (base : ℕ) : List Char → Prop
  | plain {d : Char} {ds : List Char} : d ≠ '0' → isDigit (plainBase base) d = true →
      (∀ c ∈ ds, isDigit (plainBase base) c = true) → Magnitude base (d :: ds)
  | zero {ds : List Char} : (∀ c ∈ ds, isDigit (zeroBase base) c = true) →
      Magnitude base ('0' :: ds)
  | hex {x d : Char} {ds : List Char} : base = 0 ∨ base = 16 → isHexMark x = true →
      isDigit 16 d = true → (∀ c ∈ ds, isDigit 16 c = true) → Magnitude base ('0' :: x :: d :: ds)

inductive Numeral (base : ℕ) : List Char → Prop
  | unsigned {s : List Char} : Magnitude base s → Numeral base s
  | signed {c : Char} {s : List Char} : isSign c = true → Magnitude base s → Numeral base (c :: s)

def numeralValue (base : ℕ) (s : List Char) : ℤ :=
  let digits := if s.head?.any isSign then s.tail else s
  let value (b : ℕ) (ds : List Char) := ds.foldl (fun n c => b * n + (digitVal c).getD 0) 0
  let n := if digits.head? = some '0' then
    if digits.tail.head?.any isHexMark then value 16 digits.tail.tail
    else value (zeroBase base) digits.tail
    else value (plainBase base) digits
  if s.head? = some '-' then -(n : ℤ) else n

inductive NumState where
  | start
  | signed
  | zero
  | marked
  | digits (base : ℕ)
  deriving DecidableEq, Repr

def firstDigit (base : ℕ) (c : Char) : Option NumState :=
  if c = '0' then some .zero
  else if isDigit (plainBase base) c then some (.digits (plainBase base)) else none

def numStep (base : ℕ) : NumState → Char → Option NumState
  | .start, c => if isSign c then some .signed else firstDigit base c
  | .signed, c => firstDigit base c
  | .zero, c =>
    if (base = 0 ∨ base = 16) ∧ isHexMark c then some .marked
    else if isDigit (zeroBase base) c then some (.digits (zeroBase base)) else none
  | .marked, c => if isDigit 16 c then some (.digits 16) else none
  | .digits b, c => if isDigit b c then some (.digits b) else none

def numAccept : NumState → Bool
  | .zero | .digits _ => true
  | .start | .signed | .marked => false

/-- The automaton of the numerals. -/
def number (base : ℕ) : Matcher NumState where
  start := .start
  step := numStep base
  accept := numAccept

@[simp] theorem number_step (base : ℕ) : (number base).step = numStep base := rfl
@[simp] theorem number_accept (base : ℕ) : (number base).accept = numAccept := rfl

theorem number_live (base : ℕ) : (number base).Live := by
  have hzero : (number base).AcceptsFrom .zero [] := ⟨.zero, rfl, rfl⟩
  intro q
  cases q with
  | start => exact ⟨['0'], .zero, rfl, rfl⟩
  | signed => exact ⟨['0'], .zero, rfl, rfl⟩
  | zero => exact ⟨[], .zero, rfl, rfl⟩
  | marked => exact ⟨['0'], .digits 16, rfl, rfl⟩
  | digits b => exact ⟨[], .digits b, rfl, rfl⟩

section Number
variable (base : ℕ) (c : Char) (s : List Char)

theorem isDigit_of_isHexMark {c : Char} (h : isHexMark c = true) : isDigit base c = false := by
  rcases Bool.or_eq_true_iff.mp h with hx | hx
  · rw [eq_of_beq hx]
    rfl
  · rw [eq_of_beq hx]
    rfl

theorem isDigit_of_isSign {c : Char} (h : isSign c = true) : isDigit base c = false := by
  rcases Bool.or_eq_true_iff.mp h with hx | hx
  · rw [eq_of_beq hx]
    rfl
  · rw [eq_of_beq hx]
    rfl

theorem not_isSign_of_magnitude {c : Char} {s : List Char} (h : Magnitude base (c :: s)) :
    ¬ isSign c = true := by
  intro hsign
  cases h with
  | plain _ hd _ =>
    rw [isDigit_of_isSign _ hsign] at hd
    exact Bool.false_ne_true hd
  | zero _ => exact absurd hsign (by decide)
  | hex _ _ _ _ => exact absurd hsign (by decide)

theorem acceptsFrom_digits (b : ℕ) :
    (number base).AcceptsFrom (.digits b) s ↔ ∀ c ∈ s, isDigit b c = true := by
  induction s with
  | nil => simp [Matcher.acceptsFrom_nil, numAccept]
  | cons c s ih =>
    rw [List.forall_mem_cons, ← ih, Matcher.acceptsFrom_cons]
    cases hc : isDigit b c <;> simp [numStep, hc]

theorem acceptsFrom_marked : (number base).AcceptsFrom .marked s ↔
    ∃ d ds, s = d :: ds ∧ isDigit 16 d = true ∧ ∀ c ∈ ds, isDigit 16 c = true := by
  cases s with
  | nil => simp [Matcher.acceptsFrom_nil, numAccept]
  | cons c s =>
    rw [Matcher.acceptsFrom_cons]
    cases hc : isDigit 16 c <;> simp [numStep, hc, acceptsFrom_digits]

theorem acceptsFrom_zero : (number base).AcceptsFrom .zero s ↔ Magnitude base ('0' :: s) := by
  constructor
  · intro h
    cases s with
    | nil => exact .zero (by simp)
    | cons c s =>
      obtain ⟨q, hq, hs⟩ := (Matcher.acceptsFrom_cons _ _ _).mp h
      simp only [number_step, numStep] at hq
      split_ifs at hq with hmark hdigit
      · obtain rfl := Option.some.inj hq
        obtain ⟨d, ds, rfl, hd, hds⟩ := (acceptsFrom_marked base s).mp hs
        exact .hex hmark.1 hmark.2 hd hds
      · obtain rfl := Option.some.inj hq
        exact .zero (List.forall_mem_cons.mpr ⟨hdigit, (acceptsFrom_digits base s _).mp hs⟩)
  · intro h
    cases h with
    | plain hne => exact absurd rfl hne
    | zero hs =>
      cases s with
      | nil => exact (Matcher.acceptsFrom_nil _).mpr rfl
      | cons c s =>
        obtain ⟨hc, hs⟩ := List.forall_mem_cons.mp hs
        have hmark : isHexMark c = false := by
          by_contra hx
          rw [isDigit_of_isHexMark _ (Bool.of_not_eq_false hx)] at hc
          exact Bool.false_ne_true hc
        refine (Matcher.acceptsFrom_cons _ _ _).mpr ⟨_, ?_, (acceptsFrom_digits base s _).mpr hs⟩
        simp [numStep, hc, hmark]
    | hex hbase hx hd hds =>
      refine (Matcher.acceptsFrom_cons _ _ _).mpr ⟨.marked, ?_, ?_⟩
      · simp [numStep, hbase, hx]
      · exact (acceptsFrom_marked base _).mpr ⟨_, _, rfl, hd, hds⟩

theorem magnitude_cons : Magnitude base (c :: s) ↔
    ∃ q, firstDigit base c = some q ∧ (number base).AcceptsFrom q s := by
  unfold firstDigit
  by_cases hzero : c = '0'
  · subst hzero
    simp [acceptsFrom_zero]
  constructor
  · intro h
    cases h with
    | plain _ hd hds => exact ⟨_, by rw [if_neg hzero, if_pos hd], (acceptsFrom_digits base s _).mpr hds⟩
    | zero hs => exact absurd rfl hzero
    | hex hbase hx hd hds => exact absurd rfl hzero
  · rintro ⟨q, hq, hs⟩
    rw [if_neg hzero] at hq
    split_ifs at hq with hd
    obtain rfl := Option.some.inj hq
    exact .plain hzero hd ((acceptsFrom_digits base s _).mp hs)

theorem acceptsFrom_signed : (number base).AcceptsFrom .signed s ↔ Magnitude base s := by
  cases s with
  | nil =>
    simp only [Matcher.acceptsFrom_nil, number_accept, numAccept, Bool.false_eq_true, false_iff]
    rintro ⟨⟩
  | cons c s => rw [Matcher.acceptsFrom_cons, magnitude_cons, number_step, numStep]

theorem accepts_number : (number base).Accepts s ↔ Numeral base s := by
  unfold Matcher.Accepts
  cases s with
  | nil =>
    simp only [Matcher.acceptsFrom_nil, number, numAccept, Bool.false_eq_true, false_iff]
    rintro ⟨⟨⟩⟩
  | cons c s =>
    rw [Matcher.acceptsFrom_cons]
    by_cases hsign : isSign c = true
    · have hstep : (number base).step (number base).start c = some .signed := by
        simp [number, numStep, hsign]
      rw [hstep]
      constructor
      · rintro ⟨q, hq, hs⟩
        obtain rfl := Option.some.inj hq
        exact .signed hsign ((acceptsFrom_signed base s).mp hs)
      · intro h
        cases h with
        | unsigned hmag => exact absurd hsign (not_isSign_of_magnitude base hmag)
        | signed _ hmag => exact ⟨_, rfl, (acceptsFrom_signed base s).mpr hmag⟩
    · have hstep : (number base).step (number base).start c = firstDigit base c := by
        simp [number, numStep, hsign]
      rw [hstep, ← magnitude_cons]
      constructor
      · exact .unsigned
      · intro h
        cases h with
        | unsigned hmag => exact hmag
        | signed hc _ => exact absurd hc hsign

theorem accepts_number_eq : (number base).Accepts = Numeral base :=
  funext fun s => propext (accepts_number base s)

theorem begins_numeral_iff (p : List Char) :
    Begins (Numeral base) p ↔ ∃ q, (number base).run .start p = some q := by
  rw [← accepts_number_eq]
  exact Matcher.begins_iff (number_live base) p

end Number

/-! Directives. The state holds the objects that the arguments point to. -/

inductive Directive (σ : Type*) where
  | space
  | literal (c : Char)
  | char (store : Char → σ → σ)
  | number (base : ℕ) (store : List Char → σ → σ)

inductive Failure where
  | input
  | matching
  deriving DecidableEq, Repr

/-- After some directives: the conversions assigned, why the last one failed if it did, the state
and the input left. -/
structure Scan (σ : Type*) where
  assigned : ℕ
  failure : Option Failure
  state : σ
  rest : List Char

variable {σ : Type*}

def Directive.exec (state : σ) (s : List Char) : Directive σ → Scan σ
  | .space => ⟨0, none, state, skipSpace s⟩
  | .literal c =>
    match s with
    | [] => ⟨0, some .input, state, []⟩
    | a :: r => if a = c then ⟨0, none, state, r⟩ else ⟨0, some .matching, state, a :: r⟩
  | .char store =>
    match s with
    | [] => ⟨0, some .input, state, []⟩
    | a :: r => ⟨1, none, store a state, r⟩
  | .number base store =>
    let item := (Scanf.number base).read .start (skipSpace s)
    if skipSpace s = [] then ⟨0, some .input, state, []⟩
    else if numAccept item.1 then ⟨1, none, store item.2.1 state, item.2.2⟩
    else ⟨0, some .matching, state, item.2.2⟩

/-- The directives one after another, up to the first that fails. -/
def scan (state : σ) (s : List Char) : List (Directive σ) → Scan σ
  | [] => ⟨0, none, state, s⟩
  | d :: ds =>
    let first := d.exec state s
    if first.failure.isSome then first
    else
      let more := scan first.state first.rest ds
      { more with assigned := first.assigned + more.assigned }

def eof : ℤ := -1

/-- The value returned: `eof` for an input failure before any conversion. -/
def Scan.result (r : Scan σ) : ℤ :=
  if r.assigned = 0 ∧ r.failure = some .input then eof else r.assigned

/-- A numeral is read at the front of the input, after white space. -/
structure ReadsNumeral (base : ℕ) (s item rest : List Char) : Prop where
  numeral : Numeral base item
  item : InputItem (Numeral base) (skipSpace s) item rest

theorem read_number (base : ℕ) (s : List Char) :
    InputItem (Numeral base) s ((Scanf.number base).read .start s).2.1
      ((Scanf.number base).read .start s).2.2 := by
  have hitem := Matcher.read_item (number_live base) s
  rwa [accepts_number_eq] at hitem

theorem exec_number (base : ℕ) (store : List Char → σ → σ) (state : σ) (s : List Char) :
    (skipSpace s = [] ∧
      (Directive.number base store).exec state s = ⟨0, some .input, state, []⟩) ∨
    (∃ item rest, ReadsNumeral base s item rest ∧
      (Directive.number base store).exec state s = ⟨1, none, store item state, rest⟩) ∨
    (skipSpace s ≠ [] ∧ (∀ item rest, ¬ ReadsNumeral base s item rest) ∧
      ∃ item rest, InputItem (Numeral base) (skipSpace s) item rest ∧
        (Directive.number base store).exec state s = ⟨0, some .matching, state, rest⟩) := by
  have hitem := read_number base (skipSpace s)
  have haccepts := Matcher.accepts_read (m := Scanf.number base) (skipSpace s)
  rw [accepts_number] at haccepts
  simp only [Directive.exec]
  by_cases hs : skipSpace s = []
  · exact Or.inl ⟨hs, if_pos hs⟩
  rw [if_neg hs]
  by_cases hacc : numAccept ((Scanf.number base).read .start (skipSpace s)).1 = true
  · exact Or.inr (Or.inl ⟨_, _, ⟨haccepts.mpr hacc, hitem⟩, if_pos hacc⟩)
  · refine Or.inr (Or.inr ⟨hs, fun item rest h => ?_, _, _, hitem, if_neg hacc⟩)
    obtain ⟨heq, -⟩ := h.item.unique hitem
    exact hacc (haccepts.mp (heq ▸ h.numeral))

theorem ReadsNumeral.unique {base : ℕ} {s item rest item' rest' : List Char}
    (h : ReadsNumeral base s item rest) (h' : ReadsNumeral base s item' rest') :
    item = item' ∧ rest = rest' := h.item.unique h'.item

theorem ReadsNumeral.skipSpace_ne_nil {base : ℕ} {s item rest : List Char}
    (h : ReadsNumeral base s item rest) : skipSpace s ≠ [] := by
  intro hs
  have hsplit := h.item.split
  rw [hs] at hsplit
  have hnil : item = [] := (List.nil_eq_append_iff.mp hsplit).1
  have hnum := h.numeral
  rw [hnil] at hnum
  rcases hnum with ⟨⟨⟩⟩

/-- All directives succeed. -/
def Matches : List (Directive σ) → σ → List Char → σ → List Char → Prop
  | [], state, s, state', r => state' = state ∧ r = s
  | .space :: ds, state, s, state', r => Matches ds state (skipSpace s) state' r
  | .literal c :: ds, state, s, state', r => ∃ s', s = c :: s' ∧ Matches ds state s' state' r
  | .char store :: ds, state, s, state', r =>
    ∃ a s', s = a :: s' ∧ Matches ds (store a state) s' state' r
  | .number base store :: ds, state, s, state', r =>
    ∃ item s', ReadsNumeral base s item s' ∧ Matches ds (store item state) s' state' r

def conversions : List (Directive σ) → ℕ
  | [] => 0
  | .space :: ds | .literal _ :: ds => conversions ds
  | .char _ :: ds | .number _ _ :: ds => conversions ds + 1

/-- A conversion follows every literal. -/
def Tight : List (Directive σ) → Prop
  | [] => True
  | .literal _ :: ds => 0 < conversions ds ∧ Tight ds
  | .space :: ds | .char _ :: ds | .number _ _ :: ds => Tight ds

section Scan
variable {d : Directive σ} {ds : List (Directive σ)} {state : σ}

theorem scan_cons_of_failure {f : Failure} {r : Scan σ} (h : d.exec state s = r)
    (hf : r.failure = some f) : scan state s (d :: ds) = r := by
  subst h
  simp [scan, hf]

theorem scan_cons_of_success {n : ℕ} {state' : σ} {rest : List Char}
    (h : d.exec state s = ⟨n, none, state', rest⟩) :
    scan state s (d :: ds) =
      { scan state' rest ds with assigned := n + (scan state' rest ds).assigned } := by
  simp [scan, h]

theorem scan_of_matches {state' : σ} {r : List Char} (h : Matches ds state s state' r) :
    scan state s ds = ⟨conversions ds, none, state', r⟩ := by
  induction ds generalizing state s with
  | nil =>
    obtain ⟨rfl, rfl⟩ := h
    rfl
  | cons d ds ih =>
    cases d with
    | space =>
      have hexec : Directive.space.exec state s = ⟨0, none, state, skipSpace s⟩ := rfl
      rw [scan_cons_of_success hexec, ih h, Nat.zero_add, conversions]
    | literal c =>
      obtain ⟨s', rfl, h⟩ := h
      have hexec : (Directive.literal c).exec state (c :: s') = ⟨0, none, state, s'⟩ := if_pos rfl
      rw [scan_cons_of_success hexec, ih h, Nat.zero_add, conversions]
    | char store =>
      obtain ⟨a, s', rfl, h⟩ := h
      have hexec : (Directive.char store).exec state (a :: s') = ⟨1, none, store a state, s'⟩ := rfl
      rw [scan_cons_of_success hexec, ih h, Nat.add_comm, conversions]
    | number base store =>
      obtain ⟨item, s', hread, h⟩ := h
      have hexec : (Directive.number base store).exec state s =
          ⟨1, none, store item state, s'⟩ := by
        rcases exec_number base store state s with ⟨hs, -⟩ | ⟨item', rest, hread', hexec⟩ | ⟨-, hno, -⟩
        · exact absurd hs hread.skipSpace_ne_nil
        · obtain ⟨rfl, rfl⟩ := hread.unique hread'
          exact hexec
        · exact absurd hread (hno item s')
      rw [scan_cons_of_success hexec, ih h, Nat.add_comm, conversions]

theorem assigned_lt_of_failure {f : Failure} {state' : σ} {rest : List Char}
    (h : d.exec state s = ⟨0, some f, state', rest⟩) (hpos : 0 < conversions (d :: ds)) :
    (scan state s (d :: ds)).assigned < conversions (d :: ds) := by
  rw [scan_cons_of_failure h rfl]
  exact hpos

theorem assigned_lt_of_conversion {state' : σ} {rest : List Char}
    (h : d.exec state s = ⟨1, none, state', rest⟩)
    (hconv : conversions (d :: ds) = conversions ds + 1)
    (hlt : (scan state' rest ds).assigned < conversions ds) :
    (scan state s (d :: ds)).assigned < conversions (d :: ds) := by
  rw [scan_cons_of_success h, hconv]
  dsimp only
  omega

/-- A tight format that does not match leaves out a conversion. -/
theorem assigned_lt_of_not_matches (htight : Tight ds)
    (h : ∀ state' r, ¬ Matches ds state s state' r) :
    (scan state s ds).assigned < conversions ds := by
  induction ds generalizing state s with
  | nil => exact absurd ⟨rfl, rfl⟩ (h state s)
  | cons d ds ih =>
    cases d with
    | space =>
      have hexec : Directive.space.exec state s = ⟨0, none, state, skipSpace s⟩ := rfl
      rw [scan_cons_of_success hexec, Nat.zero_add]
      exact ih htight h
    | literal c =>
      cases s with
      | nil => exact assigned_lt_of_failure (f := .input) rfl htight.1
      | cons a s =>
        by_cases hac : a = c
        · subst hac
          have hexec : (Directive.literal a).exec state (a :: s) = ⟨0, none, state, s⟩ := if_pos rfl
          rw [scan_cons_of_success hexec, Nat.zero_add]
          exact ih htight.2 fun state' r hm => h state' r ⟨s, rfl, hm⟩
        · have hexec : (Directive.literal c).exec state (a :: s) =
              ⟨0, some .matching, state, a :: s⟩ := if_neg hac
          exact assigned_lt_of_failure hexec htight.1
    | char store =>
      cases s with
      | nil => exact assigned_lt_of_failure (f := .input) rfl (Nat.succ_pos _)
      | cons a s =>
        have hno : ∀ state' r, ¬ Matches ds (store a state) s state' r :=
          fun state' r hm => h state' r ⟨a, s, rfl, hm⟩
        exact assigned_lt_of_conversion rfl rfl (ih htight hno)
    | number base store =>
      rcases exec_number base store state s with ⟨-, hexec⟩ | ⟨item, rest, hread, hexec⟩ |
        ⟨-, -, item, rest, -, hexec⟩
      · exact assigned_lt_of_failure hexec (Nat.succ_pos _)
      · have hno : ∀ state' r, ¬ Matches ds (store item state) rest state' r :=
          fun state' r hm => h state' r ⟨item, rest, hread, hm⟩
        exact assigned_lt_of_conversion hexec rfl (ih htight hno)
      · exact assigned_lt_of_failure hexec (Nat.succ_pos _)

/-- A format that begins with a number takes nothing from an input that no number begins. -/
theorem scan_number_stuck (base : ℕ) (store : List Char → σ → σ) {c : Char} {r : List Char}
    (hc : isSpace c = false) (hnum : ¬ Begins (Numeral base) [c]) :
    scan state (c :: r) (.number base store :: ds) = ⟨0, some .matching, state, c :: r⟩ := by
  have hskip : skipSpace (c :: r) = c :: r := by rw [skipSpace, List.dropWhile_cons, hc]; rfl
  have hnil : ∀ item rest, InputItem (Numeral base) (skipSpace (c :: r)) item rest →
      item = [] ∧ rest = c :: r := by
    intro item rest h
    have hsplit := h.split
    rw [hskip] at hsplit
    cases item with
    | nil => exact ⟨rfl, hsplit.symm⟩
    | cons a item =>
      obtain ⟨rfl, -⟩ := List.cons.inj hsplit
      exact absurd (Begins.of_append (p := [c]) h.begins) hnum
  rcases exec_number base store state (c :: r) with ⟨hs, -⟩ | ⟨item, rest, hread, -⟩ |
    ⟨-, -, item, rest, hitem, hexec⟩
  · rw [hskip] at hs
    exact absurd hs (List.cons_ne_nil c r)
  · obtain ⟨rfl, -⟩ := hnil item rest hread.item
    rcases hread.numeral with ⟨⟨⟩⟩
  · obtain ⟨-, rfl⟩ := hnil item rest hitem
    exact scan_cons_of_failure hexec rfl

theorem scan_number_eof (base : ℕ) (store : List Char → σ → σ) :
    (scan state s (.number base store :: ds)).result = eof ↔ skipSpace s = [] := by
  rcases exec_number base store state s with ⟨hs, hexec⟩ | ⟨item, rest, hread, hexec⟩ |
    ⟨hs, -, item, rest, -, hexec⟩
  · rw [scan_cons_of_failure hexec rfl]
    simp [Scan.result, hs]
  · have hne := hread.skipSpace_ne_nil
    rw [scan_cons_of_success hexec]
    simp only [Scan.result, Nat.add_eq_zero_iff, Nat.one_ne_zero, false_and, if_false, hne,
      iff_false, eof]
    omega
  · rw [scan_cons_of_failure hexec rfl]
    simp [Scan.result, hs, eof]

end Scan

end Orga.Scanf
