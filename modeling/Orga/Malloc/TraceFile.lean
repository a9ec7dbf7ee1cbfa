import Orga.Lib.Tokens
import Orga.Malloc.Coalesce
import Orga.Malloc.Evaluation

/-! `read_trace` of `mdriver.c`. A file is the list of its characters. The C library's `malloc`
fails on a negative count only; what the driver prints is left out. -/
namespace Orga.Malloc
open Orga.Scanf

/-- Where `read_trace` ends without a trace. -/
inductive TraceError where
  /-- a value that was never stored -/
  | unset
  /-- a store beyond the array `type` or the array `ops` -/
  | overrun
  | unixError (msg : String)
  /-- `Bogus type character (%c) in tracefile %s` -/
  | bogus (c : Char)
  | assertion
  deriving DecidableEq, Repr

def MAXLINE : ℕ := 1024

/-- `%d`. The C standard leaves a value out of range undefined: here it wraps. -/
def valueD (item : List Char) : Int32 := Int32.ofInt (numeralValue 10 item)

/-- `%u`, in the same way. -/
def valueU (item : List Char) : UInt32 := UInt32.ofInt (numeralValue 10 item)

/-- One call `fscanf(tracefile, "%d", ..)` of the header: the value, if it is stored, and the rest
of the file. -/
def readInt (s : List Char) : Option Int32 × List Char :=
  let r := scan none s [.number 10 fun item _ => some (valueD item)]
  (r.state, r.rest)

/-- The variables of the loop. `op_index` is the length of `ops`. -/
structure Reading where
  index : UInt32
  size : Option UInt32
  maxIndex : UInt32
  ops : List TraceOp
  deriving DecidableEq, Repr

/-- `"%u %u"` -/
def formatRequest : List (Directive Reading) :=
  [.number 10 fun item r => { r with index := valueU item }, .space,
    .number 10 fun item r => { r with size := some (valueU item) }]

/-- `"%ud"` -/
def formatFree : List (Directive Reading) :=
  [.number 10 fun item r => { r with index := valueU item }, .literal 'd']

/-- The stores to `ops[op_index]`. -/
def Reading.push (r : Reading) (numOps : Int32) (op : TraceOp) : Except TraceError Reading :=
  if r.ops.length < numOps.toInt.toNat then .ok { r with ops := r.ops ++ [op] }
  else .error .overrun

/-- The cases `'a'` and `'r'`. -/
def Reading.request (r : Reading) (numOps : Int32) (type : OpType) : Except TraceError Reading := do
  let some size := r.size | throw .unset
  let r ← r.push numOps ⟨type, r.index.toInt32, size.toInt32⟩
  return { r with maxIndex := if r.index > r.maxIndex then r.index else r.maxIndex }

/-- The body of the loop after a word that starts with `c`. The size of a `FREE` is not stored,
and nothing reads it: here it is 0. -/
def readOp (numOps : Int32) (c : Char) (s : List Char) (r : Reading) :
    Except TraceError (Reading × List Char) :=
  match c with
  | 'a' =>
    let f := scan r s formatRequest
    (f.state.request numOps .alloc).map (·, f.rest)
  | 'r' =>
    let f := scan r s formatRequest
    (f.state.request numOps .realloc).map (·, f.rest)
  | 'f' =>
    let f := scan r s formatFree
    (f.state.push numOps ⟨.free, f.state.index.toInt32, 0⟩).map (·, f.rest)
  | c => .error (.bogus c)

theorem length_readOp_le {numOps : Int32} {c : Char} {s s' : List Char} {r r' : Reading}
    (h : readOp numOps c s r = .ok (r', s')) : s'.length ≤ s.length := by
  unfold readOp at h
  split at h
  · obtain ⟨_, _, heq⟩ := map_eq_ok h
    cases heq
    exact length_scan_le _ _ _
  · obtain ⟨_, _, heq⟩ := map_eq_ok h
    cases heq
    exact length_scan_le _ _ _
  · obtain ⟨_, _, heq⟩ := map_eq_ok h
    cases heq
    exact length_scan_le _ _ _
  · cases h

/-- The loop `while (fscanf(tracefile, "%s", type) != EOF)`. -/
def readOps (numOps : Int32) (s : List Char) (r : Reading) : Except TraceError Reading :=
  match _hword : readWord s with
  | none => .ok r
  | some (word, s₁) =>
    if MAXLINE ≤ word.length then .error .overrun
    else match _hop : readOp numOps (word.headD ' ') s₁ r with
      | .error e => .error e
      | .ok (r', s₂) => readOps numOps s₂ r'
termination_by s.length
decreasing_by exact (length_readOp_le _hop).trans_lt (length_readWord_lt _hword)

/-- `read_trace`. The first and the last number of the header are not used. -/
def readTrace (s : List Char) : Except TraceError Trace := do
  let (_, s) := readInt s
  let (numIds, s) := readInt s
  let (numOps, s) := readInt s
  let (_, s) := readInt s
  let some numOps := numOps | throw .unset
  if numOps < 0 then
    throw (.unixError "malloc 2 failed in read_trace")
  let some numIds := numIds | throw .unset
  if numIds < 0 then
    throw (.unixError "malloc 3 failed in read_trace")
  let r ← readOps numOps s ⟨0, none, 0, []⟩
  if r.maxIndex ≠ (numIds - 1).toUInt32 then
    throw .assertion
  if numOps.toUInt32 ≠ UInt32.ofNat r.ops.length then
    throw .assertion
  return ⟨numIds, r.ops⟩

/-- The type character. -/
def TraceOp.letter (op : TraceOp) : Char :=
  match op.type with
  | .alloc => 'a'
  | .realloc => 'r'
  | .free => 'f'

def TraceOp.line (op : TraceOp) : List Char :=
  let index := decimal op.index.toUInt32.toNat
  let size := decimal op.size.toUInt32.toNat
  match op.type with
  | .free => op.letter :: ' ' :: (index ++ ['\n'])
  | _ => op.letter :: ' ' :: (index ++ ' ' :: (size ++ ['\n']))

def lines (ops : List TraceOp) : List Char := ops.flatMap TraceOp.line

def Trace.text (suggHeapsize weight : ℕ) (t : Trace) : List Char :=
  decimal suggHeapsize ++ '\n' :: (decimal t.numIds.toInt.toNat ++ '\n' ::
    (decimal t.ops.length ++ '\n' :: (decimal weight ++ '\n' :: lines t.ops)))

/-- The largest index of an `ALLOC` or a `REALLOC`, as an `unsigned`. -/
def largestIndex (m : UInt32) : List TraceOp → UInt32
  | [] => m
  | op :: ops =>
    if op.type = .free then largestIndex m ops
    else largestIndex (if op.index.toUInt32 > m then op.index.toUInt32 else m) ops

/-- The two assertions and the two counts of `read_trace`. -/
structure Trace.Readable (t : Trace) : Prop where
  numIds : 0 ≤ t.numIds.toInt
  numOps : t.ops.length < 2 ^ 31
  maxIndex_eq : largestIndex 0 t.ops = (t.numIds - 1).toUInt32
  size_free : ∀ op ∈ t.ops, op.type = .free → op.size = 0

section Loop
variable {numOps : Int32} {s s₁ s₂ word : List Char} {r r' : Reading}

theorem readOps_end (hword : readWord s = none) : readOps numOps s r = .ok r := by
  rw [readOps]
  split
  · rfl
  · next heq => exact absurd (hword.symm.trans heq) (by simp)

theorem readOps_word (hword : readWord s = some (word, s₁)) :
    readOps numOps s r =
      if MAXLINE ≤ word.length then .error .overrun
      else readOp numOps (word.headD ' ') s₁ r >>= fun next => readOps numOps next.2 next.1 := by
  rw [readOps]
  split
  · next heq => exact absurd (hword.symm.trans heq) (by simp)
  · next word' s₁' heq =>
    obtain ⟨rfl, rfl⟩ := Prod.mk.inj (Option.some.inj (hword.symm.trans heq))
    congr 1
    split
    · next heq =>
      rw [heq]
      rfl
    · next heq =>
      rw [heq]
      rfl

theorem readOps_next (hword : readWord s = some (word, s₁)) (hlen : word.length < MAXLINE)
    (hop : readOp numOps (word.headD ' ') s₁ r = .ok (r', s₂)) :
    readOps numOps s r = readOps numOps s₂ r' := by
  rw [readOps_word hword, if_neg (not_le.mpr hlen), hop]
  rfl

theorem readOps_induction {P : Reading → Prop}
    (hstep : ∀ c s r r' s', P r → readOp numOps c s r = .ok (r', s') → P r')
    (hr : P r) (hrun : readOps numOps s r = .ok r') : P r' := by
  induction s, r using readOps.induct numOps with
  | case1 s r hword =>
    rw [readOps_end hword] at hrun
    cases hrun
    exact hr
  | case2 s r word s₁ hword hlong =>
    rw [readOps_word hword, if_pos hlong] at hrun
    cases hrun
  | case3 s r word s₁ hword hlong e hop =>
    rw [readOps_word hword, if_neg hlong, hop] at hrun
    cases hrun
  | case4 s r word s₁ hword hlong r₁ s₂ hop ih =>
    rw [readOps_next hword (not_le.mp hlong) hop] at hrun
    exact ih (hstep _ _ _ _ _ hr hop) hrun

end Loop

section Print

theorem valueU_decimal (x : UInt32) : valueU (decimal x.toNat) = x := by
  have hlt := x.toNat_lt
  apply UInt32.toNat_inj.mp
  rw [valueU, numeralValue_decimal, UInt32.ofInt, UInt32.toNat_ofNat']
  omega

theorem valueD_decimal {x : Int32} (hx : 0 ≤ x.toInt) : valueD (decimal x.toInt.toNat) = x := by
  rw [valueD, numeralValue_decimal, Int.toNat_of_nonneg hx]
  exact Int32.ofInt_toInt x

theorem not_digit_newline {rest : List Char} (c : Char) (r : List Char)
    (heq : '\n' :: rest = c :: r) : isDigit 10 c = false := by
  obtain ⟨rfl, -⟩ := List.cons.inj heq
  rfl

theorem forall_newline : ∀ c ∈ ['\n'], isSpace c = true := List.forall_mem_singleton.mpr rfl

theorem forall_blank : ∀ c ∈ [' '], isSpace c = true := List.forall_mem_singleton.mpr rfl

theorem readInt_decimal (n : ℕ) {blank : List Char} (rest : List Char)
    (hblank : ∀ c ∈ blank, isSpace c = true) :
    readInt (blank ++ (decimal n ++ '\n' :: rest)) = (some (valueD (decimal n)), '\n' :: rest) := by
  have hread : ReadsNumeral 10 (blank ++ (decimal n ++ '\n' :: rest)) (decimal n) ('\n' :: rest) :=
    readsNumeral_decimal n hblank not_digit_newline
  have hmatch : Matches [.number 10 fun item _ => some (valueD item)] (none : Option Int32)
      (blank ++ (decimal n ++ '\n' :: rest)) (some (valueD (decimal n))) ('\n' :: rest) :=
    ⟨_, _, hread, rfl, rfl⟩
  rw [readInt, scan_of_matches hmatch]

theorem scan_request (r : Reading) (i n : UInt32) (rest : List Char) :
    scan r (' ' :: (decimal i.toNat ++ ' ' :: (decimal n.toNat ++ '\n' :: rest))) formatRequest =
      ⟨2, none, { r with index := i, size := some n }, '\n' :: rest⟩ := by
  have hindex : ReadsNumeral 10 ([' '] ++ (decimal i.toNat ++
      ' ' :: (decimal n.toNat ++ '\n' :: rest))) (decimal i.toNat)
      (' ' :: (decimal n.toNat ++ '\n' :: rest)) :=
    readsNumeral_decimal _ forall_blank fun c r heq => by
      obtain ⟨rfl, -⟩ := List.cons.inj heq
      rfl
  have hsize : ReadsNumeral 10 ([' '] ++ (decimal n.toNat ++ '\n' :: rest)) (decimal n.toNat)
      ('\n' :: rest) := readsNumeral_decimal _ forall_blank not_digit_newline
  have hskip : ReadsNumeral 10 (skipSpace ([' '] ++ (decimal n.toNat ++ '\n' :: rest)))
      (decimal n.toNat) ('\n' :: rest) :=
    ⟨hsize.numeral, by rw [skipSpace_skipSpace]; exact hsize.item⟩
  have hmatch : Matches formatRequest r
      (' ' :: (decimal i.toNat ++ ' ' :: (decimal n.toNat ++ '\n' :: rest)))
      { r with index := valueU (decimal i.toNat), size := some (valueU (decimal n.toNat)) }
      ('\n' :: rest) := ⟨_, _, hindex, _, _, hskip, rfl, rfl⟩
  rw [scan_of_matches hmatch, valueU_decimal, valueU_decimal]
  rfl

/-- The literal `d` of the format does not match, and the number is stored. -/
theorem scan_free (r : Reading) (i : UInt32) (rest : List Char) :
    scan r (' ' :: (decimal i.toNat ++ '\n' :: rest)) formatFree =
      ⟨1, some .matching, { r with index := i }, '\n' :: rest⟩ := by
  have hindex : ReadsNumeral 10 ([' '] ++ (decimal i.toNat ++ '\n' :: rest)) (decimal i.toNat)
      ('\n' :: rest) := readsNumeral_decimal _ forall_blank not_digit_newline
  rcases exec_number 10 (fun item r => { r with index := valueU item }) r
      (' ' :: (decimal i.toNat ++ '\n' :: rest)) with ⟨hs, -⟩ | ⟨item, rest', hread, hexec⟩ | ⟨-, hno, -⟩
  · exact absurd hs hindex.skipSpace_ne_nil
  · obtain ⟨rfl, rfl⟩ := hindex.unique hread
    rw [formatFree, scan_cons_of_success hexec, valueU_decimal]
    rfl
  · exact absurd hindex (hno _ _)

theorem readWord_letter {c : Char} (hc : isSpace c = false) (rest : List Char) :
    readWord ('\n' :: c :: ' ' :: rest) = some ([c], ' ' :: rest) := by
  have hword : readWord (['\n'] ++ ([c] ++ ' ' :: rest)) = some ([c], ' ' :: rest) :=
    readWord_append forall_newline (by simp) (by simpa using hc) fun d r heq => by
      obtain ⟨rfl, -⟩ := List.cons.inj heq
      rfl
  exact hword

section Line
variable {numOps : Int32} {op : TraceOp} {r : Reading}

theorem Reading.push_eq (op : TraceOp) (hroom : r.ops.length < numOps.toInt.toNat) :
    r.push numOps op = .ok { r with ops := r.ops ++ [op] } := if_pos hroom

theorem readOp_request (htype : op.type ≠ .free) (hroom : r.ops.length < numOps.toInt.toNat)
    (rest : List Char) :
    readOp numOps op.letter (' ' :: (decimal op.index.toUInt32.toNat ++
        ' ' :: (decimal op.size.toUInt32.toNat ++ '\n' :: rest))) r =
      .ok (⟨op.index.toUInt32, some op.size.toUInt32,
        if op.index.toUInt32 > r.maxIndex then op.index.toUInt32 else r.maxIndex,
        r.ops ++ [op]⟩, '\n' :: rest) := by
  have hrequest : ∀ type, Reading.request
      { r with index := op.index.toUInt32, size := some op.size.toUInt32 } numOps type =
      .ok ⟨op.index.toUInt32, some op.size.toUInt32,
        if op.index.toUInt32 > r.maxIndex then op.index.toUInt32 else r.maxIndex,
        r.ops ++ [⟨type, op.index, op.size⟩]⟩ := by
    intro type
    have hpush := Reading.push_eq ⟨type, op.index, op.size⟩
      (r := { r with index := op.index.toUInt32, size := some op.size.toUInt32 }) hroom
    unfold Reading.request
    dsimp only
    rw [Int32.toInt32_toUInt32, Int32.toInt32_toUInt32, hpush]
    rfl
  obtain ⟨type, index, size⟩ := op
  cases type with
  | alloc =>
    show (Reading.request (scan r _ formatRequest).state numOps .alloc).map
      (·, (scan r _ formatRequest).rest) = _
    rw [scan_request]
    dsimp only
    rw [hrequest]
    rfl
  | realloc =>
    show (Reading.request (scan r _ formatRequest).state numOps .realloc).map
      (·, (scan r _ formatRequest).rest) = _
    rw [scan_request]
    dsimp only
    rw [hrequest]
    rfl
  | free => exact absurd rfl htype

theorem readOp_free (htype : op.type = .free) (hsize : op.size = 0)
    (hroom : r.ops.length < numOps.toInt.toNat) (rest : List Char) :
    readOp numOps op.letter (' ' :: (decimal op.index.toUInt32.toNat ++ '\n' :: rest)) r =
      .ok ({ r with index := op.index.toUInt32, ops := r.ops ++ [op] }, '\n' :: rest) := by
  have hpush := Reading.push_eq ⟨.free, op.index, 0⟩
    (r := { r with index := op.index.toUInt32 }) hroom
  obtain ⟨type, index, size⟩ := op
  subst htype
  subst hsize
  show (Reading.push (scan r _ formatFree).state numOps ⟨.free, _, 0⟩).map
    (·, (scan r _ formatFree).rest) = _
  rw [scan_free]
  dsimp only at hpush ⊢
  rw [Int32.toInt32_toUInt32, hpush]
  rfl

theorem letter_word (op : TraceOp) (rest : List Char) :
    readWord ('\n' :: op.letter :: ' ' :: rest) = some ([op.letter], ' ' :: rest) := by
  refine readWord_letter ?_ rest
  unfold TraceOp.letter
  cases op.type <;> decide

theorem one_lt_maxline : 1 < MAXLINE := by decide

theorem readOps_line (hsize : op.type = .free → op.size = 0)
    (hroom : r.ops.length < numOps.toInt.toNat) (rest : List Char) :
    ∃ r', readOps numOps ('\n' :: (op.line ++ rest)) r = readOps numOps ('\n' :: rest) r' ∧
      r'.ops = r.ops ++ [op] ∧
      ∀ ops, largestIndex r'.maxIndex ops = largestIndex r.maxIndex (op :: ops) := by
  by_cases htype : op.type = .free
  · have hline : op.line ++ rest =
        op.letter :: ' ' :: (decimal op.index.toUInt32.toNat ++ '\n' :: rest) := by
      simp [TraceOp.line, htype]
    refine ⟨{ r with index := op.index.toUInt32, ops := r.ops ++ [op] }, ?_, rfl, fun ops => ?_⟩
    · rw [hline]
      exact readOps_next (letter_word op _) one_lt_maxline (readOp_free htype (hsize htype) hroom rest)
    · rw [largestIndex, if_pos htype]
  · have hline : op.line ++ rest = op.letter :: ' ' :: (decimal op.index.toUInt32.toNat ++
        ' ' :: (decimal op.size.toUInt32.toNat ++ '\n' :: rest)) := by
      cases hop : op.type <;> simp [TraceOp.line, hop] at htype ⊢
    refine ⟨⟨op.index.toUInt32, some op.size.toUInt32,
      if op.index.toUInt32 > r.maxIndex then op.index.toUInt32 else r.maxIndex, r.ops ++ [op]⟩,
      ?_, rfl, fun ops => ?_⟩
    · rw [hline]
      exact readOps_next (letter_word op _) one_lt_maxline (readOp_request htype hroom rest)
    · rw [largestIndex, if_neg htype]

end Line

theorem readOps_lines {numOps : Int32} {ops : List TraceOp}
    (hsize : ∀ op ∈ ops, op.type = .free → op.size = 0) {r : Reading}
    (hroom : r.ops.length + ops.length ≤ numOps.toInt.toNat) :
    ∃ r', readOps numOps ('\n' :: lines ops) r = .ok r' ∧ r'.ops = r.ops ++ ops ∧
      r'.maxIndex = largestIndex r.maxIndex ops := by
  induction ops generalizing r with
  | nil =>
    refine ⟨r, readOps_end (readWord_blank forall_newline), (List.append_nil _).symm, rfl⟩
  | cons op ops ih =>
    obtain ⟨hop, hsize⟩ := List.forall_mem_cons.mp hsize
    rw [List.length_cons] at hroom
    obtain ⟨r₁, hrun, hops, hmax⟩ := @readOps_line numOps op r hop (by omega) (lines ops)
    obtain ⟨r', hrun', hops', hmax'⟩ := ih hsize (r := r₁) (by
      rw [hops, List.length_append, List.length_singleton]
      omega)
    refine ⟨r', ?_, ?_, ?_⟩
    · rw [lines, List.flatMap_cons]
      exact hrun.trans hrun'
    · rw [hops', hops, List.append_assoc]
      rfl
    · rw [hmax', hmax]

end Print

theorem largestIndex_append (m : UInt32) (ops : List TraceOp) (op : TraceOp) :
    largestIndex m (ops ++ [op]) = if op.type = .free then largestIndex m ops
      else if op.index.toUInt32 > largestIndex m ops then op.index.toUInt32 else largestIndex m ops := by
  induction ops generalizing m with
  | nil => rfl
  | cons o ops ih =>
    rw [List.cons_append, largestIndex, largestIndex]
    by_cases ho : o.type = .free
    · rw [if_pos ho, if_pos ho]
      exact ih m
    · rw [if_neg ho, if_neg ho]
      exact ih _

/-- What the loop knows of the operations it has stored. -/
structure Reading.Sound (numOps : Int32) (r : Reading) : Prop where
  room : r.ops.length ≤ numOps.toInt.toNat
  maxIndex_eq : r.maxIndex = largestIndex 0 r.ops
  size_free : ∀ op ∈ r.ops, op.type = .free → op.size = 0

section Sound
variable {numOps : Int32} {r r' : Reading} {op : TraceOp}

theorem Reading.push_eq_ok (h : r.push numOps op = .ok r') :
    r.ops.length < numOps.toInt.toNat ∧ r' = { r with ops := r.ops ++ [op] } := by
  unfold Reading.push at h
  split_ifs at h with hroom
  cases h
  exact ⟨hroom, rfl⟩

theorem Reading.request_eq_ok {type : OpType} (h : r.request numOps type = .ok r') :
    ∃ size, r.ops.length < numOps.toInt.toNat ∧ r'.ops = r.ops ++ [⟨type, r.index.toInt32, size⟩] ∧
      r'.maxIndex = if r.index > r.maxIndex then r.index else r.maxIndex := by
  unfold Reading.request at h
  cases hsize : r.size with
  | none =>
    rw [hsize] at h
    cases h
  | some size =>
    rw [hsize] at h
    obtain ⟨r₁, hpush, h⟩ := bind_eq_ok h
    obtain ⟨hroom, rfl⟩ := Reading.push_eq_ok hpush
    cases h
    exact ⟨_, hroom, rfl, rfl⟩

theorem Reading.Sound.request {type : OpType} (hs : r.Sound numOps) (htype : type ≠ .free)
    (h : r.request numOps type = .ok r') : r'.Sound numOps := by
  obtain ⟨size, hroom, hops, hmax⟩ := Reading.request_eq_ok h
  refine ⟨?_, ?_, fun op hop hfree => ?_⟩
  · rw [hops, List.length_append, List.length_singleton]
    omega
  · rw [hmax, hops, largestIndex_append, if_neg htype, hs.maxIndex_eq, UInt32.toUInt32_toInt32]
  · rw [hops, List.mem_append, List.mem_singleton] at hop
    rcases hop with hop | rfl
    · exact hs.size_free op hop hfree
    · exact absurd hfree htype

theorem Reading.Sound.push (hs : r.Sound numOps) (hfree : op.type = .free) (hsize : op.size = 0)
    (h : r.push numOps op = .ok r') : r'.Sound numOps := by
  obtain ⟨hroom, rfl⟩ := Reading.push_eq_ok h
  refine ⟨?_, ?_, fun o ho htype => ?_⟩
  · rw [List.length_append, List.length_singleton]
    omega
  · rw [largestIndex_append, if_pos hfree]
    exact hs.maxIndex_eq
  · rw [List.mem_append, List.mem_singleton] at ho
    rcases ho with ho | rfl
    · exact hs.size_free o ho htype
    · exact hsize

theorem Reading.Sound.readOp {c : Char} {s s' : List Char} (hs : r.Sound numOps)
    (h : readOp numOps c s r = .ok (r', s')) : r'.Sound numOps := by
  -- the conversions store `index` and `size` only
  have hkeeps : ∀ d ∈ formatRequest ++ formatFree, d.Keeps (Reading.Sound numOps) := by
    have hindex : ∀ i (r : Reading), r.Sound numOps → Reading.Sound numOps { r with index := i } :=
      fun _ _ hr => ⟨hr.room, hr.maxIndex_eq, hr.size_free⟩
    have hsize : ∀ n (r : Reading), r.Sound numOps → Reading.Sound numOps { r with size := n } :=
      fun _ _ hr => ⟨hr.room, hr.maxIndex_eq, hr.size_free⟩
    simpa [formatRequest, formatFree, Directive.Keeps] using
      ⟨fun _ => hindex _, fun _ => hsize _, fun _ => hindex _⟩
  have hrequest : (scan r s formatRequest).state.Sound numOps :=
    scan_keeps (fun d hd => hkeeps d (List.mem_append_left _ hd)) hs s
  have hfree : (scan r s formatFree).state.Sound numOps :=
    scan_keeps (fun d hd => hkeeps d (List.mem_append_right _ hd)) hs s
  unfold Malloc.readOp at h
  split at h
  · obtain ⟨r₁, hr₁, heq⟩ := map_eq_ok h
    cases heq
    exact hrequest.request (by decide) hr₁
  · obtain ⟨r₁, hr₁, heq⟩ := map_eq_ok h
    cases heq
    exact hrequest.request (by decide) hr₁
  · obtain ⟨r₁, hr₁, heq⟩ := map_eq_ok h
    cases heq
    exact hfree.push rfl rfl hr₁
  · cases h

end Sound

/-- What `read_trace` returns is readable. -/
theorem readable_of_readTrace {s : List Char} {t : Trace} (h : readTrace s = .ok t) :
    t.Readable := by
  unfold readTrace at h
  dsimp only at h
  generalize readInt (readInt s).2 = ids at h
  generalize readInt ids.2 = num at h
  generalize (readInt num.2).2 = s₄ at h
  obtain ⟨numOps, s₃⟩ := num
  obtain ⟨numIds, s₂⟩ := ids
  cases numOps with
  | none => cases h
  | some numOps =>
    dsimp only at h
    split_ifs at h with hops
    · cases h
    cases numIds with
    | none => cases h
    | some numIds =>
      dsimp only at h
      split_ifs at h with hids
      · cases h
      obtain ⟨r, hrun, h⟩ := bind_eq_ok h
      split_ifs at h with hmax hnum hnum
      · cases h
      · cases h
      · cases h
      cases h
      have hstart : Reading.Sound numOps ⟨0, none, 0, []⟩ :=
        ⟨Nat.zero_le _, rfl, fun _ h => nomatch h⟩
      have hsound : r.Sound numOps := readOps_induction (fun _ _ _ _ _ hs hop => hs.readOp hop)
        hstart hrun
      have hlt := numOps.toInt_lt
      have hroom := hsound.room
      refine ⟨Int32.le_iff_toInt_le.mp (Int32.not_lt.mp hids), ?_, ?_, hsound.size_free⟩
      · show r.ops.length < 2 ^ 31
        omega
      · exact hsound.maxIndex_eq.symm.trans (not_not.mp hmax)

theorem readTrace_text {t : Trace} (ht : t.Readable) (suggHeapsize weight : ℕ) :
    readTrace (t.text suggHeapsize weight) = .ok t := by
  have hops : (valueD (decimal t.ops.length)).toInt = t.ops.length := by
    have hlt := ht.numOps
    rw [valueD, numeralValue_decimal, Int32.toInt_ofInt_of_le (by omega) (by omega)]
  have hcount : (valueD (decimal t.ops.length)).toUInt32 = UInt32.ofNat t.ops.length := by
    rw [valueD, numeralValue_decimal, Int32.ofInt_eq_ofNat]
    rfl
  have hids : valueD (decimal t.numIds.toInt.toNat) = t.numIds := valueD_decimal ht.numIds
  have hpos : ¬ t.numIds < 0 := Int32.not_lt.mpr (Int32.le_iff_toInt_le.mpr ht.numIds)
  have hnum : ¬ valueD (decimal t.ops.length) < 0 := by
    rw [Int32.lt_iff_toInt_lt, hops]
    exact not_lt.mpr (Int.natCast_nonneg _)
  have h1 : readInt (t.text suggHeapsize weight) = _ := readInt_decimal _ _ (List.forall_mem_nil _)
  have h2 : readInt ('\n' :: (decimal t.numIds.toInt.toNat ++ '\n' :: (decimal t.ops.length ++
      '\n' :: (decimal weight ++ '\n' :: lines t.ops)))) = _ :=
    readInt_decimal _ _ forall_newline
  have h3 : readInt ('\n' :: (decimal t.ops.length ++
      '\n' :: (decimal weight ++ '\n' :: lines t.ops))) = _ := readInt_decimal _ _ forall_newline
  have h4 : readInt ('\n' :: (decimal weight ++ '\n' :: lines t.ops)) = _ :=
    readInt_decimal _ _ forall_newline
  have hroom : 0 + t.ops.length ≤ (valueD (decimal t.ops.length)).toInt.toNat := by
    rw [hops]
    omega
  obtain ⟨r, hrun, hr, hmax⟩ :=
    @readOps_lines (valueD (decimal t.ops.length)) t.ops ht.size_free ⟨0, none, 0, []⟩ hroom
  rw [List.nil_append] at hr
  unfold readTrace
  rw [h1]
  dsimp only
  rw [h2]
  dsimp only
  rw [h3]
  dsimp only
  rw [h4]
  dsimp only
  rw [if_neg hnum, hids, if_neg hpos, hrun]
  show (if r.maxIndex ≠ (t.numIds - 1).toUInt32 then _ else
    if (valueD (decimal t.ops.length)).toUInt32 ≠ UInt32.ofNat r.ops.length then _ else
      (.ok ⟨t.numIds, r.ops⟩ : Except TraceError Trace)) = _
  rw [if_neg (not_not.mpr (hmax.trans ht.maxIndex_eq)), hr, if_neg (not_not.mpr hcount)]

/-- Writing a trace and reading it back gives the trace, and files give no others than those that
can be written so. -/
theorem readTrace_roundTrip {t : Trace} :
    (t.Readable → ∀ suggHeapsize weight, readTrace (t.text suggHeapsize weight) = .ok t) ∧
      ∀ s, readTrace s = .ok t → t.Readable :=
  ⟨readTrace_text, fun _ => readable_of_readTrace⟩

/-- The file `short1-bal.rep`. -/
def short1Bal : Trace :=
  ⟨6, [⟨.alloc, 0, 2040⟩, ⟨.alloc, 1, 2040⟩, ⟨.free, 1, 0⟩, ⟨.alloc, 2, 48⟩, ⟨.alloc, 3, 4072⟩,
    ⟨.free, 3, 0⟩, ⟨.alloc, 4, 4072⟩, ⟨.free, 0, 0⟩, ⟨.free, 2, 0⟩, ⟨.alloc, 5, 4072⟩,
    ⟨.free, 4, 0⟩, ⟨.free, 5, 0⟩]⟩

theorem readTrace_short1Bal : readTrace ("20000\n6\n12\n1\na 0 2040\na 1 2040\nf 1\na 2 48\n" ++
    "a 3 4072\nf 3\na 4 4072\nf 0\nf 2\na 5 4072\nf 4\nf 5\n").toList = .ok short1Bal := by
  have htext : short1Bal.text 20000 1 = ("20000\n6\n12\n1\na 0 2040\na 1 2040\nf 1\na 2 48\n" ++
      "a 3 4072\nf 3\na 4 4072\nf 0\nf 2\na 5 4072\nf 4\nf 5\n").toList := by decide +kernel
  have hread : short1Bal.Readable := ⟨by decide, by decide, by decide, by decide⟩
  rw [← htext]
  exact readTrace_roundTrip.1 hread 20000 1

end Orga.Malloc
