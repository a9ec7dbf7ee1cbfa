import Orga.Recode.WholeText

/-! The calls of `read_codepoint` that `orig_to_ucs4` makes on one buffer: what each was
given, what it says it consumed and where it stored. -/
namespace Orga.Recode

/-- One call: the index of `destbuf` it is given, its code point, the bytes still available and the
bytes it says it consumed. -/
structure Call where
  index : ℕ
  point : UInt32
  available : ℕ
  returned : ℕ
  deriving DecidableEq, Repr

/-- The stores of a call. `*dest = codepoint` follows all branches of `read_codepoint`, also those
that return 0. -/
def Call.stores (c : Call) : List (ℕ × UInt32) := [(c.index, c.point)]

/-- The calls of `orig_to_ucs4` from index `i` of `destbuf` on, and the final `*nbytes`. -/
inductive Calls (enc : Encoding) : List UInt8 → ℕ → ℕ → List Call → ℕ → Prop where
  | stop {buf : List UInt8} {nbytes i : ℕ} {cp : UInt32}
      (hread : readCodepoint enc buf nbytes = some (cp, 0)) :
      Calls enc buf nbytes i [⟨i, cp, nbytes, 0⟩] nbytes
  | next {buf : List UInt8} {nbytes i b left : ℕ} {cp : UInt32} {cs : List Call}
      (hread : readCodepoint enc buf nbytes = some (cp, b)) (hb : 0 < b)
      (hrest : Calls enc (buf.drop b) (sizeSub nbytes b) (i + 1) cs left) :
      Calls enc buf nbytes i (⟨i, cp, nbytes, b⟩ :: cs) left

namespace Calls
variable {enc : Encoding} {buf : List UInt8} {nbytes i left : ℕ} {cs : List Call}

theorem ne_nil (h : Calls enc buf nbytes i cs left) : cs ≠ [] := by
  cases h <;> simp

theorem unique (h : Calls enc buf nbytes i cs left) {cs' : List Call} {left' : ℕ}
    (h' : Calls enc buf nbytes i cs' left') : cs = cs' ∧ left = left' := by
  induction h generalizing cs' left' with
  | stop hread =>
    cases h' with
    | stop hread' =>
      cases hread.symm.trans hread'
      exact ⟨rfl, rfl⟩
    | next hread' hb _ =>
      cases hread.symm.trans hread'
      exact absurd hb (by omega)
  | next hread hb _ ih =>
    cases h' with
    | stop hread' =>
      cases hread.symm.trans hread'
      exact absurd hb (by omega)
    | next hread' _ hrest' =>
      cases hread.symm.trans hread'
      obtain ⟨rfl, rfl⟩ := ih hrest'
      exact ⟨rfl, rfl⟩

/-- The calls give the result of `orig_to_ucs4` when `destbuf` has an entry for each. -/
theorem origToUcs4 (h : Calls enc buf nbytes i cs left) {room : ℕ} (hroom : cs.length ≤ room) :
    origToUcs4 enc buf nbytes room = some (cs.dropLast.map Call.point, left) := by
  induction h generalizing room with
  | stop hread =>
    obtain ⟨room, rfl⟩ : ∃ k, room = k + 1 := ⟨room - 1, by simp at hroom; omega⟩
    rw [Recode.origToUcs4, hread]
    rfl
  | @next buf nbytes i b left cp cs hread hb hrest ih =>
    obtain ⟨room, rfl⟩ : ∃ k, room = k + 1 := ⟨room - 1, by simp at hroom; omega⟩
    rw [List.length_cons] at hroom
    have hdrop := List.dropLast_cons_of_ne_nil (x := ⟨i, cp, nbytes, b⟩) hrest.ne_nil
    rw [Recode.origToUcs4, hread, hdrop]
    simp only [Option.bind_eq_bind, Option.bind_some, gt_iff_lt, hb, if_true,
      ih (show cs.length ≤ room by omega)]
    rfl

theorem index_eq (h : Calls enc buf nbytes i cs left) :
    cs.map Call.index = List.range' i cs.length := by
  induction h with
  | stop => rfl
  | next _ _ _ ih => rw [List.map_cons, ih, List.length_cons, List.range'_succ]

theorem last (h : Calls enc buf nbytes i cs left) :
    ∃ pre c, cs = pre ++ [c] ∧ c.index = i + pre.length ∧ c.returned = 0 := by
  induction h with
  | stop => exact ⟨[], _, rfl, rfl, rfl⟩
  | next _ _ _ ih =>
    obtain ⟨pre, c, rfl, hindex, hreturned⟩ := ih
    exact ⟨_ :: pre, c, rfl, by rw [hindex, List.length_cons]; omega, hreturned⟩

end Calls

/-- What the loop must satisfy on `nbytes` bytes. -/
structure Frugal (nbytes : ℕ) (cs : List Call) (left : ℕ) : Prop where
  within : ∀ c ∈ cs, c.returned ≤ c.available
  iterations : cs.length ≤ nbytes + 1
  consumed : (cs.map Call.returned).sum + left = nbytes
  leftover : left ≤ 3

/-- Decoding `nbytes` bytes of `buf` ends and claims no byte beyond them. -/
def NeverOverclaims (enc : Encoding) (buf : List UInt8) (nbytes : ℕ) : Prop :=
  ∃ cs left, Calls enc buf nbytes 0 cs left ∧ Frugal nbytes cs left

namespace Frugal
variable {nbytes i b left : ℕ} {cp : UInt32} {cs : List Call}

theorem stop (hn : nbytes ≤ 3) : Frugal nbytes [⟨i, cp, nbytes, 0⟩] nbytes :=
  ⟨by simp, by simp, by simp, hn⟩

theorem next (hf : Frugal (nbytes - b) cs left) (hb : 0 < b) (hle : b ≤ nbytes) :
    Frugal nbytes (⟨i, cp, nbytes, b⟩ :: cs) left where
  within := by
    intro c hc
    rcases List.mem_cons.mp hc with rfl | hc
    · exact hle
    · exact hf.within c hc
  iterations := by
    have := hf.iterations
    rw [List.length_cons]
    omega
  consumed := by
    have := hf.consumed
    rw [List.map_cons, List.sum_cons]
    dsimp only
    omega
  leftover := hf.leftover

end Frugal

/-- UTF-16 and UTF-32 check the count before they read. -/
theorem calls_wide {enc : Encoding} (hw : enc.wide = true) {buf : List UInt8} {nbytes : ℕ}
    (hn : nbytes ≤ buf.length) (i : ℕ) :
    ∃ cs left, Calls enc buf nbytes i cs left ∧ Frugal nbytes cs left := by
  induction nbytes using Nat.strongRecOn generalizing buf i with
  | ind nbytes ih =>
    obtain ⟨cp, k, hread, hle, -, hfour⟩ := read_wide hw hn
    rcases Nat.eq_zero_or_pos k with rfl | hk
    · have hfew : nbytes ≤ 3 := by
        by_contra hmany
        exact hfour (by omega) rfl
      exact ⟨_, _, .stop hread, .stop hfew⟩
    · have hdrop : nbytes - k ≤ (buf.drop k).length := by
        rw [List.length_drop]
        omega
      obtain ⟨cs, left, hcalls, hf⟩ := ih (nbytes - k) (by omega) hdrop (i + 1)
      rw [← sizeSub_of_le hle] at hcalls
      exact ⟨_, _, .next hread hk hcalls, hf.next hk hle⟩

/-- The lengths announced by the first bytes add up to the whole buffer. -/
inductive Complete : List UInt8 → Prop where
  | nil : Complete []
  | cons {b0 : UInt8} {tail : List UInt8} (hlen : utf8Length b0 ≤ (b0 :: tail).length)
      (hrest : Complete ((b0 :: tail).drop (utf8Length b0))) : Complete (b0 :: tail)

theorem utf8Length_pos (b0 : UInt8) : 0 < utf8Length b0 := by
  unfold utf8Length
  split_ifs <;> decide

theorem read_utf8_whole {b0 : UInt8} {tail : List UInt8} {n : ℕ} (hn : 0 < n)
    (h : utf8Length b0 ≤ tail.length + 1) :
    ∃ cp, readCodepoint .utf8 (b0 :: tail) n = some (cp, utf8Length b0) := by
  cases hread : readCodepoint .utf8 (b0 :: tail) n with
  | some r =>
    obtain ⟨cp, k⟩ := r
    obtain rfl := utf8Length_of_read hn hread
    exact ⟨cp, rfl⟩
  | none =>
    exfalso
    unfold utf8Length at h
    split_ifs at h with h1 h2 h3
    · simp [readCodepoint, hn, h1] at hread
    · rcases tail with _ | ⟨b1, tail⟩
      · simp at h
      · simp [read_utf8_2 hn h1 h2] at hread
    · rcases tail with _ | ⟨b1, _ | ⟨b2, tail⟩⟩
      · simp at h
      · simp at h
      · simp [read_utf8_3 hn h1 h2 h3] at hread
    · rcases tail with _ | ⟨b1, _ | ⟨b2, _ | ⟨b3, tail⟩⟩⟩
      · simp at h
      · simp at h
      · simp at h
      · simp [read_utf8_4 hn h1 h2 h3] at hread

theorem calls_utf8 {buf : List UInt8} {nbytes : ℕ} (hn : nbytes ≤ buf.length)
    (hc : Complete (buf.take nbytes)) (i : ℕ) :
    ∃ cs left, Calls .utf8 buf nbytes i cs left ∧ Frugal nbytes cs left := by
  generalize htake : buf.take nbytes = bytes at hc
  induction hc generalizing buf nbytes i with
  | nil =>
    have hzero : nbytes = 0 := by
      have hlen := congrArg List.length htake
      rw [List.length_take, List.length_nil] at hlen
      omega
    subst hzero
    exact ⟨_, _, .stop (readCodepoint_zero .utf8 buf), .stop (by omega)⟩
  | @cons b0 tail hlen _ ih =>
    have hcount : (b0 :: tail).length = nbytes := by
      rw [← htake, List.length_take]
      omega
    have hbuf : buf = b0 :: (tail ++ buf.drop nbytes) := by
      rw [← List.cons_append, ← htake, List.take_append_drop]
    have hpos := utf8Length_pos b0
    rw [List.length_cons] at hcount hlen
    have hneed : utf8Length b0 ≤ (tail ++ buf.drop nbytes).length + 1 := by
      rw [List.length_append]
      omega
    have hsome : 0 < nbytes := by omega
    obtain ⟨cp, hread⟩ := read_utf8_whole hsome hneed
    rw [← hbuf] at hread
    have hrest : (buf.drop (utf8Length b0)).take (nbytes - utf8Length b0) =
        (b0 :: tail).drop (utf8Length b0) := by
      rw [← htake, List.drop_take]
    have hdrop : nbytes - utf8Length b0 ≤ (buf.drop (utf8Length b0)).length := by
      rw [List.length_drop]
      omega
    obtain ⟨cs, left, hcalls, hf⟩ := ih hdrop (i + 1) hrest
    rw [← sizeSub_of_le (show utf8Length b0 ≤ nbytes by omega)] at hcalls
    exact ⟨_, _, .next hread hpos hcalls, hf.next hpos (by omega)⟩

/-- A run that claims no more than it was given went from sequence to sequence. -/
theorem Calls.complete {buf : List UInt8} {nbytes i left : ℕ} {cs : List Call}
    (h : Calls .utf8 buf nbytes i cs left) (hn : nbytes ≤ buf.length)
    (hwithin : ∀ c ∈ cs, c.returned ≤ c.available) : Complete (buf.take nbytes) := by
  generalize henc : Encoding.utf8 = enc at h
  induction h with
  | @stop buf nbytes i cp hread =>
    subst henc
    rcases Nat.eq_zero_or_pos nbytes with rfl | hpos
    · exact .nil
    · obtain ⟨b0, tail, rfl⟩ := List.exists_cons_of_length_pos (lt_of_lt_of_le hpos hn)
      have hlen := utf8Length_of_read hpos hread
      exact absurd (utf8Length_pos b0) (by omega)
  | @next buf nbytes i b left cp cs hread hb hrest ih =>
    subst henc
    have hle : b ≤ nbytes := hwithin ⟨i, cp, nbytes, b⟩ List.mem_cons_self
    obtain ⟨b0, tail, rfl⟩ := List.exists_cons_of_length_pos (show 0 < buf.length by omega)
    obtain rfl := utf8Length_of_read (show 0 < nbytes by omega) hread
    rw [sizeSub_of_le hle] at ih
    have hrest' := ih (by rw [List.length_drop]; omega)
      (fun c hc => hwithin c (List.mem_cons_of_mem _ hc))
    obtain ⟨k, rfl⟩ : ∃ k, nbytes = k + 1 := ⟨nbytes - 1, by omega⟩
    rw [← List.drop_take, List.take_succ_cons] at hrest'
    rw [List.take_succ_cons]
    refine .cons ?_ hrest'
    rw [List.length_cons, List.length_take]
    rw [List.length_cons] at hn
    omega

/-- Decoding claims only what it was given, except when UTF-8 is cut inside a sequence. -/
theorem neverOverclaims_iff {enc : Encoding} (henc : enc ≠ .unknown) {buf : List UInt8}
    {nbytes : ℕ} (hn : nbytes ≤ buf.length) :
    NeverOverclaims enc buf nbytes ↔ (enc = .utf8 → Complete (buf.take nbytes)) := by
  constructor
  · rintro ⟨cs, left, hcalls, hf⟩ rfl
    exact hcalls.complete hn hf.within
  · intro hc
    cases enc with
    | utf8 => exact calls_utf8 hn (hc rfl) 0
    | unknown => exact absurd rfl henc
    | utf16be => exact calls_wide rfl hn 0
    | utf16le => exact calls_wide rfl hn 0
    | utf32be => exact calls_wide rfl hn 0
    | utf32le => exact calls_wide rfl hn 0

theorem neverOverclaims_sample :
    NeverOverclaims .utf16be [0, 0x41, 0xD8] 3 ↔
      (Encoding.utf16be = .utf8 → Complete (([0, 0x41, 0xD8] : List UInt8).take 3)) :=
  neverOverclaims_iff (by decide) (by decide)

/-- The first byte of a sequence of three, and what an earlier read left behind it. -/
theorem overclaims_cut : ¬ NeverOverclaims .utf8 [0xE2, 0x82, 0xAC] 1 := by
  rintro ⟨cs, left, hcalls, hf⟩
  have hc := hcalls.complete (by decide) hf.within
  cases hc with
  | cons hlen _ => exact absurd hlen (by decide)

theorem calls_append {enc : Encoding} (henc : enc ≠ .unknown) {points : List UInt32}
    (hpoints : ∀ cp ∈ points, Scalar cp) {rest : List UInt8} {n i left : ℕ} {cs : List Call}
    (h : Calls enc rest n (i + points.length) cs left) :
    ∃ pre, pre.map Call.point = points ∧
      Calls enc (ucs4ToDest enc points ++ rest) ((ucs4ToDest enc points).length + n) i (pre ++ cs)
        left := by
  induction points generalizing i with
  | nil =>
    refine ⟨[], rfl, ?_⟩
    simpa [ucs4ToDest] using h
  | cons cp points ih =>
    rw [List.length_cons, show i + (points.length + 1) = i + 1 + points.length by omega] at h
    obtain ⟨pre, hpre, hcalls⟩ := ih (fun c hc => hpoints c (by simp [hc])) h
    have hpos := writeCodepoint_length_pos henc cp
    have hread := readCodepoint_writeCodepoint (n := (ucs4ToDest enc (cp :: points)).length + n)
      (ucs4ToDest enc points ++ rest) henc (hpoints cp (by simp))
      (by rw [ucs4ToDest, List.length_append]; omega)
    rw [← List.append_assoc] at hread
    refine ⟨_ :: pre, ?_, .next hread hpos ?_⟩
    · rw [List.map_cons, hpre]
    · rw [ucs4ToDest, List.append_assoc, List.drop_left, List.length_append,
        sizeSub_of_le (by omega),
        show (writeCodepoint enc cp).length + (ucs4ToDest enc points).length + n -
          (writeCodepoint enc cp).length = (ucs4ToDest enc points).length + n by omega]
      exact hcalls

/-- Only entries below `nbytes` are stored to, and none at or after the returned count. -/
def StaysInside (enc : Encoding) (buf : List UInt8) (nbytes : ℕ) : Prop :=
  ∃ cs left, Calls enc buf nbytes 0 cs left ∧ (∀ s ∈ cs.flatMap Call.stores, s.1 < nbytes) ∧
    ∀ s ∈ cs.flatMap Call.stores, s.1 < cs.dropLast.length

theorem stores_lt {cs : List Call} {n : ℕ} :
    (∀ s ∈ cs.flatMap Call.stores, s.1 < n) ↔ ∀ c ∈ cs, c.index < n := by
  simp only [List.mem_flatMap, Call.stores, List.mem_singleton]
  constructor
  · intro h c hc
    exact h _ ⟨c, hc, rfl⟩
  · rintro h s ⟨c, hc, rfl⟩
    exact h c hc

/-- Whatever the buffer, the call that ends the loop stores at the returned count. -/
theorem not_staysInside (enc : Encoding) (buf : List UInt8) (nbytes : ℕ) :
    ¬ StaysInside enc buf nbytes := by
  rintro ⟨cs, left, h, -, hbelow⟩
  obtain ⟨pre, c, rfl, hindex, -⟩ := h.last
  have hlt := stores_lt.mp hbelow c (by simp)
  rw [List.dropLast_concat, hindex] at hlt
  omega

/-- On a text the call that ends the loop stores 0 behind the code points. That entry lies
below `nbytes` unless each code point took one byte. -/
theorem calls_text {enc : Encoding} (henc : enc ≠ .unknown) {points : List UInt32}
    (hpoints : ∀ cp ∈ points, Scalar cp) (junk : List UInt8) :
    ¬ StaysInside enc (ucs4ToDest enc points ++ junk) (ucs4ToDest enc points).length ∧
    ∃ pre c, Calls enc (ucs4ToDest enc points ++ junk) (ucs4ToDest enc points).length 0
        (pre ++ [c]) 0 ∧
      pre.map Call.point = points ∧ c = ⟨points.length, 0, 0, 0⟩ ∧
      ((∀ s ∈ (pre ++ [c]).flatMap Call.stores, s.1 < (ucs4ToDest enc points).length) ↔
        points.length < (ucs4ToDest enc points).length) := by
  refine ⟨not_staysInside enc _ _, ?_⟩
  have hstop : Calls enc junk 0 (0 + points.length) [⟨0 + points.length, 0, 0, 0⟩] 0 :=
    .stop (readCodepoint_zero enc junk)
  obtain ⟨pre, hpre, hcalls⟩ := calls_append henc hpoints hstop
  rw [Nat.add_zero, Nat.zero_add] at hcalls
  refine ⟨pre, _, hcalls, hpre, rfl, ?_⟩
  have hcount : pre.length = points.length := by rw [← hpre, List.length_map]
  have hindex := hcalls.index_eq
  rw [stores_lt]
  constructor
  · intro hall
    exact hall ⟨points.length, 0, 0, 0⟩ (by simp)
  · intro hlt d hd
    have hmem := List.mem_map_of_mem (f := Call.index) hd
    rw [hindex, List.length_append, List.length_singleton, List.mem_range'_1] at hmem
    omega

theorem calls_text_sample :
    ¬ StaysInside .utf8 (ucs4ToDest .utf8 [0x41] ++ []) (ucs4ToDest .utf8 [0x41]).length ∧
    ∃ pre c, Calls .utf8 (ucs4ToDest .utf8 [0x41] ++ []) (ucs4ToDest .utf8 [0x41]).length 0
        (pre ++ [c]) 0 ∧
      pre.map Call.point = [0x41] ∧ c = ⟨1, 0, 0, 0⟩ ∧
      ((∀ s ∈ (pre ++ [c]).flatMap Call.stores, s.1 < (ucs4ToDest .utf8 [0x41]).length) ↔
        1 < (ucs4ToDest .utf8 [0x41]).length) :=
  calls_text (by decide) (by simp [Scalar]) []

/-- One letter fills a buffer of one byte, and the loop stores to entries 0 and 1. -/
theorem stores_beyond : Calls .utf8 [0x41] 1 0 [⟨0, 0x41, 1, 1⟩, ⟨1, 0, 0, 0⟩] 0 ∧
    ¬ StaysInside .utf8 [0x41] 1 :=
  ⟨.next (by decide) (by decide) (.stop (by decide)), not_staysInside _ _ _⟩

end Orga.Recode
