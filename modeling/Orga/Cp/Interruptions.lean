import Orga.Cp.Copyfd

/-! When `copyfd` keeps its promise. `errno` stays `EINTR` after the first interruption, and the
loop writes nothing from then on. -/
namespace Orga.Cp
open Orga.Loop

@[simp] theorem bytesIn_append (xs ys : List Event) :
    bytesIn (xs ++ ys) = bytesIn xs ++ bytesIn ys :=
  List.flatMap_append

@[simp] theorem bytesOut_append (xs ys : List Event) :
    bytesOut (xs ++ ys) = bytesOut xs ++ bytesOut ys :=
  List.flatMap_append

@[simp] theorem bytesIn_read (bytes : List UInt8) : bytesIn [.read bytes] = bytes :=
  List.append_nil _

@[simp] theorem bytesOut_written (bytes : List UInt8) : bytesOut [.written bytes] = bytes :=
  List.append_nil _

@[simp] theorem bytesIn_written (bytes : List UInt8) : bytesIn [.written bytes] = [] := rfl
@[simp] theorem bytesOut_read (bytes : List UInt8) : bytesOut [.read bytes] = [] := rfl
@[simp] theorem bytesIn_readFailure (e : ℕ) : bytesIn [.readFailure e] = [] := rfl
@[simp] theorem bytesOut_readFailure (e : ℕ) : bytesOut [.readFailure e] = [] := rfl

theorem bytesOf_fill (buf : ℕ → UInt8) (bytes : List UInt8) :
    bytesOf (fill buf bytes) bytes.length = bytes := by
  refine List.ext_getElem (by simp [bytesOf]) fun i _ hi => ?_
  simp [bytesOf, fill, hi]

theorem toSize_natCast {n : ℕ} (h : n < 2 ^ 64) : toSize n = n := by
  rw [toSize, Int.emod_eq_of_lt (by omega) (by omega), Int.toNat_natCast]

section Copy
variable {d : Descriptors} {size : UInt64} {i e : ℕ} {s : Copy}

/-- The state knows where the calls of `read` stand. -/
structure Copy.After (d : Descriptors) (size : UInt64) (i : ℕ) (s : Copy) : Prop where
  reads : s.reads = i
  rest : s.rest = d.left size i

/-- Something was read and will not be written, or a failure was passed over. -/
def Copy.Spoiled (s : Copy) : Prop :=
  (∃ e ∈ s.events, e.Stops) ∨
    s.errno = eintr ∧ (bytesOut s.events).length < (bytesIn s.events).length

theorem read_got {n : ℕ} (hs : s.After d size i) (h : d.reading size i = .got n) :
    s.read d size =
      { s with
        bytesRead := n
        buf := fill s.buf ((d.left size i).take n)
        rest := d.left size (i + 1)
        reads := i + 1
        events := s.events ++ [.read ((d.left size i).take n)] } := by
  have hreading : d.read s.reads (min size.toNat s.rest.length) = .got n := by
    rw [hs.reads, hs.rest]
    exact h
  have hleft : d.left size (i + 1) = (d.left size i).drop n := by
    rw [Descriptors.reading] at h
    rw [Descriptors.left, h]
  rw [Copy.read, hreading, hleft, hs.rest, hs.reads]

theorem read_fails (hs : s.After d size i) (h : d.reading size i = .fails e) :
    s.read d size =
      { s with
        bytesRead := -1
        errno := e
        rest := d.left size (i + 1)
        reads := i + 1
        events := s.events ++ [.readFailure e] } := by
  have hreading : d.read s.reads (min size.toNat s.rest.length) = .fails e := by
    rw [hs.reads, hs.rest]
    exact h
  have hleft : d.left size (i + 1) = d.left size i := by
    rw [Descriptors.reading] at h
    rw [Descriptors.left, h]
  rw [Copy.read, hreading, hleft, hs.reads, ← hs.rest]

theorem readOn_eof (hs : s.After d size i) (h : d.reading size i = .got 0) :
    s.readOn d size = .inr ⟨0, s.events ++ [.read []]⟩ := by
  rw [Copy.readOn, read_got hs h]
  simp

theorem readOn_got {n : ℕ} (hs : s.After d size i) (h : d.reading size i = .got n) (hn : n ≠ 0) :
    s.readOn d size = .inl (s.read d size) := by
  rw [Copy.readOn, read_got hs h]
  simp [hn]

theorem readOn_fails (hs : s.After d size i) (h : d.reading size i = .fails e) :
    s.readOn d size = .inl (s.read d size) := by
  rw [Copy.readOn, read_fails hs h]
  rfl

theorem Copy.Spoiled.not_balanced (h : s.Spoiled) : ¬ Balanced s.events := by
  rintro ⟨hclean, hsame⟩
  obtain ⟨ev, hmem, hstops⟩ | ⟨-, hlt⟩ := h
  · exact hclean ev hmem hstops
  · rw [hsame] at hlt
    exact Nat.lt_irrefl _ hlt

theorem Copy.Spoiled.read (h : s.Spoiled) : (s.read d size).Spoiled := by
  rw [Copy.read]
  cases d.read s.reads (min size.toNat s.rest.length) with
  | got n =>
    obtain ⟨ev, hmem, hstops⟩ | ⟨herrno, hlt⟩ := h
    · exact Or.inl ⟨ev, List.mem_append_left _ hmem, hstops⟩
    · refine Or.inr ⟨herrno, ?_⟩
      simp only [bytesOut_append, bytesOut_read, bytesIn_append, bytesIn_read, List.length_append,
        List.length_nil]
      omega
  | fails e =>
    obtain ⟨ev, hmem, hstops⟩ | ⟨herrno, hlt⟩ := h
    · exact Or.inl ⟨ev, List.mem_append_left _ hmem, hstops⟩
    · by_cases he : e = eintr
      · exact Or.inr ⟨he, by simpa using hlt⟩
      · exact Or.inl ⟨.readFailure e, by simp, he⟩

theorem readOn_inr {r : CopyReturn} (h : s.readOn d size = .inr r) :
    ∃ events, r = ⟨0, events ++ [.read []]⟩ ∧ (s.read d size).events = events ++ [.read []] := by
  rw [Copy.readOn] at h
  by_cases hzero : (s.read d size).bytesRead = 0
  · rw [if_neg (not_not.mpr hzero)] at h
    cases h
    rw [Copy.read] at hzero ⊢
    cases hread : d.read s.reads (min size.toNat s.rest.length) with
    | got n =>
      rw [hread] at hzero
      obtain rfl : n = 0 := Int.natCast_eq_zero.mp hzero
      exact ⟨s.events, rfl, rfl⟩
    | fails e =>
      rw [hread] at hzero
      cases hzero
  · rw [if_pos hzero] at h
    cases h

theorem Copy.Spoiled.readOn (h : s.Spoiled) :
    (∀ s', s.readOn d size = .inl s' → s'.Spoiled) ∧
      ∀ r, s.readOn d size = .inr r → ¬ r.Kept := by
  have hread : (s.read d size).Spoiled := h.read
  refine ⟨fun s' hs' => ?_, fun r hr => ?_⟩
  · rw [Copy.readOn] at hs'
    split_ifs at hs'
    cases hs'
    exact hread
  · obtain ⟨events, rfl, hevents⟩ := readOn_inr hr
    rw [kept_iff, ← hevents]
    exact hread.not_balanced

theorem writeall_events : ∃ ev, (s.writeall d).2.events = s.events ++ [ev] := by
  rw [Copy.writeall]
  cases d.writeall s.writes (toSize s.bytesRead) with
  | complete interrupted => exact ⟨_, rfl⟩
  | incomplete n e => exact ⟨_, rfl⟩

theorem copyfdStep_eintr (h : s.errno = eintr) : copyfdStep d size s = s.readOn d size := by
  simp [copyfdStep, h]

theorem copyfdStep_ne (h : s.errno ≠ eintr) : copyfdStep d size s =
    Copy.readOn d size
      { (s.writeall d).2 with count := (s.writeall d).2.count + (s.writeall d).1 } := by
  rw [copyfdStep, if_pos h]

theorem Copy.Spoiled.step (h : s.Spoiled) :
    (∀ s', copyfdStep d size s = .inl s' → s'.Spoiled) ∧
      ∀ r, copyfdStep d size s = .inr r → ¬ r.Kept := by
  by_cases herrno : s.errno = eintr
  · rw [copyfdStep_eintr herrno]
    exact h.readOn
  · obtain ⟨ev, hmem, hstops⟩ := h.resolve_right fun hlost => herrno hlost.1
    obtain ⟨ev', hevents⟩ := writeall_events (d := d) (s := s)
    rw [copyfdStep_ne herrno]
    refine Copy.Spoiled.readOn (Or.inl ⟨ev, ?_, hstops⟩)
    rw [hevents]
    exact List.mem_append_left _ hmem

/-- A copy that has lost bytes or passed over a failure does not keep its promise any more. -/
theorem Copy.Spoiled.not_kept {r : CopyReturn} (h : s.Spoiled)
    (hr : Returns (copyfdStep d size) s r) : ¬ r.Kept :=
  hr.of_invariant (I := Copy.Spoiled) (fun _ _ hs => hs.step.1 _) (fun _ _ hs => hs.step.2 _) h

/-- At the head of the loop after the call `i` of `read` got bytes, with no interruption so far. -/
structure Copy.Live (d : Descriptors) (size : UInt64) (i n : ℕ) (s : Copy) : Prop where
  after : s.After d size (i + 1)
  reading : d.reading size i = .got n
  bytesRead : s.bytesRead = n
  buf : bytesOf s.buf n = (d.left size i).take n
  errno : s.errno ≠ eintr
  writes : s.writes = i
  clean : ∀ ev ∈ s.events, ¬ ev.Stops
  pending : bytesIn s.events = bytesOut s.events ++ (d.left size i).take n

/-- At the head of the loop after the call `i` of `read`, interrupted with nothing left to write. -/
structure Copy.Idle (d : Descriptors) (size : UInt64) (i : ℕ) (s : Copy) : Prop where
  after : s.After d size (i + 1)
  errno : s.errno = eintr
  balanced : Balanced s.events

theorem got_le_size {n : ℕ} (h : d.reading size i = .got n) :
    n ≤ (d.left size i).length ∧ n < 2 ^ 64 := by
  have hle := (d.got_le _ _ _ h).1
  have hsize := size.toNat_lt
  omega

theorem Balanced.append {events : List Event} {ev : Event} (h : Balanced events)
    (hclean : ¬ ev.Stops) (hsame : bytesOut [ev] = bytesIn [ev]) : Balanced (events ++ [ev]) := by
  refine ⟨fun e he => ?_, ?_⟩
  · obtain he | he := List.mem_append.mp he
    · exact h.1 e he
    · rwa [List.mem_singleton.mp he]
  · rw [bytesOut_append, bytesIn_append, h.2, hsame]

section Next
variable (hs : s.After d size i) (hbal : Balanced s.events)
include hs hbal

theorem live_of_got {n : ℕ} (h : d.reading size i = .got n) (herrno : s.errno ≠ eintr)
    (hwrites : s.writes = i) : (s.read d size).Live d size i n := by
  have hlen : ((d.left size i).take n).length = n := by
    rw [List.length_take]
    exact Nat.min_eq_left (got_le_size h).1
  rw [read_got hs h]
  refine ⟨⟨rfl, rfl⟩, h, rfl, ?_, herrno, hwrites, ?_, ?_⟩
  · have hfill := bytesOf_fill s.buf ((d.left size i).take n)
    rwa [hlen] at hfill
  · intro ev hev
    obtain hev | hev := List.mem_append.mp hev
    · exact hbal.1 ev hev
    · rw [List.mem_singleton.mp hev]
      exact id
  · simp [hbal.2]

theorem spoiled_of_got {n : ℕ} (h : d.reading size i = .got n) (hn : n ≠ 0)
    (herrno : s.errno = eintr) : (s.read d size).Spoiled := by
  have hle := (got_le_size h).1
  rw [read_got hs h]
  refine Or.inr ⟨herrno, ?_⟩
  simp [hbal.2, List.length_take]
  omega

theorem idle_of_fails (h : d.reading size i = .fails eintr) : (s.read d size).Idle d size i := by
  rw [read_fails hs h]
  exact ⟨⟨rfl, rfl⟩, rfl, hbal.append (fun hne => hne rfl) rfl⟩

omit hbal in
theorem spoiled_of_fails (h : d.reading size i = .fails e) (he : e ≠ eintr) :
    (s.read d size).Spoiled := by
  rw [read_fails hs h]
  exact Or.inl ⟨.readFailure e, by simp, he⟩

end Next

/-- The write of the bytes of the call `i`, up to the next call of `read`. -/
theorem Copy.Live.step {n : ℕ} {b : Bool} (h : s.Live d size i n)
    (hwrite : d.writeall i n = .complete b) :
    ∃ t : Copy, copyfdStep d size s = t.readOn d size ∧ t.After d size (i + 1) ∧
      Balanced t.events ∧ (t.errno = eintr ↔ b = true) ∧ t.writes = i + 1 := by
  have hsize : toSize s.bytesRead = n := by
    rw [h.bytesRead, toSize_natCast (got_le_size h.reading).2]
  have hevents : Balanced (s.events ++ [.written (bytesOf s.buf n)]) := by
    refine ⟨fun ev hev => ?_, ?_⟩
    · obtain hev | hev := List.mem_append.mp hev
      · exact h.clean ev hev
      · rw [List.mem_singleton.mp hev]
        exact id
    · simp [h.pending, h.buf]
  refine ⟨_, copyfdStep_ne h.errno, ?_⟩
  rw [Copy.writeall, hsize, h.writes, hwrite]
  refine ⟨⟨h.after.reads, h.after.rest⟩, hevents, ?_, rfl⟩
  cases b with
  | true => simp
  | false => simpa using h.errno

theorem Copy.Live.complete {n : ℕ} (hs : s.Live d size i n) (h : d.Smooth size i e) :
    ∃ b, d.writeall i n = .complete b := by
  obtain hfails | ⟨m, b, hgot, hcomplete⟩ := h.served i (Nat.le_refl i) h.lt
  · cases hs.reading.symm.trans hfails
  · cases hs.reading.symm.trans hgot
    exact ⟨b, hcomplete⟩

theorem Copy.Live.step_incomplete {n k : ℕ} (h : s.Live d size i n)
    (hwrite : d.writeall i n = .incomplete k e) :
    ∃ t : Copy, copyfdStep d size s = t.readOn d size ∧ t.Spoiled := by
  have hsize : toSize s.bytesRead = n := by
    rw [h.bytesRead, toSize_natCast (got_le_size h.reading).2]
  refine ⟨_, copyfdStep_ne h.errno, Or.inl ⟨.incomplete (bytesOf s.buf k), ?_, trivial⟩⟩
  rw [Copy.writeall, hsize, h.writes, hwrite]
  simp

section Script

theorem Descriptors.Quiet.of_eof (h : d.reading size (i + 1) = .got 0) :
    d.Quiet size i (i + 1) :=
  ⟨Nat.lt_succ_self i, h, fun j hij hj => by omega⟩

theorem Descriptors.Quiet.of_fails (h : d.reading size (i + 1) = .fails eintr)
    (hquiet : d.Quiet size (i + 1) e) : d.Quiet size i e := by
  refine ⟨Nat.lt_of_succ_lt hquiet.lt, hquiet.eof, fun j hij hj => ?_⟩
  obtain rfl | hij : j = i + 1 ∨ i + 1 < j := by omega
  · exact h
  · exact hquiet.interrupted j hij hj

theorem Descriptors.Smooth.of_quiet (hserved : d.reading size i = .fails eintr ∨
      ∃ n b, d.reading size i = .got n ∧ d.writeall i n = .complete b)
    (hquiet : d.Quiet size i e) : d.Smooth size i e := by
  refine ⟨hquiet.lt, hquiet.eof, fun j hij hj => ?_, fun j hij hj => ?_,
    fun j k hij hjk hk _ => hquiet.interrupted k (by omega) hk⟩
  · rw [hquiet.interrupted j hij hj]
    intro h
    cases h
  · obtain rfl | hij := Nat.eq_or_lt_of_le hij
    · exact hserved
    · exact Or.inl (hquiet.interrupted j hij hj)

theorem Descriptors.Smooth.of_smooth {n : ℕ} (hread : d.reading size i = .got n)
    (hwrite : d.writeall i n = .complete false) (hnext : d.reading size (i + 1) ≠ .got 0)
    (hsmooth : d.Smooth size (i + 1) e) : d.Smooth size i e := by
  refine ⟨Nat.lt_of_succ_lt hsmooth.lt, hsmooth.eof, fun j hij hj => ?_,
    fun j hij hj => ?_, fun j k hij hjk hk hint => ?_⟩
  · obtain rfl | hij : j = i + 1 ∨ i + 1 < j := by omega
    · exact hnext
    · exact hsmooth.first j hij hj
  · obtain rfl | hij := Nat.eq_or_lt_of_le hij
    · exact Or.inr ⟨n, false, hread, hwrite⟩
    · exact hsmooth.served j hij hj
  · obtain rfl | hij := Nat.eq_or_lt_of_le hij
    · obtain hfails | ⟨n', hgot, hcomplete⟩ := hint
      · cases hread.symm.trans hfails
      · cases hread.symm.trans hgot
        cases hwrite.symm.trans hcomplete
    · exact hsmooth.quiet j k hij hjk hk hint

theorem Descriptors.Smooth.tail (h : d.Smooth size i e) (hlt : i + 1 < e) :
    d.Smooth size (i + 1) e :=
  ⟨hlt, h.eof, fun j hij => h.first j (by omega), fun j hij => h.served j (by omega),
    fun j k hij => h.quiet j k (by omega)⟩

theorem Descriptors.Smooth.to_quiet (h : d.Smooth size i e) (hint : d.Interrupted size i) :
    d.Quiet size i e :=
  ⟨h.lt, h.eof, fun j hij hj => h.quiet i j (Nat.le_refl i) hij hj hint⟩

end Script

section Return
variable {t : Copy} {r : CopyReturn} (ht : t.After d size i)
include ht

theorem eof_of_readOn (h : t.readOn d size = .inr r) : d.reading size i = .got 0 := by
  cases hread : d.reading size i with
  | got n =>
    by_cases hn : n = 0
    · rw [hn]
    · cases (readOn_got ht hread hn).symm.trans h
  | fails e => cases (readOn_fails ht hread).symm.trans h

/-- A copy that goes on and keeps its promise has read bytes before any interruption, or was
interrupted. -/
theorem next_of_readOn {s' : Copy} (hbal : Balanced t.events) (h : t.readOn d size = .inl s')
    (hr : Returns (copyfdStep d size) s' r) (hkept : r.Kept) :
    (∃ n, d.reading size i = .got n ∧ n ≠ 0 ∧ t.errno ≠ eintr ∧ s' = t.read d size) ∨
      d.reading size i = .fails eintr ∧ s'.Idle d size i := by
  cases hread : d.reading size i with
  | got n =>
    by_cases hn : n = 0
    · subst hn
      cases (readOn_eof ht hread).symm.trans h
    · cases (readOn_got ht hread hn).symm.trans h
      refine Or.inl ⟨n, rfl, hn, fun herrno => ?_, rfl⟩
      exact (spoiled_of_got ht hbal hread hn herrno).not_kept hr hkept
  | fails e =>
    cases (readOn_fails ht hread).symm.trans h
    by_cases he : e = eintr
    · subst he
      exact Or.inr ⟨rfl, idle_of_fails ht hbal hread⟩
    · exact absurd hkept ((spoiled_of_fails ht hread he).not_kept hr)

end Return

theorem smooth_of_kept {r : CopyReturn} (hr : Returns (copyfdStep d size) s r) (hkept : r.Kept)
    (i : ℕ) :
    (s.Idle d size i → ∃ e, d.Quiet size i e) ∧
      ∀ n, s.Live d size i n → ∃ e, d.Smooth size i e := by
  induction hr generalizing i with
  | done hstep =>
    refine ⟨fun hs => ?_, fun n hs => ?_⟩
    · rw [copyfdStep_eintr hs.errno] at hstep
      exact ⟨i + 1, .of_eof (eof_of_readOn hs.after hstep)⟩
    · cases hwrite : d.writeall i n with
      | complete b =>
        obtain ⟨t, ht, hafter, -, -, -⟩ := hs.step hwrite
        rw [ht] at hstep
        exact ⟨i + 1, .of_quiet (Or.inr ⟨n, b, hs.reading, hwrite⟩)
          (.of_eof (eof_of_readOn hafter hstep))⟩
      | incomplete k e =>
        obtain ⟨t, ht, hspoiled⟩ := hs.step_incomplete hwrite
        rw [ht] at hstep
        exact absurd hkept (hspoiled.readOn.2 _ hstep)
  | next hstep hr ih =>
    refine ⟨fun hs => ?_, fun n hs => ?_⟩
    · rw [copyfdStep_eintr hs.errno] at hstep
      obtain ⟨-, -, -, hne, -⟩ | ⟨hfails, hidle⟩ :=
        next_of_readOn hs.after hs.balanced hstep hr hkept
      · exact absurd hs.errno hne
      · obtain ⟨e, hquiet⟩ := (ih hkept (i + 1)).1 hidle
        exact ⟨e, hquiet.of_fails hfails⟩
    · cases hwrite : d.writeall i n with
      | complete b =>
        obtain ⟨t, ht, hafter, hbal, herrno, hwrites⟩ := hs.step hwrite
        rw [ht] at hstep
        obtain ⟨m, hgot, hm, hne, rfl⟩ | ⟨hfails, hidle⟩ :=
          next_of_readOn hafter hbal hstep hr hkept
        · obtain rfl : b = false := Bool.eq_false_iff.mpr (mt herrno.mpr hne)
          obtain ⟨e, hsmooth⟩ := (ih hkept (i + 1)).2 m (live_of_got hafter hbal hgot hne hwrites)
          refine ⟨e, hsmooth.of_smooth hs.reading hwrite ?_⟩
          rw [hgot]
          exact fun h => hm (ReadResult.got.inj h)
        · obtain ⟨e, hquiet⟩ := (ih hkept (i + 1)).1 hidle
          exact ⟨e, .of_quiet (Or.inr ⟨n, b, hs.reading, hwrite⟩) (hquiet.of_fails hfails)⟩
      | incomplete k e =>
        obtain ⟨t, ht, hspoiled⟩ := hs.step_incomplete hwrite
        rw [ht] at hstep
        exact absurd hkept ((hspoiled.readOn.1 _ hstep).not_kept hr)

/-- After an interruption the loop waits for the end of file. -/
theorem kept_of_quiet (hs : s.Idle d size i) (h : d.Quiet size i e) :
    ∃ r, Returns (copyfdStep d size) s r ∧ r.Kept := by
  obtain ⟨m, hm⟩ : ∃ m, i + 1 + m = e := ⟨e - (i + 1), by have := h.lt; omega⟩
  induction m generalizing i s with
  | zero =>
    have heof : d.reading size (i + 1) = .got 0 := by
      rw [show i + 1 = e from hm]
      exact h.eof
    refine ⟨_, .done ((copyfdStep_eintr hs.errno).trans (readOn_eof hs.after heof)), ?_⟩
    exact (kept_iff _).mpr (hs.balanced.append id rfl)
  | succ m ih =>
    have hfails := h.interrupted (i + 1) (by omega) (by omega)
    have hquiet : d.Quiet size (i + 1) e :=
      ⟨by omega, h.eof, fun j hij hj => h.interrupted j (by omega) hj⟩
    obtain ⟨r, hr, hkept⟩ := ih (idle_of_fails hs.after hs.balanced hfails) hquiet (by omega)
    exact ⟨r, .next ((copyfdStep_eintr hs.errno).trans (readOn_fails hs.after hfails)) hr, hkept⟩

/-- While nothing is interrupted the loop writes what it reads. -/
theorem kept_of_smooth {n : ℕ} (hs : s.Live d size i n) (h : d.Smooth size i e) :
    ∃ r, Returns (copyfdStep d size) s r ∧ r.Kept := by
  obtain ⟨m, hm⟩ : ∃ m, i + 1 + m = e := ⟨e - (i + 1), by have := h.lt; omega⟩
  induction m generalizing i n s with
  | zero =>
    obtain ⟨b, hwrite⟩ := hs.complete h
    obtain ⟨t, ht, hafter, hbal, -, -⟩ := hs.step hwrite
    have heof : d.reading size (i + 1) = .got 0 := by
      rw [show i + 1 = e from hm]
      exact h.eof
    refine ⟨_, .done (ht.trans (readOn_eof hafter heof)), ?_⟩
    exact (kept_iff _).mpr (hbal.append id rfl)
  | succ m ih =>
    obtain ⟨b, hwrite⟩ := hs.complete h
    obtain ⟨t, ht, hafter, hbal, herrno, hwrites⟩ := hs.step hwrite
    have htail := h.tail (by omega)
    obtain hfails | ⟨n', b', hgot, -⟩ := h.served (i + 1) (by omega) (by omega)
    · have hquiet := htail.to_quiet (Or.inl hfails)
      obtain ⟨r, hr, hkept⟩ := kept_of_quiet (idle_of_fails hafter hbal hfails) hquiet
      exact ⟨r, .next (ht.trans (readOn_fails hafter hfails)) hr, hkept⟩
    · have hn' : n' ≠ 0 := fun hzero =>
        h.first (i + 1) (by omega) (by omega) (hzero ▸ hgot)
      have hne : t.errno ≠ eintr := fun heintr => by
        obtain rfl := herrno.mp heintr
        have hfails := (h.to_quiet (Or.inr ⟨n, hs.reading, hwrite⟩)).interrupted (i + 1)
          (by omega) (by omega)
        cases hgot.symm.trans hfails
      obtain ⟨r, hr, hkept⟩ := ih (live_of_got hafter hbal hgot hne hwrites) htail (by omega)
      exact ⟨r, .next (ht.trans (readOn_got hafter hgot hn')) hr, hkept⟩

/-- `copyfd` keeps its promise exactly when the end of file comes without a failure but `EINTR`,
every write is complete, and no call of `read` gets bytes after an interruption. -/
theorem copyfd_kept (d : Descriptors) (size : UInt64) (buf : ℕ → UInt8) :
    (∃ r, Copyfd d size buf r ∧ r.Kept) ↔ ∃ e, d.Smooth size 0 e := by
  have hafter : Copy.After d size 0 ⟨0, 0, 0, buf, d.content, 0, 0, []⟩ := ⟨rfl, rfl⟩
  have hbal : Balanced [] := ⟨fun _ h => absurd h List.not_mem_nil, rfl⟩
  have hne : 0 ≠ eintr := Nat.zero_ne_add_one 3
  cases hread : d.reading size 0 with
  | got n =>
    have hlive := live_of_got hafter hbal hread hne rfl
    constructor
    · rintro ⟨r, hr, hkept⟩
      exact (smooth_of_kept hr hkept 0).2 n hlive
    · rintro ⟨e, hsmooth⟩
      exact kept_of_smooth hlive hsmooth
  | fails err =>
    by_cases herr : err = eintr
    · subst herr
      have hidle := idle_of_fails hafter hbal hread
      constructor
      · rintro ⟨r, hr, hkept⟩
        obtain ⟨e, hquiet⟩ := (smooth_of_kept hr hkept 0).1 hidle
        exact ⟨e, .of_quiet (Or.inl hread) hquiet⟩
      · rintro ⟨e, hsmooth⟩
        exact kept_of_quiet hidle (hsmooth.to_quiet (Or.inl hread))
    · constructor
      · rintro ⟨r, hr, hkept⟩
        exact absurd hkept ((spoiled_of_fails hafter hread herr).not_kept hr)
      · rintro ⟨e, hsmooth⟩
        obtain hfails | ⟨n, b, hgot, -⟩ := hsmooth.served 0 (Nat.le_refl 0) hsmooth.lt
        · exact absurd (ReadResult.fails.inj (hread.symm.trans hfails)) herr
        · cases hread.symm.trans hgot

end Copy

/-- A call of `read` gets at most `most` bytes, and some unless there are none. -/
def ReadResult.limit (most : ℕ) : ReadResult → ReadResult
  | .got n => .got (min most (max 1 n))
  | .fails e => .fails e

theorem readLimit_le {result : ReadResult} {most n : ℕ} (h : result.limit most = .got n) :
    n ≤ most ∧ (n = 0 → most = 0) := by
  cases result with
  | got m =>
    cases h
    omega
  | fails e => cases h

theorem complete_ne {b : Bool} {count n e : ℕ}
    (h : WriteallResult.complete b = .incomplete n e) : n < count ∧ e ≠ eintr := by
  cases h

/-- A file read along a script, and one that takes every write whole. -/
def Descriptors.ofScript (content : List UInt8) (script : ℕ → ReadResult) : Descriptors where
  content := content
  read call most := (script call).limit most
  writeall _ _ := .complete false
  got_le _ _ _ h := readLimit_le h
  incomplete_lt _ _ _ _ h := complete_ne h

/-- One byte, read at the second attempt, is not written, and `0` is returned. -/
theorem copyfd_interrupted :
    ¬ ∃ r, Copyfd (.ofScript [7] fun call => if call = 0 then .fails eintr else .got 1) 512
      (fun _ => 0) r ∧ r.Kept := by
  rintro ⟨r, hr, hkept⟩
  have hreturns : Copyfd (.ofScript [7] fun call => if call = 0 then .fails eintr else .got 1) 512
      (fun _ => 0) ⟨0, [.readFailure eintr, .read [7], .read []]⟩ :=
    .next rfl (.done rfl)
  obtain rfl := hr.unique hreturns
  have hclean : ∀ e ∈ [Event.readFailure eintr, .read [7], .read []], ¬ e.Stops := by
    simp [Event.Stops]
  exact absurd (hkept.copied (by simp) hclean).2 (by decide)

end Orga.Cp
