import Mathlib.Algebra.Order.Ring.Nat
import Mathlib.Data.List.Induction
import Orga.Lib.Smallest

/-! The K-best scheme of `fcyc.c`: measurements are repeated until the smallest of them agree. The
test of two times with `epsilon` is a parameter. The counter is that of `clock.c`, two words of the
number of cycles. -/
namespace Orga.Malloc
open Orga.Smallest
variable {α : Type} [LinearOrder α]

/-- What `set_fcyc_k`, `set_fcyc_maxsamples` and `set_fcyc_epsilon` set: `within a b` is the test
`(1 + epsilon)*a >= b`. -/
structure FcycParams (α : Type) where
  kbest : ℕ
  maxsamples : ℕ
  within : α → α → Bool

structure Sampler (α : Type) where
  values : List α
  samplecount : ℕ

def initSampler [Zero α] (p : FcycParams α) : Sampler α :=
  { values := List.replicate p.kbest 0, samplecount := 0 }

/-- The loop of `add_sample` from `pos` on. -/
def insertionLoop (values : List α) : ℕ → List α
  | 0 => values
  | pos + 1 =>
    match values[pos]?, values[pos + 1]? with
    | some before, some here =>
      if before > here then insertionLoop ((values.set pos here).set (pos + 1) before) pos
      else values
    | _, _ => values

def addSample (p : FcycParams α) (s : Sampler α) (val : α) : Sampler α :=
  let (pos, values) :=
    if s.samplecount < p.kbest then (s.samplecount, s.values.set s.samplecount val)
    else if s.values[p.kbest - 1]?.any (val < ·) then
      (p.kbest - 1, s.values.set (p.kbest - 1) val)
    else (0, s.values)
  { values := insertionLoop values pos, samplecount := s.samplecount + 1 }

def hasConverged (p : FcycParams α) (s : Sampler α) : Bool :=
  s.samplecount ≥ p.kbest &&
    match s.values[0]?, s.values[p.kbest - 1]? with
    | some first, some last => p.within first last
    | _, _ => false

/-- The loop of `fcyc`, in which `cyc` gives the time of each run of the function. -/
def fcycLoop (p : FcycParams α) (cyc : ℕ → α) (s : Sampler α) : Sampler α :=
  let s' := addSample p s (cyc s.samplecount)
  if ¬ hasConverged p s' ∧ s.samplecount + 1 < p.maxsamples then fcycLoop p cyc s' else s'
termination_by p.maxsamples - s.samplecount
decreasing_by
  simp only [addSample]
  omega

/-- The least time of those measured. -/
def fcyc [Zero α] (p : FcycParams α) (cyc : ℕ → α) : Option α :=
  (fcycLoop p cyc (initSampler p)).values[0]?

/-- The high and low words of the number of cycles. -/
def accessCounter (cycles : ℕ) : UInt32 × UInt32 :=
  (UInt32.ofNat (cycles / 2 ^ 32), UInt32.ofNat cycles)

/-- What `get_counter` returns between two accesses; the double holds it when it is less than
`2 ^ 53`. -/
def getCounter (cyc ncyc : UInt32 × UInt32) : ℕ :=
  let (cycHi, cycLo) := cyc
  let (ncycHi, ncycLo) := ncyc
  let lo := ncycLo - cycLo
  let borrow : UInt32 := if lo > ncycLo then 1 else 0
  let hi := ncycHi - cycHi - borrow
  hi.toNat * (1 <<< 30) * 4 + lo.toNat

def times {β : Type} (cyc : ℕ → β) (n : ℕ) : List β := (List.range n).map cyc

theorem times_succ {β : Type} (cyc : ℕ → β) (n : ℕ) :
    times cyc (n + 1) = times cyc n ++ [cyc n] := by
  rw [times, List.range_succ, List.map_append, List.map_singleton, times]

section Insertion

/-- The sample behind ordered ones goes to its place, and what is behind it stays. -/
theorem insertionLoop_append (l : List α) (v : α) (t : List α) (hl : l.Pairwise (· ≤ ·)) :
    ∃ l', insertionLoop (l ++ v :: t) l.length = l' ++ t ∧ l'.Perm (l ++ [v]) ∧
      l'.Pairwise (· ≤ ·) := by
  induction l using List.reverseRecOn generalizing t with
  | nil => exact ⟨[v], rfl, List.Perm.refl _, List.pairwise_singleton _ v⟩
  | append_singleton l a ih =>
    obtain ⟨hinit, -, hla⟩ := List.pairwise_append.mp hl
    have ha : ∀ b ∈ l, b ≤ a := fun b hb => hla b hb a (List.mem_singleton_self a)
    have hbefore : (l ++ [a] ++ v :: t)[l.length]? = some a := by simp
    have hhere : (l ++ [a] ++ v :: t)[l.length + 1]? = some v := by simp
    rw [List.length_append, List.length_singleton, insertionLoop, hbefore, hhere]
    dsimp only
    split_ifs with hgt
    · have hset : ((l ++ [a] ++ v :: t).set l.length v).set (l.length + 1) a =
          l ++ v :: a :: t := by simp
      obtain ⟨l', hloop, hperm, hsorted⟩ := ih (a :: t) hinit
      refine ⟨l' ++ [a], ?_, ?_, ?_⟩
      · rw [hset, hloop, List.append_assoc, List.singleton_append]
      · refine (hperm.append_right [a]).trans ?_
        rw [List.append_assoc, List.append_assoc]
        exact (List.Perm.swap a v []).append_left l
      · apply List.pairwise_append.mpr
        refine ⟨hsorted, List.pairwise_singleton _ a, fun b hb c hc => ?_⟩
        rw [List.mem_singleton.mp hc]
        rw [hperm.mem_iff, List.mem_append, List.mem_singleton] at hb
        obtain hb | rfl := hb
        · exact ha b hb
        · exact hgt.le
    · refine ⟨l ++ [a] ++ [v], by simp, List.Perm.refl _, ?_⟩
      apply List.pairwise_append.mpr
      refine ⟨hl, List.pairwise_singleton _ v, fun b hb c hc => ?_⟩
      rw [List.mem_singleton.mp hc]
      rw [List.mem_append, List.mem_singleton] at hb
      obtain hb | rfl := hb
      · exact (ha b hb).trans (not_lt.mp hgt)
      · exact not_lt.mp hgt

end Insertion

section Sampling
variable [Zero α] {p : FcycParams α} {s : Sampler α} {samples : List α}

/-- The array holds the smallest samples, and zeros behind them. -/
structure Sampled (p : FcycParams α) (s : Sampler α) (samples : List α) : Prop where
  count : s.samplecount = samples.length
  values : ∃ kept, Kept p.kbest kept samples ∧
    s.values = kept ++ List.replicate (p.kbest - samples.length) 0

theorem sampled_initSampler : Sampled p (initSampler p) [] :=
  ⟨rfl, [], Kept.nil, by rw [List.length_nil, Nat.sub_zero]; rfl⟩

theorem Sampled.addSample (h : Sampled p s samples) (hk : 0 < p.kbest) (val : α) :
    Sampled p (addSample p s val) (samples ++ [val]) := by
  obtain ⟨kept, hkept, hvalues⟩ := h.values
  have hcount := h.count
  have hlen := hkept.length
  refine ⟨by rw [List.length_append, ← hcount]; rfl, ?_⟩
  rw [List.length_append, List.length_singleton, Malloc.addSample]
  by_cases hroom : s.samplecount < p.kbest
  · have hset : s.values.set s.samplecount val =
        kept ++ val :: List.replicate (p.kbest - (samples.length + 1)) 0 := by
      rw [hvalues, show p.kbest - samples.length = p.kbest - (samples.length + 1) + 1 by omega,
        List.replicate_succ, show s.samplecount = kept.length by omega]
      simp
    obtain ⟨l', hloop, hperm, hsorted⟩ := insertionLoop_append kept val
      (List.replicate (p.kbest - (samples.length + 1)) 0) hkept.sorted
    rw [if_pos hroom, hset]
    dsimp only
    rw [show s.samplecount = kept.length by omega]
    exact ⟨l', hkept.add (by omega) hsorted hperm, hloop⟩
  · have hnone : List.replicate (p.kbest - samples.length) (0 : α) = [] := by
      rw [show p.kbest - samples.length = 0 by omega]
      rfl
    have hnone' : List.replicate (p.kbest - (samples.length + 1)) (0 : α) = [] := by
      rw [show p.kbest - (samples.length + 1) = 0 by omega]
      rfl
    rw [hnone, List.append_nil] at hvalues
    obtain ⟨init, last, rfl⟩ : ∃ init last, kept = init ++ [last] := by
      refine ⟨kept.dropLast, kept.getLast ?_, (List.dropLast_append_getLast _).symm⟩
      rw [← List.length_pos_iff]
      omega
    rw [List.length_append, List.length_singleton] at hlen
    have hinit : p.kbest - 1 = init.length := by omega
    have hlast : s.values[p.kbest - 1]? = some last := by
      rw [hvalues, hinit]
      simp
    rw [if_neg hroom, hlast, hnone', Option.any_some]
    by_cases hlt : val < last
    · have hset : s.values.set (p.kbest - 1) val = init ++ [val] := by
        rw [hvalues, hinit]
        simp
      obtain ⟨l', hloop, hperm, hsorted⟩ := insertionLoop_append init val []
        (List.pairwise_append.mp hkept.sorted).1
      rw [if_pos (decide_eq_true hlt), hset, hinit]
      exact ⟨l', hkept.replace (by omega) hlt hsorted hperm, hloop⟩
    · have hle : ∀ a ∈ init ++ [last], a ≤ val := by
        intro a ha
        rw [List.mem_append, List.mem_singleton] at ha
        obtain ha | rfl := ha
        · have halast := (List.pairwise_append.mp hkept.sorted).2.2 a ha last
            (List.mem_singleton_self last)
          exact halast.trans (not_lt.mp hlt)
        · exact not_lt.mp hlt
      rw [if_neg (mt of_decide_eq_true hlt)]
      exact ⟨init ++ [last], hkept.skip (by omega) hle, hvalues.trans (List.append_nil _).symm⟩

/-- The samples are so many, and the least and the last of the smallest are within `epsilon`. -/
def Agreed (p : FcycParams α) (samples : List α) : Prop :=
  p.kbest ≤ samples.length ∧ ∃ first last,
    (samples.insertionSort (· ≤ ·))[0]? = some first ∧
    (samples.insertionSort (· ≤ ·))[p.kbest - 1]? = some last ∧ p.within first last = true

theorem Sampled.hasConverged_iff (h : Sampled p s samples) (hk : 0 < p.kbest) :
    hasConverged p s = true ↔ Agreed p samples := by
  obtain ⟨kept, hkept, hvalues⟩ := h.values
  have hcount := h.count
  rw [hasConverged, Bool.and_eq_true, decide_eq_true_iff, hcount, Agreed]
  refine and_congr_right fun hfull => ?_
  have hnone : List.replicate (p.kbest - samples.length) (0 : α) = [] := by
    rw [Nat.sub_eq_zero_of_le hfull]
    rfl
  rw [hnone, List.append_nil, hkept.eq_take] at hvalues
  rw [hvalues, List.getElem?_take_of_lt hk, List.getElem?_take_of_lt (by omega)]
  constructor
  · intro hwithin
    split at hwithin
    · exact ⟨_, _, ‹_›, ‹_›, hwithin⟩
    · exact absurd hwithin Bool.false_ne_true
  · rintro ⟨first, last, hfirst, hlast, hwithin⟩
    rw [hfirst, hlast]
    exact hwithin

/-- The loop ends at the first samples that agree, or with `maxsamples` of them. -/
theorem fcycLoop_sampled (hk : 0 < p.kbest) (cyc : ℕ → α)
    (h : Sampled p s (times cyc s.samplecount)) :
    ∃ n, s.samplecount < n ∧ n ≤ max (s.samplecount + 1) p.maxsamples ∧
      Sampled p (fcycLoop p cyc s) (times cyc n) ∧
      (Agreed p (times cyc n) ∨ p.maxsamples ≤ n) ∧
      ∀ m, s.samplecount < m → m < n → ¬ Agreed p (times cyc m) := by
  induction s using fcycLoop.induct p cyc with
  | case1 s s' hnext ih =>
    have hs' := h.addSample hk (cyc s.samplecount)
    rw [← times_succ] at hs'
    have hcount : s'.samplecount = s.samplecount + 1 := rfl
    have hagree : ¬ Agreed p (times cyc (s.samplecount + 1)) :=
      mt (hs'.hasConverged_iff hk).mpr hnext.1
    obtain ⟨n, hlt, hle, hsampled, hend, hbefore⟩ := ih (by rw [hcount]; exact hs')
    rw [hcount] at hlt hle hbefore
    rw [fcycLoop, if_pos hnext]
    refine ⟨n, by omega, by omega, hsampled, hend, fun m hm hmn => ?_⟩
    obtain rfl | hm' := eq_or_lt_of_le (show s.samplecount + 1 ≤ m from hm)
    · exact hagree
    · exact hbefore m hm' hmn
  | case2 s s' hstop =>
    have hs' := h.addSample hk (cyc s.samplecount)
    rw [← times_succ] at hs'
    rw [fcycLoop, if_neg hstop]
    refine ⟨s.samplecount + 1, by omega, by omega, hs', ?_, fun m hm hmn => by omega⟩
    by_cases hagree : Agreed p (times cyc (s.samplecount + 1))
    · exact .inl hagree
    · refine .inr (not_lt.mp fun hlt => hstop ⟨?_, hlt⟩)
      exact mt (hs'.hasConverged_iff hk).mp hagree

end Sampling

/-- The K-best scheme: the function runs until the `kbest` smallest times agree for the first time,
but at most `maxsamples` times. The array then holds these times in order, and the result is the
least time of all. -/
theorem fcyc_kbest [Zero α] (p : FcycParams α) (cyc : ℕ → α) (hk : 0 < p.kbest) :
    ∃ n, 0 < n ∧ n ≤ max 1 p.maxsamples ∧
      (fcycLoop p cyc (initSampler p)).samplecount = n ∧
      (fcycLoop p cyc (initSampler p)).values =
        ((times cyc n).insertionSort (· ≤ ·)).take p.kbest ++ List.replicate (p.kbest - n) 0 ∧
      (Agreed p (times cyc n) ∨ p.maxsamples ≤ n) ∧
      (∀ m, 0 < m → m < n → ¬ Agreed p (times cyc m)) ∧
      ∃ best, fcyc p cyc = some best ∧ best ∈ times cyc n ∧ ∀ t ∈ times cyc n, best ≤ t := by
  obtain ⟨n, hpos, hle, hsampled, hend, hbefore⟩ :=
    fcycLoop_sampled hk cyc (s := initSampler p) sampled_initSampler
  have hlen : (times cyc n).length = n := by rw [times, List.length_map, List.length_range]
  obtain ⟨kept, hkept, hvalues⟩ := hsampled.values
  rw [hlen] at hvalues
  refine ⟨n, hpos, hle, hsampled.count.trans hlen, by rw [hvalues, ← hkept.eq_take], hend,
    hbefore, ?_⟩
  have hkeptLen := hkept.length
  cases kept with
  | nil =>
    rw [List.length_nil, hlen] at hkeptLen
    change 0 < n at hpos
    omega
  | cons best rest =>
    refine ⟨best, ?_, hkept.head_le⟩
    rw [fcyc, hvalues]
    rfl

/-- The subtraction of the words with their borrow. -/
theorem getCounter_eq {start stop : ℕ} (hle : start ≤ stop) (hlt : stop - start < 2 ^ 64) :
    getCounter (accessCounter start) (accessCounter stop) = stop - start := by
  have hlo : (UInt32.ofNat stop - UInt32.ofNat start).toNat = (stop - start) % 2 ^ 32 := by
    rw [UInt32.toNat_sub, UInt32.toNat_ofNat', UInt32.toNat_ofNat']
    omega
  have hborrow : UInt32.ofNat stop - UInt32.ofNat start > UInt32.ofNat stop ↔
      stop % 2 ^ 32 < start % 2 ^ 32 := by
    rw [gt_iff_lt, UInt32.lt_iff_toNat_lt, hlo, UInt32.toNat_ofNat']
    omega
  unfold getCounter accessCounter
  dsimp only
  rw [hlo, UInt32.toNat_sub, UInt32.toNat_sub, UInt32.toNat_ofNat', UInt32.toNat_ofNat',
    apply_ite UInt32.toNat, if_congr hborrow rfl rfl, UInt32.toNat_one, UInt32.toNat_zero]
  split_ifs <;> omega

/-- The cycles that `fcyc` reports are the fewest that a run of the function took, over the runs
until the `kbest` fewest agree for the first time. -/
theorem fcyc_cycles (p : FcycParams ℕ) (start stop : ℕ → ℕ) (hk : 0 < p.kbest)
    (hclock : ∀ i, start i ≤ stop i ∧ stop i - start i < 2 ^ 53) :
    ∃ n, 0 < n ∧ n ≤ max 1 p.maxsamples ∧
      (Agreed p (times (fun i => stop i - start i) n) ∨ p.maxsamples ≤ n) ∧
      (∀ m, 0 < m → m < n → ¬ Agreed p (times (fun i => stop i - start i) m)) ∧
      ∃ i < n,
        fcyc p (fun i => getCounter (accessCounter (start i)) (accessCounter (stop i))) =
          some (stop i - start i) ∧
        ∀ j < n, stop i - start i ≤ stop j - start j := by
  have hcyc : (fun i => getCounter (accessCounter (start i)) (accessCounter (stop i))) =
      fun i => stop i - start i := by
    funext i
    obtain ⟨hle, hlt⟩ := hclock i
    exact getCounter_eq hle (by omega)
  obtain ⟨n, hpos, hle, -, -, hend, hbefore, best, hbest, hmem, hleast⟩ :=
    fcyc_kbest p (fun i => stop i - start i) hk
  obtain ⟨i, hi, rfl⟩ := List.mem_map.mp hmem
  rw [hcyc]
  refine ⟨n, hpos, hle, hend, hbefore, i, List.mem_range.mp hi, hbest, fun j hj => ?_⟩
  exact hleast _ (List.mem_map_of_mem (List.mem_range.mpr hj))

/-- The default parameters, and a counter that passes the end of its low word. -/
theorem fcyc_cycles_floor :
    let p : FcycParams ℕ := ⟨3, 20, fun a b => 101 * a ≥ 100 * b⟩
    let start : ℕ → ℕ := fun i => 2 ^ 32 - 50 + 1000 * i
    let stop : ℕ → ℕ := fun i => 2 ^ 32 + 50 + 1000 * i
    ∃ n, 0 < n ∧ n ≤ max 1 p.maxsamples ∧
      (Agreed p (times (fun i => stop i - start i) n) ∨ p.maxsamples ≤ n) ∧
      (∀ m, 0 < m → m < n → ¬ Agreed p (times (fun i => stop i - start i) m)) ∧
      ∃ i < n,
        fcyc p (fun i => getCounter (accessCounter (start i)) (accessCounter (stop i))) =
          some (stop i - start i) ∧
        ∀ j < n, stop i - start i ≤ stop j - start j :=
  fcyc_cycles _ _ _ (by decide) fun i => by omega

end Orga.Malloc
