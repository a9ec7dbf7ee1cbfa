import Orga.Malloc.Utilization

/-! The package of `mm-naive.c`: every block moves the break, and none is used again. -/
namespace Orga.Malloc
open Orga.LittleEndian Orga.Replay

namespace Naive

/-- `ALIGN`, with an `ALIGNMENT` of 8 -/
def align (size : UInt64) : UInt64 := (size + (8 - 1)) &&& ~~~7

def SIZE_T_SIZE : UInt64 := align 8

def mmInit (h : Heap) : Except Fault (Int32 × Heap) := .ok (0, h)

def mmMalloc (h : Heap) (size : UInt64) : Except Fault (UInt64 × Heap) := do
  let newsize := (align (size + SIZE_T_SIZE)).toUInt32.toInt32
  let (p, h) := memSbrk h newsize
  if p = SBRK_FAILED then
    return (NULL, h)
  let h ← escribirHeader h p size
  return (p + SIZE_T_SIZE, h)

def mmFree (h : Heap) (_ : UInt64) : Except Fault Heap := .ok h

def mmRealloc (h : Heap) (ptr size : UInt64) : Except Fault (UInt64 × Heap) := do
  let oldptr := ptr
  let (newptr, h) ← mmMalloc h size
  if newptr = NULL then
    return (NULL, h)
  let copySize ← obtenerWord h (oldptr - SIZE_T_SIZE)
  let copySize := if size < copySize then size else copySize
  let h ← memcpy h newptr oldptr copySize
  let h ← mmFree h oldptr
  return (newptr, h)

end Naive

def naive : Package where
  mmInit := Naive.mmInit
  mmMalloc := Naive.mmMalloc
  mmFree := Naive.mmFree
  mmRealloc := Naive.mmRealloc

/-- What `n` bytes cost: a header, rounded up to 8. -/
def newsize (n : ℕ) : ℕ := 8 * ((n + 15) / 8)

theorem le_newsize (n : ℕ) : n + 8 ≤ newsize n := by
  unfold newsize
  omega

theorem dvd_newsize (n : ℕ) : 8 ∣ newsize n := dvd_mul_right 8 _

private theorem and_mask_eight {x : ℕ} (hx : x < 2 ^ 64) :
    x &&& 18446744073709551608 = 8 * (x / 8) := by
  have hdiv : (x &&& 18446744073709551608) / 2 ^ 3 = x / 8 := by
    rw [Nat.and_div_two_pow, show (18446744073709551608 : ℕ) / 2 ^ 3 = 2 ^ 61 - 1 by norm_num,
      Nat.and_two_pow_sub_one_eq_mod]
    omega
  have hmod : (x &&& 18446744073709551608) % 2 ^ 3 = 0 := by
    rw [Nat.and_mod_two_pow, show (18446744073709551608 : ℕ) % 2 ^ 3 = 0 by norm_num,
      Nat.and_zero]
  omega

theorem align_eq {n : UInt64} (hn : IsRequest n) :
    Naive.align (n + Naive.SIZE_T_SIZE) = UInt64.ofNat (newsize n.toNat) := by
  have hlt := hn.lt
  have h8 : Naive.SIZE_T_SIZE = 8 := by decide
  have hsum : (n + 8 + (8 - 1)).toNat = n.toNat + 15 := by
    rw [UInt64.toNat_add, UInt64.toNat_add]
    show ((n.toNat + 8) % 2 ^ 64 + 7) % 2 ^ 64 = _
    omega
  apply UInt64.toNat_inj.mp
  rw [h8, Naive.align, UInt64.toNat_and, hsum, toNat_ofNat_of_lt (by unfold newsize; omega)]
  exact and_mask_eight (by omega)

/-- The live payloads of the package, with the break at `brk`; each has its size in front. -/
structure Bump (top : ℕ) (h : Heap) (brk : ℕ) (live : List (UInt64 × UInt64)) : Prop where
  bounded : Bounded h
  full : FullArena h
  top_eq : h.memMaxAddr.toNat = top
  brk_eq : h.memBrk.toNat = brk
  brk_aligned : 8 ∣ brk
  aligned : ∀ p n, (p, n) ∈ live → 8 ∣ p.toNat
  inside : ∀ p n, (p, n) ∈ live →
    h.memStartBrk.toNat + 8 ≤ p.toNat ∧ p.toNat + n.toNat ≤ brk
  apart : live.Pairwise fun e f =>
    e.1.toNat + e.2.toNat + 8 ≤ f.1.toNat ∨ f.1.toNat + f.2.toNat + 8 ≤ e.1.toNat
  positive : ∀ p n, (p, n) ∈ live → n ≠ 0
  header : ∀ p n, (p, n) ∈ live → readLE h.bytes (p.toNat - 8) 8 = n.toNat

namespace Bump
variable {top brk : ℕ} {h h' : Heap} {live : List (UInt64 × UInt64)} {p q n m : UInt64}

theorem payloads (hb : Bump top h brk live) : Payloads h live where
  bounded := hb.bounded
  full := hb.full
  aligned := hb.aligned
  inside p n hp := by
    have hin := hb.inside p n hp
    rw [hb.brk_eq]
    omega
  apart := hb.apart.imp fun {e f} hef => by
    unfold Malloc.Apart
    omega
  positive := hb.positive

theorem apart_of_ne (hb : Bump top h brk live) (hp : (p, n) ∈ live) (hq : (q, m) ∈ live)
    (hne : p ≠ q) : p.toNat + n.toNat + 8 ≤ q.toNat ∨ q.toNat + m.toNat + 8 ≤ p.toNat := by
  have hsymm : Std.Symm fun e f : UInt64 × UInt64 =>
      e.1.toNat + e.2.toNat + 8 ≤ f.1.toNat ∨ f.1.toNat + f.2.toNat + 8 ≤ e.1.toNat :=
    ⟨fun _ _ => Or.symm⟩
  exact hb.apart.forall hp hq fun heq => hne (Prod.mk.inj heq).1

theorem congr (hb : Bump top h brk live) (hrest : h' = { h with bytes := h'.bytes })
    (hsame : ∀ p n, (p, n) ∈ live → ∀ x, p.toNat - 8 ≤ x → x < p.toNat →
      h'.bytes x = h.bytes x) : Bump top h' brk live where
  bounded := by
    rw [hrest]
    exact ⟨hb.bounded.pos, hb.bounded.start_le, hb.bounded.brk_le, hb.bounded.user⟩
  full := by
    rw [hrest]
    exact hb.full
  top_eq := by
    rw [hrest]
    exact hb.top_eq
  brk_eq := by
    rw [hrest]
    exact hb.brk_eq
  brk_aligned := hb.brk_aligned
  aligned := hb.aligned
  inside p n hp := by
    rw [hrest]
    exact hb.inside p n hp
  apart := hb.apart
  positive := hb.positive
  header p n hp := by
    have hin := hb.inside p n hp
    rw [← hb.header p n hp]
    exact readLE_congr fun x hlo hhi => hsame p n hp x hlo (by omega)

theorem fill (hb : Bump top h brk live) (hp : (p, n) ∈ live)
    (hw : OnlyWithin h h' p.toNat (p.toNat + n.toNat)) : Bump top h' brk live := by
  refine hb.congr hw.rest fun q m hq x hlo hhi => hw.bytes x ?_
  by_cases hqp : q = p
  · subst hqp
    exact Or.inl hhi
  · have hap := hb.apart_of_ne hq hp hqp
    omega

theorem sublist {live' : List (UInt64 × UInt64)} (hb : Bump top h brk live)
    (hs : live'.Sublist live) : Bump top h brk live' where
  bounded := hb.bounded
  full := hb.full
  top_eq := hb.top_eq
  brk_eq := hb.brk_eq
  brk_aligned := hb.brk_aligned
  aligned q m hq := hb.aligned q m (hs.subset hq)
  inside q m hq := hb.inside q m (hs.subset hq)
  apart := hb.apart.sublist hs
  positive q m hq := hb.positive q m (hs.subset hq)
  header q m hq := hb.header q m (hs.subset hq)

end Bump

/-- The heap after a block of `n` bytes is cut off at the break. -/
def Heap.cut (h : Heap) (n : UInt64) : Heap :=
  { h.raise (newsize n.toNat) with bytes := writeLE h.bytes h.memBrk.toNat 8 n.toNat }

namespace Bump
variable {top brk : ℕ} {h h' : Heap} {live : List (UInt64 × UInt64)} {p q n m : UInt64}

theorem brk_le (hb : Bump top h brk live) : brk ≤ top := by
  have hle := hb.bounded.brk_le
  rw [hb.top_eq, hb.brk_eq] at hle
  exact hle

theorem top_lt (hb : Bump top h brk live) : top < 2 ^ 63 := by
  have huser := hb.bounded.user
  rw [hb.top_eq] at huser
  exact huser

theorem toNat_cut (hb : Bump top h brk live) (hroom : brk + newsize n.toNat ≤ top) :
    (h.cut n).memBrk.toNat = brk + newsize n.toNat := by
  have htop := hb.top_lt
  show (UInt64.ofNat (h.memBrk.toNat + newsize n.toNat)).toNat = _
  rw [hb.brk_eq, toNat_ofNat_of_lt (by omega)]

theorem toNat_place (hb : Bump top h brk live) (hroom : brk + newsize n.toNat ≤ top) :
    (UInt64.ofNat (brk + 8)).toNat = brk + 8 := by
  have htop := hb.top_lt
  have hge := le_newsize n.toNat
  exact toNat_ofNat_of_lt (by omega)

theorem place_ne_null (hb : Bump top h brk live) (hroom : brk + newsize n.toNat ≤ top) :
    UInt64.ofNat (brk + 8) ≠ NULL := by
  intro heq
  have hto := hb.toNat_place hroom
  rw [heq] at hto
  exact absurd hto (by show (0 : ℕ) ≠ _; omega)

theorem mmMalloc_full (hb : Bump top h brk live) (hn : IsRequest n)
    (hfull : ¬ brk + newsize n.toNat ≤ top) : Naive.mmMalloc h n = .ok (NULL, h) := by
  have hlt := hn.lt
  have hsbrk : memSbrk h (UInt64.ofNat (newsize n.toNat)).toUInt32.toInt32 = (SBRK_FAILED, h) := by
    refine memSbrk_refused hb.bounded.user hb.bounded.brk_le ?_
    rw [hb.top_eq, hb.brk_eq]
    unfold newsize at hfull ⊢
    omega
  rw [Naive.mmMalloc, align_eq hn, hsbrk]
  rfl

theorem mmMalloc_room (hb : Bump top h brk live) (hn : IsRequest n)
    (hroom : brk + newsize n.toNat ≤ top) :
    Naive.mmMalloc h n = .ok (UInt64.ofNat (brk + 8), h.cut n) := by
  have htop := hb.top_lt
  have hmax : h.memMaxAddr.toNat = h.memStartBrk.toNat + MAX_HEAP.toNat := hb.full
  have h20 : MAX_HEAP.toNat = 20971520 := rfl
  have hstart := hb.bounded.start_le
  have hge := le_newsize n.toNat
  have hsbrk : memSbrk h (UInt64.ofNat (newsize n.toNat)).toUInt32.toInt32 =
      (h.memBrk, h.raise (newsize n.toNat)) := by
    rw [hb.brk_eq] at hstart
    rw [hb.top_eq] at hmax
    exact memSbrk_room (by omega) hb.bounded.user (by rw [hb.brk_eq, hb.top_eq]; exact hroom)
  have hne : h.memBrk ≠ SBRK_FAILED := by
    intro heq
    have hto : h.memBrk.toNat = 2 ^ 64 - 1 := by rw [heq]; rfl
    rw [hb.brk_eq] at hto
    omega
  have hin : InHeap (h.raise (newsize n.toNat)) h.memBrk.toNat 8 := by
    have hraise : (h.raise (newsize n.toNat)).memBrk.toNat = brk + newsize n.toNat :=
      hb.toNat_cut hroom
    refine ⟨hstart, ?_⟩
    rw [hraise, hb.brk_eq]
    omega
  have hpay : h.memBrk + Naive.SIZE_T_SIZE = UInt64.ofNat (brk + 8) := by
    apply UInt64.toNat_inj.mp
    rw [UInt64.toNat_add, hb.brk_eq, toNat_ofNat_of_lt (by omega)]
    show (brk + 8) % 2 ^ 64 = _
    omega
  rw [Naive.mmMalloc, align_eq hn, hsbrk]
  simp only [if_neg hne, escribirHeader, if_pos hin, bind, Except.bind, hpay]
  rfl

theorem cut (hb : Bump top h brk live) (hn : IsRequest n)
    (hroom : brk + newsize n.toNat ≤ top) :
    Bump top (h.cut n) (brk + newsize n.toNat) ((UInt64.ofNat (brk + 8), n) :: live) := by
  have htop := hb.top_lt
  have hpos := hn.pos
  have hge := le_newsize n.toNat
  have hbrk := hb.toNat_cut hroom
  have hstart := hb.bounded.start_le
  rw [hb.brk_eq] at hstart
  have hto := hb.toNat_place hroom
  have hdvd := dvd_newsize n.toNat
  have h8 := hb.brk_aligned
  refine ⟨⟨hb.bounded.pos, ?_, ?_, hb.bounded.user⟩, hb.full, hb.top_eq, hbrk, by omega, ?_, ?_,
    List.pairwise_cons.mpr ⟨?_, hb.apart⟩, ?_, ?_⟩
  · show h.memStartBrk.toNat ≤ _
    omega
  · show _ ≤ h.memMaxAddr.toNat
    rw [hb.top_eq, hbrk]
    exact hroom
  · intro p m hp
    rcases List.mem_cons.mp hp with heq | hp
    · cases heq
      rw [hto]
      omega
    · exact hb.aligned p m hp
  · intro p m hp
    show h.memStartBrk.toNat + 8 ≤ _ ∧ _
    rcases List.mem_cons.mp hp with heq | hp
    · cases heq
      rw [hto]
      omega
    · have hin := hb.inside p m hp
      omega
  · rintro ⟨p, m⟩ hp
    have hin := hb.inside p m hp
    dsimp only
    rw [hto]
    omega
  · intro p m hp
    rcases List.mem_cons.mp hp with heq | hp
    · cases heq
      rintro rfl
      exact absurd hpos (by decide)
    · exact hb.positive p m hp
  · intro p m hp
    show readLE (writeLE h.bytes h.memBrk.toNat 8 n.toNat) _ 8 = _
    rw [hb.brk_eq]
    rcases List.mem_cons.mp hp with heq | hp
    · cases heq
      rw [hto, Nat.add_sub_cancel, readLE_writeLE]
      exact Nat.mod_eq_of_lt n.toNat_lt
    · have hin := hb.inside p m hp
      rw [readLE_writeLE_of_disjoint _ _ (Or.inl (by omega)), hb.header p m hp]

theorem memHeapsize_eq (hb : Bump top h brk live) :
    (memHeapsize h).toNat = brk - h.memStartBrk.toNat := by
  rw [hb.payloads.memHeapsize, hb.brk_eq]

theorem grows_cut (hb : Bump top h brk live) (hn : IsRequest n)
    (hroom : brk + newsize n.toNat ≤ top) : memHeapsize h ≤ memHeapsize (h.cut n) := by
  rw [UInt64.le_iff_toNat_le, hb.memHeapsize_eq, (hb.cut hn hroom).memHeapsize_eq]
  show _ ≤ _ - h.memStartBrk.toNat
  omega

theorem untouched_cut (hb : Bump top h brk live) {x : ℕ} (hx : x < brk) :
    (h.cut n).bytes x = h.bytes x :=
  writeLE_outside _ _ (Or.inl (by rw [hb.brk_eq]; exact hx))

theorem mmRealloc_full (hb : Bump top h brk live) (hn : IsRequest n)
    (hfull : ¬ brk + newsize n.toNat ≤ top) : Naive.mmRealloc h p n = .ok (NULL, h) := by
  rw [Naive.mmRealloc, hb.mmMalloc_full hn hfull]
  rfl

/-- The header of the old block says how much to copy. -/
theorem mmRealloc_room (hb : Bump top h brk live) (hp : (p, m) ∈ live) (hn : IsRequest n)
    (hroom : brk + newsize n.toNat ≤ top) :
    ∃ h', Naive.mmRealloc h p n = .ok (UInt64.ofNat (brk + 8), h') ∧
      OnlyWithin (h.cut n) h' (brk + 8) (brk + 8 + n.toNat) ∧
      ∀ i < min m.toNat n.toNat, h'.bytes (brk + 8 + i) = h.bytes (p.toNat + i) := by
  have hcut := hb.cut hn hroom
  have htop := hb.top_lt
  have hge := le_newsize n.toNat
  have hbrk := hb.toNat_cut hroom
  have hin := hb.inside p m hp
  have hstart := hb.bounded.start_le
  rw [hb.brk_eq] at hstart
  have hto := hb.toNat_place hroom
  have hfront : (p - Naive.SIZE_T_SIZE).toNat = p.toNat - 8 :=
    UInt64.toNat_sub_of_le _ _ (UInt64.le_iff_toNat_le.mpr (by show 8 ≤ p.toNat; omega))
  have hword : obtenerWord (h.cut n) (p - Naive.SIZE_T_SIZE) = .ok m := by
    have hheap : InHeap (h.cut n) (p.toNat - 8) 8 := by
      refine ⟨?_, by omega⟩
      show h.memStartBrk.toNat ≤ _
      omega
    rw [obtenerWord, hfront, if_pos hheap, hcut.header p m (List.mem_cons_of_mem _ hp),
      UInt64.ofNat_toNat]
  have hlen : (if n < m then n else m).toNat = min m.toNat n.toNat := by
    split_ifs with hlt
    · have := UInt64.lt_iff_toNat_lt.mp hlt
      omega
    · have := UInt64.lt_iff_toNat_lt.not.mp hlt
      omega
  have hdest : InHeap (h.cut n) (brk + 8) (min m.toNat n.toNat) := by
    refine ⟨?_, by omega⟩
    show h.memStartBrk.toNat ≤ _
    omega
  have hsrc : InHeap (h.cut n) p.toNat (min m.toNat n.toNat) := by
    refine ⟨?_, by omega⟩
    show h.memStartBrk.toNat ≤ _
    omega
  have hcopy : memcpy (h.cut n) (UInt64.ofNat (brk + 8)) p (if n < m then n else m) =
      .ok { h.cut n with
        bytes := copyBytes (h.cut n).bytes (brk + 8) p.toNat (min m.toNat n.toNat) } := by
    rw [memcpy, hto, hlen, if_neg (not_not.mpr hdest), if_neg (not_not.mpr hsrc),
      if_neg (by omega)]
  refine ⟨{ h.cut n with
      bytes := copyBytes (h.cut n).bytes (brk + 8) p.toNat (min m.toNat n.toNat) }, ?_,
    ⟨rfl, fun x hx => ?_⟩, fun i hi => ?_⟩
  · rw [Naive.mmRealloc, hb.mmMalloc_room hn hroom]
    simp only [bind, Except.bind, if_neg (hb.place_ne_null hroom), hword, hcopy]
    rfl
  · exact if_neg (by omega)
  · have hcopied : copyBytes (h.cut n).bytes (brk + 8) p.toNat (min m.toNat n.toNat) (brk + 8 + i) =
        (h.cut n).bytes (p.toNat + i) := by
      rw [copyBytes, if_pos (by omega), Nat.add_sub_cancel_left]
    exact hcopied.trans (hb.untouched_cut (by omega))

end Bump

/-- The machine of the package in an arena that ends at `top`. -/
def bumpMachine (top : ℕ) : Machine ℕ UInt64 UInt64 :=
  bump (fun n => newsize n.toNat) (fun brk => UInt64.ofNat (brk + 8)) top

theorem naive_implements (top : ℕ) : Implements naive (bumpMachine top) (Bump top) where
  payloads hb := hb.payloads
  fill hb hp hw := hb.fill hp hw
  refuse hb hn hM := by
    simp only [bumpMachine, bump] at hM
    split_ifs at hM with hroom
    exact ⟨_, hb.mmMalloc_full hn hroom, hb⟩
  malloc hb hn hM := by
    simp only [bumpMachine, bump] at hM
    split_ifs at hM with hroom
    cases hM
    refine ⟨_, hb.mmMalloc_room hn hroom, hb.place_ne_null hroom, hb.cut hn hroom,
      hb.grows_cut hn hroom, fun q m hq i hi => ?_⟩
    have hin := hb.inside q m hq
    exact hb.untouched_cut (by omega)
  refuse_realloc hb hp hn hM := by
    simp only [bumpMachine, bump] at hM
    split_ifs at hM with hroom
    exact ⟨_, hb.mmRealloc_full hn hroom, hb⟩
  realloc {h brk live p m n q brk'} hb hp hn hM := by
    simp only [bumpMachine, bump] at hM
    split_ifs at hM with hroom
    cases hM
    obtain ⟨h', hrun, hw, hdata⟩ := hb.mmRealloc_room hp hn hroom
    have hto := hb.toNat_place hroom
    have hcut := hb.cut hn hroom
    have hmoved : Bump top h' (brk + newsize n.toNat) ((UInt64.ofNat (brk + 8), n) :: live) :=
      hcut.fill List.mem_cons_self (by rwa [hto])
    refine ⟨h', hrun, hb.place_ne_null hroom, ?_, ?_, fun i hi => ?_, fun r k hr _ i hi => ?_⟩
    · exact hmoved.sublist (List.filter_sublist.cons_cons _)
    · have hsize : memHeapsize h' = memHeapsize (h.cut n) := by
        rw [hw.rest]
        rfl
      rw [hsize]
      exact hb.grows_cut hn hroom
    · rw [hto]
      exact hdata i hi
    · have hin := hb.inside r k hr
      rw [hw.bytes _ (Or.inl (by omega))]
      exact hb.untouched_cut (by omega)
  free hb hp := ⟨_, rfl, hb.sublist List.filter_sublist, UInt64.le_refl _, fun r k _ _ i _ => rfl⟩

theorem Arena.bounded {h : Heap} (hA : Arena h) : Bounded (memResetBrk h) :=
  ⟨hA.pos, le_rfl, (Nat.le_add_right _ 32).trans hA.fits, hA.user⟩

theorem bump_start {h : Heap} (hA : Arena h) (hf : FullArena h) :
    Bump h.memMaxAddr.toNat (memResetBrk h) h.memStartBrk.toNat [] where
  bounded := hA.bounded
  full := hf
  top_eq := rfl
  brk_eq := rfl
  brk_aligned := dvd_trans (by decide) hA.aligned
  aligned _ _ hp := nomatch hp
  inside _ _ hp := nomatch hp
  apart := .nil
  positive _ _ hp := nomatch hp
  header _ _ hp := nomatch hp

def Trace.naiveBytes (trace : Trace) : ℕ :=
  spent (fun n : UInt64 => newsize n.toNat) (trace.ops.map TraceOp.request)

section Evaluation
variable {d : Mdriver} {trace : Trace} (hA : Arena d.heap) (hf : FullArena d.heap)
  (hwf : trace.WellFormed)
include hA hf hwf

/-- The break after the trace, if the machine serves it. -/
theorem replay_naive :
    ((bumpMachine d.heap.memMaxAddr.toNat).replay (opening d.heap.memStartBrk.toNat)
        (trace.ops.map TraceOp.request)).map Books.heap =
      if trace.naiveBytes ≤ MAX_HEAP.toNat then
        some (d.heap.memStartBrk.toNat + trace.naiveBytes) else none := by
  have hle : d.heap.memStartBrk.toNat ≤ d.heap.memMaxAddr.toNat :=
    hA.bounded.brk_le
  refine (replay_bump (b := opening d.heap.memStartBrk.toNat) hwf.2 hle).trans ?_
  show (if d.heap.memStartBrk.toNat + trace.naiveBytes ≤ d.heap.memMaxAddr.toNat then _ else _) = _
  rw [show d.heap.memMaxAddr.toNat = _ from hf]
  simp only [Nat.add_le_add_iff_left]
  rfl

/-- The machine serves the trace when its cost fits, and then its cost is the size of the heap. -/
theorem served_naive :
    ((bumpMachine d.heap.memMaxAddr.toNat).replay (opening d.heap.memStartBrk.toNat)
        (trace.ops.map TraceOp.request)).isSome = true ↔ trace.naiveBytes ≤ MAX_HEAP.toNat := by
  rw [← Option.isSome_map, replay_naive hA hf hwf]
  split_ifs with hfit <;> simp [hfit]

theorem memHeapsize_naive {h : Heap} {b : Books ℕ UInt64 UInt64 ℕ}
    (hserved : (bumpMachine d.heap.memMaxAddr.toNat).replay (opening d.heap.memStartBrk.toNat)
      (trace.ops.map TraceOp.request) = some b)
    (hend : Bump d.heap.memMaxAddr.toNat h b.heap b.live) :
    (memHeapsize h).toNat = trace.naiveBytes := by
  have hbrk := replay_naive hA hf hwf
  have hmax : d.heap.memMaxAddr.toNat = d.heap.memStartBrk.toNat + MAX_HEAP.toNat := hf
  have hmax' : h.memMaxAddr.toNat = h.memStartBrk.toNat + MAX_HEAP.toNat := hend.full
  have htop := hend.top_eq
  rw [hserved, Option.map_some] at hbrk
  split_ifs at hbrk
  have hend' := Option.some.inj hbrk
  rw [hend.memHeapsize_eq, hend']
  omega

/-- `eval_mm_valid` passes `mm-naive.c` exactly when everything that the trace ever requests fits
in the arena at once, and no request raises the alarm. -/
theorem evalMmValid_naive (t : ℕ) :
    ∃ ok d', evalMmValid naive trace t d = .ok (ok, d') ∧
      (ok = true ↔ trace.naiveBytes ≤ MAX_HEAP.toNat ∧ ∀ op ∈ trace.ops, op.alarms = false) ∧
      (ok = true → (memHeapsize d'.heap).toNat = trace.naiveBytes) := by
  obtain ⟨d', hrun, -, -, hend⟩ := evalMmValid_mirrors (t := t) (naive_implements _) rfl
    (by decide) (bump_start hA hf) hwf
  refine ⟨_, d', hrun, ?_, fun hok => ?_⟩
  · rw [Option.isNone_iff_eq_none, verdict_eq_none_iff, served_naive hA hf hwf]
  · obtain ⟨b, hserved, hm⟩ := hend (Option.isNone_iff_eq_none.mp hok)
    exact memHeapsize_naive hA hf hwf hserved hm.related

omit hA hf hwf in
theorem evalMmValid_naive_calmTrace : ∃ d', evalMmValid naive calmTrace 0 sampleDriver =
    .ok (true, d') ∧ (memHeapsize d'.heap).toNat = 7104 := by
  obtain ⟨ok, d', hrun, hiff, hsize⟩ := @evalMmValid_naive sampleDriver calmTrace
    arena_sampleArena (by decide) (by decide) 0
  have hok : ok = true := hiff.mpr (by decide +kernel)
  exact ⟨d', hok ▸ hrun, hsize hok⟩

/-- The quotient of `eval_mm_util` for `mm-naive.c`: the most bytes ever live over all that was
ever requested, with headers. -/
theorem evalMmUtil_naive :
    if trace.naiveBytes ≤ MAX_HEAP.toNat then
      ∃ u d', evalMmUtil naive trace d = .ok (u, d') ∧ u.heapsize.toNat = trace.naiveBytes ∧
        u.maxTotalSize.toInt = (bumpMachine d.heap.memMaxAddr.toNat).peak UInt64.toNat
          (opening d.heap.memStartBrk.toNat) (trace.ops.map TraceOp.request)
    else ∃ msg, evalMmUtil naive trace d = .error (.appError msg) := by
  obtain ⟨hrefused, hcounted⟩ := evalMmUtil_counts (naive_implements _) rfl (by decide)
    (bump_start hA hf) hwf
  have hiff := served_naive hA hf hwf
  split_ifs with hfit
  · obtain ⟨b, hserved⟩ := Option.isSome_iff_exists.mp (hiff.mpr hfit)
    obtain ⟨t, hrun, hc⟩ := hcounted b hserved
    exact ⟨_, t.driver, hrun, memHeapsize_naive hA hf hwf hserved hc.follows.related, hc.top_eq⟩
  · exact hrefused (Option.not_isSome_iff_eq_none.mp (mt hiff.mp hfit))

end Evaluation

theorem evalMmUtil_naive_calmTrace : ∃ u d', evalMmUtil naive calmTrace sampleDriver =
    .ok (u, d') ∧ u.heapsize.toNat = 7104 ∧ u.maxTotalSize.toInt = 5040 := by
  have hutil := @evalMmUtil_naive sampleDriver calmTrace arena_sampleArena (by decide) (by decide)
  rw [if_pos (by decide +kernel)] at hutil
  obtain ⟨u, d', hrun, hsize, hpeak⟩ := hutil
  have hmost : (bumpMachine sampleArena.memMaxAddr.toNat).peak UInt64.toNat
      (opening sampleArena.memStartBrk.toNat) (calmTrace.ops.map TraceOp.request) = 5040 := by
    decide +kernel
  exact ⟨u, d', hrun, hsize, by rw [hpeak]; exact_mod_cast hmost⟩

end Orga.Malloc
