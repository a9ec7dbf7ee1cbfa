import Orga.Malloc.Verdicts

/-! `eval_mm_util` and `eval_mm_speed` on the traces that `eval_mm_valid` has passed. -/
namespace Orga.Malloc
open Orga.Replay

section Payloads
variable {h : Heap} {live : List (UInt64 × UInt64)}

theorem Payloads.memHeapsize (hp : Payloads h live) :
    (memHeapsize h).toNat = h.memBrk.toNat - h.memStartBrk.toNat :=
  UInt64.toNat_sub_of_le _ _ (UInt64.le_iff_toNat_le.mpr hp.bounded.start_le)

theorem Payloads.memHeapsize_le (hp : Payloads h live) :
    (Malloc.memHeapsize h).toNat ≤ MAX_HEAP.toNat := by
  have hfull := hp.full
  have hbrk := hp.bounded.brk_le
  rw [hp.memHeapsize]
  unfold FullArena at hfull
  omega

theorem Payloads.sum_le (hp : Payloads h live) :
    (live.map fun e => e.2.toNat).sum ≤ (Malloc.memHeapsize h).toNat := by
  have hapart : (live.map fun e => (e.1.toNat, e.2.toNat)).Pairwise
      fun e f => e.1 + e.2 ≤ f.1 ∨ f.1 + f.2 ≤ e.1 := List.pairwise_map.mpr hp.apart
  have hle := sum_le_of_apart hapart fun e he => by
    obtain ⟨⟨p, n⟩, hpn, rfl⟩ := List.mem_map.mp he
    exact hp.inside p n hpn
  rw [List.map_map] at hle
  rw [hp.memHeapsize]
  exact hle

end Payloads

theorem toInt_add_of_fits {a b : Int32} (hlo : -2 ^ 31 ≤ a.toInt + b.toInt)
    (hhi : a.toInt + b.toInt < 2 ^ 31) : (a + b).toInt = a.toInt + b.toInt := by
  rw [Int32.toInt_add]
  exact Int.bmod_eq_of_le (by omega) (by omega)

theorem toInt_sub_of_fits {a b : Int32} (hlo : -2 ^ 31 ≤ a.toInt - b.toInt)
    (hhi : a.toInt - b.toInt < 2 ^ 31) : (a - b).toInt = a.toInt - b.toInt := by
  rw [Int32.toInt_sub]
  exact Int.bmod_eq_of_le (by omega) (by omega)

section Steps
variable {pkg : Package} {trace : Trace} {op : TraceOp} {t : Tally} {d : Mdriver}
  {p q n : UInt64} {h' : Heap} (hop : op.Proper trace.numIds)
include hop

theorem utilOp_alloc (htype : op.type = .alloc)
    (hrun : pkg.mmMalloc t.driver.heap (sizeT op.size) = .ok (p, h')) (hp : p ≠ NULL) :
    utilOp pkg trace op t = .ok (t.add ({ t.driver with heap := h' }.remember
      op.index.toInt.toNat p op.size) op.size) := by
  unfold utilOp
  rw [htype]
  simp only [hrun, call, Except.mapError, bind, Except.bind, if_neg hp, slot_eq hop]
  rfl

omit hop in
theorem utilOp_alloc_null (htype : op.type = .alloc)
    (hrun : pkg.mmMalloc t.driver.heap (sizeT op.size) = .ok (NULL, h')) :
    utilOp pkg trace op t = .error (.appError "mm_malloc failed in eval_mm_util") := by
  unfold utilOp
  rw [htype]
  dsimp only
  rw [hrun]
  rfl

theorem utilOp_realloc (htype : op.type = .realloc)
    (hsize : t.driver.blockSizes op.index.toInt.toNat = some n)
    (hold : t.driver.blocks op.index.toInt.toNat = some p)
    (hrun : pkg.mmRealloc t.driver.heap p (sizeT op.size) = .ok (q, h')) (hq : q ≠ NULL) :
    utilOp pkg trace op t = .ok (t.add ({ t.driver with heap := h' }.remember
      op.index.toInt.toNat q op.size) (op.size - n.toUInt32.toInt32)) := by
  unfold utilOp
  rw [htype]
  simp only [slot_eq hop, bind, Except.bind, load_eq hsize, load_eq hold, hrun, call,
    Except.mapError, if_neg hq]
  rfl

theorem utilOp_realloc_null (htype : op.type = .realloc)
    (hsize : t.driver.blockSizes op.index.toInt.toNat = some n)
    (hold : t.driver.blocks op.index.toInt.toNat = some p)
    (hrun : pkg.mmRealloc t.driver.heap p (sizeT op.size) = .ok (NULL, h')) :
    utilOp pkg trace op t = .error (.appError "mm_realloc failed in eval_mm_util") := by
  unfold utilOp
  rw [htype]
  simp only [slot_eq hop, bind, Except.bind, load_eq hsize, load_eq hold, hrun]
  rfl

theorem utilOp_free (htype : op.type = .free)
    (hsize : t.driver.blockSizes op.index.toInt.toNat = some n)
    (hold : t.driver.blocks op.index.toInt.toNat = some p)
    (hrun : pkg.mmFree t.driver.heap p = .ok h') :
    utilOp pkg trace op t = .ok ⟨{ t.driver with heap := h' },
      t.totalSize - n.toUInt32.toInt32, t.maxTotalSize⟩ := by
  unfold utilOp
  rw [htype]
  simp only [slot_eq hop, bind, Except.bind, load_eq hsize, load_eq hold, hrun, call,
    Except.mapError]
  rfl

theorem speedOp_alloc (htype : op.type = .alloc)
    (hrun : pkg.mmMalloc d.heap (sizeT op.size) = .ok (p, h')) (hp : p ≠ NULL) :
    speedOp pkg trace op d = .ok { d with
      heap := h', blocks := Function.update d.blocks op.index.toInt.toNat (some p) } := by
  unfold speedOp
  rw [htype]
  simp only [hrun, call, Except.mapError, bind, Except.bind, if_neg hp, slot_eq hop]
  rfl

theorem speedOp_realloc (htype : op.type = .realloc)
    (hold : d.blocks op.index.toInt.toNat = some p)
    (hrun : pkg.mmRealloc d.heap p (sizeT op.size) = .ok (q, h')) (hq : q ≠ NULL) :
    speedOp pkg trace op d = .ok { d with
      heap := h', blocks := Function.update d.blocks op.index.toInt.toNat (some q) } := by
  unfold speedOp
  rw [htype]
  simp only [slot_eq hop, bind, Except.bind, load_eq hold, hrun, call, Except.mapError, if_neg hq]
  rfl

theorem speedOp_free (htype : op.type = .free) (hold : d.blocks op.index.toInt.toNat = some p)
    (hrun : pkg.mmFree d.heap p = .ok h') :
    speedOp pkg trace op d = .ok { d with heap := h' } := by
  unfold speedOp
  rw [htype]
  simp only [slot_eq hop, bind, Except.bind, load_eq hold, hrun, call, Except.mapError]
  rfl

end Steps

/-- The heap and the pointers of the trace are those of the books. -/
structure Follows {α : Type} (R : Heap → α → List (UInt64 × UInt64) → Prop) (h : Heap)
    (blocks : ℕ → Option UInt64) (b : Books α UInt64 UInt64 ℕ) : Prop where
  related : R h b.heap b.live
  tracks : Tracks b.held b.live
  stored : ∀ k p, b.held k = some p → blocks k = some p

/-- The sizes of the trace are those of the books. -/
def SizesFollow {α : Type} (blockSizes : ℕ → Option UInt64) (b : Books α UInt64 UInt64 ℕ) :
    Prop :=
  ∀ k p, b.held k = some p → ∃ n, (p, n) ∈ b.live ∧ blockSizes k = some n ∧ IsRequest n

theorem Mirrors.follows {α : Type} {R : Heap → α → List (UInt64 × UInt64) → Prop} {d : Mdriver}
    {b : Books α UInt64 UInt64 ℕ} (hm : Mirrors R d b) : Follows R d.heap d.blocks b :=
  ⟨hm.related, hm.tracks, fun k p hk => (hm.stored k p hk).1⟩

theorem stored_update {held blocks : ℕ → Option UInt64} {k : ℕ} {v : UInt64}
    (hs : ∀ j p, held j = some p → blocks j = some p) (j : ℕ) (p : UInt64)
    (hj : Function.update held k (some v) j = some p) :
    Function.update blocks k (some v) j = some p := by
  by_cases hjk : j = k
  · subst hjk
    rwa [Function.update_self] at hj ⊢
  · rw [Function.update_of_ne hjk] at hj ⊢
    exact hs j p hj

section Simulation
variable {α : Type} {pkg : Package} {M : Machine α UInt64 UInt64}
  {R : Heap → α → List (UInt64 × UInt64) → Prop} (hI : Implements pkg M R)
  {h : Heap} {blocks : ℕ → Option UInt64} {b b' : Books α UInt64 UInt64 ℕ} {k : ℕ}
  {n p : UInt64}

section Calls
include hI

theorem Follows.alloc (hf : Follows R h blocks b) (hn : IsRequest n)
    (hserve : M.serve b (.alloc k n) = some b') :
    ∃ q h', pkg.mmMalloc h n = .ok (q, h') ∧ q ≠ NULL ∧ memHeapsize h ≤ memHeapsize h' ∧
      Follows R h' (Function.update blocks k (some q)) b' ∧
      b'.held = Function.update b.held k (some q) ∧ b'.live = (q, n) :: b.live := by
  obtain ⟨⟨q, a'⟩, hM, rfl⟩ := Option.map_eq_some_iff.mp hserve
  obtain ⟨h', hrun, hal⟩ := hI.malloc hf.related hn hM
  have htracks := hf.tracks.grant k (n := n) (hI.payloads hal.related).fresh
  exact ⟨q, h', hrun, hal.ne_null, hal.grows, ⟨hal.related, htracks, stored_update hf.stored⟩,
    rfl, rfl⟩

theorem Follows.realloc (hf : Follows R h blocks b) (hn : IsRequest n)
    (hheld : b.held k = some p) (hserve : M.serve b (.realloc k n) = some b') :
    ∃ q h', pkg.mmRealloc h p n = .ok (q, h') ∧ q ≠ NULL ∧ memHeapsize h ≤ memHeapsize h' ∧
      Follows R h' (Function.update blocks k (some q)) b' ∧
      b'.held = Function.update b.held k (some q) ∧ b'.live = (q, n) :: drop p b.live := by
  simp only [Machine.serve, hheld, Option.bind_some] at hserve
  obtain ⟨⟨q, a'⟩, hM, rfl⟩ := Option.map_eq_some_iff.mp hserve
  obtain ⟨m, hm⟩ := hf.tracks.backed k p hheld
  obtain ⟨h', hrun, hre⟩ := hI.realloc hf.related hm hn hM
  have htracks := hf.tracks.exchange (n := n) hheld (hI.payloads hre.related).fresh
  exact ⟨q, h', hrun, hre.ne_null, hre.grows, ⟨hre.related, htracks, stored_update hf.stored⟩,
    rfl, rfl⟩

theorem Follows.free (hf : Follows R h blocks b) (hheld : b.held k = some p)
    (hserve : M.serve b (.free k) = some b') :
    ∃ h', pkg.mmFree h p = .ok h' ∧ memHeapsize h ≤ memHeapsize h' ∧ Follows R h' blocks b' ∧
      b'.held = Function.update b.held k none ∧ b'.live = drop p b.live := by
  simp only [Machine.serve, hheld, Option.map_some, Option.some.injEq] at hserve
  subst hserve
  obtain ⟨m, hm⟩ := hf.tracks.backed k p hheld
  obtain ⟨h', hrun, hR, hgrows, -⟩ := hI.free hf.related hm
  refine ⟨h', hrun, hgrows, ⟨hR, hf.tracks.release hheld, fun j q hj => ?_⟩, rfl, rfl⟩
  dsimp only at hj
  by_cases hjk : j = k
  · rw [hjk, Function.update_self] at hj
    cases hj
  · rw [Function.update_of_ne hjk] at hj
    exact hf.stored j q hj

end Calls

/-- `eval_mm_util` has counted what the books say; `top` is the most so far. -/
structure Counts (R : Heap → α → List (UInt64 × UInt64) → Prop) (t : Tally)
    (b : Books α UInt64 UInt64 ℕ) (top : ℕ) : Prop where
  follows : Follows R t.driver.heap t.driver.blocks b
  sizes : SizesFollow t.driver.blockSizes b
  total : t.totalSize.toInt = b.wanted UInt64.toNat
  top_eq : t.maxTotalSize.toInt = top
  wanted_le : b.wanted UInt64.toNat ≤ top
  top_le : top ≤ (memHeapsize t.driver.heap).toNat

theorem Tally.add_counts {t : Tally} {d : Mdriver} {bytes : Int32} {w w' top : ℕ}
    (htotal : t.totalSize.toInt = w) (htop : t.maxTotalSize.toInt = top)
    (hbytes : (w' : ℤ) = w + bytes.toInt) (hfits : w' < 2 ^ 31) :
    (t.add d bytes).driver = d ∧ (t.add d bytes).totalSize.toInt = w' ∧
      (t.add d bytes).maxTotalSize.toInt = (Max.max top w' : ℕ) := by
  have hadd : (t.totalSize + bytes).toInt = w' := by
    rw [toInt_add_of_fits (by omega) (by omega)]
    omega
  refine ⟨rfl, hadd, ?_⟩
  have hgt : t.totalSize + bytes > t.maxTotalSize ↔ top < w' := by
    rw [gt_iff_lt, Int32.lt_iff_toInt_lt, htop, hadd]
    omega
  unfold Tally.add
  dsimp only
  split_ifs with hlt
  · rw [hadd, Nat.max_eq_right (hgt.mp hlt).le]
  · rw [htop, Nat.max_eq_left (not_lt.mp (mt hgt.mpr hlt))]

theorem SizesFollow.update {blockSizes : ℕ → Option UInt64} {live : List (UInt64 × UInt64)}
    {q : UInt64} (hs : SizesFollow blockSizes b) (hheld : b'.held = Function.update b.held k (some q))
    (hlive : b'.live = (q, n) :: live) (hn : IsRequest n)
    (hkeep : ∀ j p m, j ≠ k → b.held j = some p → (p, m) ∈ b.live → (p, m) ∈ live) :
    SizesFollow (Function.update blockSizes k (some n)) b' := by
  intro j p hj
  rw [hheld] at hj
  rw [hlive]
  by_cases hjk : j = k
  · subst hjk
    rw [Function.update_self] at hj ⊢
    cases hj
    exact ⟨n, List.mem_cons_self, rfl, hn⟩
  · rw [Function.update_of_ne hjk] at hj ⊢
    obtain ⟨m, hm, hsize, hreq⟩ := hs j p hj
    exact ⟨m, List.mem_cons_of_mem _ (hkeep j p m hjk hj hm), hsize, hreq⟩

section Requests
variable {trace : Trace} {op : TraceOp} {t : Tally} {top : ℕ} (hc : Counts R t b top)
include hI hc

theorem Counts.grown {d : Mdriver} {bytes : Int32} (hf : Follows R d.heap d.blocks b')
    (hs : SizesFollow d.blockSizes b') (hgrows : memHeapsize t.driver.heap ≤ memHeapsize d.heap)
    (hbytes : (b'.wanted UInt64.toNat : ℤ) = b.wanted UInt64.toNat + bytes.toInt) :
    Counts R (t.add d bytes) b' (Max.max top (b'.wanted UInt64.toNat)) := by
  have hpay := hI.payloads hf.related
  have hroom : b'.wanted UInt64.toNat ≤ (memHeapsize d.heap).toNat := hpay.sum_le
  have hmax := hpay.memHeapsize_le
  have h20 : MAX_HEAP.toNat = 20971520 := rfl
  have hle := UInt64.le_iff_toNat_le.mp hgrows
  obtain ⟨hd, htotal, htop⟩ :=
    Tally.add_counts (d := d) hc.total hc.top_eq hbytes (by omega)
  refine ⟨hd ▸ hf, hd ▸ hs, htotal, htop, Nat.le_max_right _ _, ?_⟩
  rw [hd]
  exact Nat.max_le.mpr ⟨hc.top_le.trans hle, hroom⟩

variable (hop : op.Proper trace.numIds)
include hop

theorem Counts.alloc (htype : op.type = .alloc) (hserve : M.serve b op.request = some b') :
    ∃ t', utilOp pkg trace op t = .ok t' ∧
      Counts R t' b' (Max.max top (b'.wanted UInt64.toNat)) := by
  have hsize : 0 < op.size := hop.2.2 (by rw [htype]; decide)
  have hreq := isRequest_sizeT hsize
  have hto := toNat_sizeT (Int32.lt_iff_toInt_lt.mp hsize).le
  simp only [TraceOp.request, htype] at hserve
  obtain ⟨q, h', hrun, hq, hgrows, hf, hheld, hlive⟩ := hc.follows.alloc hI hreq hserve
  have hwanted : b'.wanted UInt64.toNat = (sizeT op.size).toNat + b.wanted UInt64.toNat := by
    rw [Books.wanted, Books.wanted, hlive, List.map_cons, List.sum_cons]
  have hs := hc.sizes.update hheld hlive hreq fun _ _ _ _ _ hm => hm
  refine ⟨_, utilOp_alloc hop htype hrun hq, hc.grown hI hf hs hgrows ?_⟩
  have hpos := Int32.lt_iff_toInt_lt.mp hsize
  change 0 < op.size.toInt at hpos
  omega

theorem Counts.realloc (htype : op.type = .realloc)
    (hheld : b.held op.index.toInt.toNat = some p) (hserve : M.serve b op.request = some b') :
    ∃ t', utilOp pkg trace op t = .ok t' ∧
      Counts R t' b' (Max.max top (b'.wanted UInt64.toNat)) := by
  have hsize : 0 < op.size := hop.2.2 (by rw [htype]; decide)
  have hreq := isRequest_sizeT hsize
  have hto := toNat_sizeT (Int32.lt_iff_toInt_lt.mp hsize).le
  simp only [TraceOp.request, htype] at hserve
  obtain ⟨m, hm, hmsize, hmreq⟩ := hc.sizes _ p hheld
  obtain ⟨q, h', hrun, hq, hgrows, hf, hheld', hlive⟩ := hc.follows.realloc hI hreq hheld hserve
  have hnodup := (hI.payloads hc.follows.related).nodup
  have hdrop := wanted_drop (w := UInt64.toNat) hnodup hm
  have hnew : b'.wanted UInt64.toNat =
      (sizeT op.size).toNat + ((drop p b.live).map fun e => e.2.toNat).sum := by
    rw [Books.wanted, hlive, List.map_cons, List.sum_cons]
  have hwanted : b'.wanted UInt64.toNat + m.toNat =
      (sizeT op.size).toNat + b.wanted UInt64.toNat := by
    rw [hnew, Nat.add_assoc, hdrop]
    rfl
  have hs := hc.sizes.update hheld' hlive hreq fun j r k hj hr hk =>
    hc.follows.tracks.mem_drop hheld hj hr hk
  have hrun' := utilOp_realloc hop htype hmsize (hc.follows.stored _ p hheld) hrun hq
  refine ⟨_, hrun', hc.grown hI hf hs hgrows ?_⟩
  have hpos := Int32.lt_iff_toInt_lt.mp hsize
  change 0 < op.size.toInt at hpos
  have hlow := toInt_low hmreq.lt
  have hlt := hmreq.lt
  have hmax := op.size.toInt_lt
  rw [toInt_sub_of_fits (by omega) (by omega)]
  omega

theorem Counts.free (htype : op.type = .free) (hheld : b.held op.index.toInt.toNat = some p)
    (hserve : M.serve b op.request = some b') :
    ∃ t', utilOp pkg trace op t = .ok t' ∧
      Counts R t' b' (Max.max top (b'.wanted UInt64.toNat)) := by
  simp only [TraceOp.request, htype] at hserve
  obtain ⟨m, hm, hmsize, hmreq⟩ := hc.sizes _ p hheld
  obtain ⟨h', hrun, hgrows, hf, hheld', hlive⟩ := hc.follows.free hI hheld hserve
  have hnodup := (hI.payloads hc.follows.related).nodup
  have hdrop := wanted_drop (w := UInt64.toNat) hnodup hm
  have hwanted : b'.wanted UInt64.toNat + m.toNat = b.wanted UInt64.toNat := by
    rw [Books.wanted, Books.wanted, hlive, hdrop]
  have hle := UInt64.le_iff_toNat_le.mp hgrows
  have hwtop := hc.wanted_le
  have htotal := hc.total
  have hroom : b.wanted UInt64.toNat ≤ _ := (hI.payloads hc.follows.related).sum_le
  have hmax := (hI.payloads hc.follows.related).memHeapsize_le
  have h20 : MAX_HEAP.toNat = 20971520 := rfl
  have hlow := toInt_low hmreq.lt
  have hlt := hmreq.lt
  rw [Nat.max_eq_left (by omega)]
  refine ⟨_, utilOp_free hop htype hmsize (hc.follows.stored _ p hheld) hrun,
    hf, fun j r hj => ?_, ?_, hc.top_eq, by omega, hc.top_le.trans hle⟩
  · rw [hheld'] at hj
    rw [hlive]
    by_cases hjk : j = op.index.toInt.toNat
    · rw [hjk, Function.update_self] at hj
      cases hj
    · rw [Function.update_of_ne hjk] at hj
      obtain ⟨k, hk, hksize, hkreq⟩ := hc.sizes j r hj
      exact ⟨k, hc.follows.tracks.mem_drop hheld hjk hj hk, hksize, hkreq⟩
  · dsimp only
    rw [toInt_sub_of_fits (by omega) (by omega)]
    omega

theorem Counts.request (hallow : op.request.Allowed (holders b.held))
    (hserve : M.serve b op.request = some b') :
    ∃ t', utilOp pkg trace op t = .ok t' ∧
      Counts R t' b' (Max.max top (b'.wanted UInt64.toNat)) := by
  cases htype : op.type with
  | alloc => exact hc.alloc hI hop htype hserve
  | realloc =>
    simp only [TraceOp.request, htype] at hallow
    obtain ⟨p, hp⟩ := Option.isSome_iff_exists.mp hallow
    exact hc.realloc hI hop htype hp hserve
  | free =>
    simp only [TraceOp.request, htype] at hallow
    obtain ⟨p, hp⟩ := Option.isSome_iff_exists.mp hallow
    exact hc.free hI hop htype hp hserve

theorem Counts.refused (hallow : op.request.Allowed (holders b.held))
    (hserve : M.serve b op.request = none) :
    ∃ msg, utilOp pkg trace op t = .error (.appError msg) := by
  cases htype : op.type with
  | alloc =>
    have hreq := isRequest_sizeT (hop.2.2 (by rw [htype]; decide))
    simp only [TraceOp.request, htype] at hserve
    obtain ⟨h', hrun, -⟩ := hI.refuse hc.follows.related hreq (Option.map_eq_none_iff.mp hserve)
    exact ⟨_, utilOp_alloc_null htype hrun⟩
  | realloc =>
    have hreq := isRequest_sizeT (hop.2.2 (by rw [htype]; decide))
    simp only [TraceOp.request, htype] at hallow hserve
    obtain ⟨p, hp⟩ := Option.isSome_iff_exists.mp hallow
    obtain ⟨m, hm, hmsize, -⟩ := hc.sizes _ p hp
    simp only [Machine.serve, hp, Option.bind_some] at hserve
    obtain ⟨h', hrun, -⟩ :=
      hI.refuse_realloc hc.follows.related hm hreq (Option.map_eq_none_iff.mp hserve)
    exact ⟨_, utilOp_realloc_null hop htype hmsize (hc.follows.stored _ p hp) hrun⟩
  | free =>
    simp only [TraceOp.request, htype] at hallow hserve
    obtain ⟨p, hp⟩ := Option.isSome_iff_exists.mp hallow
    simp only [Machine.serve, hp, Option.map_some] at hserve
    cases hserve

end Requests

section Runs
variable {trace : Trace} {ops : List TraceOp}
include hI

theorem Counts.run {t : Tally} {top : ℕ} (hc : Counts R t b top)
    (hops : ∀ op ∈ ops, op.Proper trace.numIds)
    (hadm : admissible (holders b.held) (ops.map TraceOp.request) = true) :
    (M.replay b (ops.map TraceOp.request) = none →
      ∃ msg, utilOps pkg trace ops t = .error (.appError msg)) ∧
    ∀ b', M.replay b (ops.map TraceOp.request) = some b' →
      ∃ t', utilOps pkg trace ops t = .ok t' ∧
        Counts R t' b' (Max.max top (M.peak UInt64.toNat b (ops.map TraceOp.request))) := by
  induction ops generalizing t b top with
  | nil =>
    refine ⟨fun h => absurd h (by simp [Machine.replay]), fun b' hb' => ⟨t, rfl, ?_⟩⟩
    cases hb'
    rw [List.map_nil, Machine.peak, Nat.max_eq_left hc.wanted_le]
    exact hc
  | cons op ops ih =>
    obtain ⟨hop, hops⟩ := List.forall_mem_cons.mp hops
    obtain ⟨hallow, hadm⟩ := admissible_cons.mp hadm
    rw [List.map_cons, Machine.replay, Machine.peak, utilOps]
    cases hserve : M.serve b op.request with
    | none =>
      obtain ⟨msg, hrun⟩ := hc.refused hI hop hallow hserve
      refine ⟨fun _ => ⟨msg, ?_⟩, fun b' hb' => absurd hb' (by simp)⟩
      rw [hrun]
      rfl
    | some b' =>
      obtain ⟨t', hrun, hc'⟩ := hc.request hI hop hallow hserve
      rw [← Machine.holders_of_serve hserve] at hadm
      obtain ⟨hrefused, hserved⟩ := ih hc' hops hadm
      have hw := hc.wanted_le
      have hle := M.wanted_le_peak UInt64.toNat b' (ops.map TraceOp.request)
      rw [Option.bind_some, Option.map_some, Option.getD_some, hrun]
      refine ⟨hrefused, fun b'' hb'' => ?_⟩
      obtain ⟨t'', hrun', hc''⟩ := hserved b'' hb''
      refine ⟨t'', hrun', ?_⟩
      have htop : Max.max top (Max.max (b.wanted UInt64.toNat)
          (M.peak UInt64.toNat b' (ops.map TraceOp.request))) =
          Max.max (Max.max top (b'.wanted UInt64.toNat))
            (M.peak UInt64.toNat b' (ops.map TraceOp.request)) := by
        omega
      rw [htop]
      exact hc''

/-- `eval_mm_speed` makes the calls of the trace. -/
theorem Follows.run {d : Mdriver} (hf : Follows R d.heap d.blocks b)
    (hops : ∀ op ∈ ops, op.Proper trace.numIds)
    (hadm : admissible (holders b.held) (ops.map TraceOp.request) = true)
    (hserved : M.replay b (ops.map TraceOp.request) = some b') :
    ∃ d', speedOps pkg trace ops d = .ok d' ∧ Follows R d'.heap d'.blocks b' := by
  induction ops generalizing d b with
  | nil =>
    cases hserved
    exact ⟨d, rfl, hf⟩
  | cons op ops ih =>
    obtain ⟨hop, hops⟩ := List.forall_mem_cons.mp hops
    obtain ⟨hallow, hadm⟩ := admissible_cons.mp hadm
    obtain ⟨b₁, hserve, hserved⟩ := Option.bind_eq_some_iff.mp hserved
    rw [← Machine.holders_of_serve hserve] at hadm
    have hstep : ∃ d₁, speedOp pkg trace op d = .ok d₁ ∧ Follows R d₁.heap d₁.blocks b₁ := by
      cases htype : op.type with
      | alloc =>
        have hreq := isRequest_sizeT (hop.2.2 (by rw [htype]; decide))
        simp only [TraceOp.request, htype] at hserve
        obtain ⟨q, h', hrun, hq, -, hf', -⟩ := hf.alloc hI hreq hserve
        exact ⟨_, speedOp_alloc hop htype hrun hq, hf'⟩
      | realloc =>
        have hreq := isRequest_sizeT (hop.2.2 (by rw [htype]; decide))
        simp only [TraceOp.request, htype] at hserve hallow
        obtain ⟨p, hp⟩ := Option.isSome_iff_exists.mp hallow
        obtain ⟨q, h', hrun, hq, -, hf', -⟩ := hf.realloc hI hreq hp hserve
        exact ⟨_, speedOp_realloc hop htype (hf.stored _ p hp) hrun hq, hf'⟩
      | free =>
        simp only [TraceOp.request, htype] at hserve hallow
        obtain ⟨p, hp⟩ := Option.isSome_iff_exists.mp hallow
        obtain ⟨h', hrun, -, hf', -⟩ := hf.free hI hp hserve
        exact ⟨_, speedOp_free hop htype (hf.stored _ p hp) hrun, hf'⟩
    obtain ⟨d₁, hrun, hf₁⟩ := hstep
    obtain ⟨d', hrun', hf'⟩ := ih hf₁ hops hadm hserved
    refine ⟨d', ?_, hf'⟩
    rw [speedOps, hrun]
    exact hrun'

end Runs

end Simulation

theorem opening_follows {α : Type} {R : Heap → α → List (UInt64 × UInt64) → Prop} {h : Heap}
    {a : α} (hR : R h a []) (blocks : ℕ → Option UInt64) : Follows R h blocks (opening a) where
  related := hR
  tracks := ⟨fun _ _ hk => (nomatch hk), fun _ _ _ hk => (nomatch hk)⟩
  stored _ _ hk := nomatch hk

/-- `eval_mm_util` counts what the machine serves, or ends the program. -/
theorem evalMmUtil_counts {α : Type} {pkg : Package} {M : Machine α UInt64 UInt64}
    {R : Heap → α → List (UInt64 × UInt64) → Prop} (hI : Implements pkg M R) {trace : Trace}
    {d : Mdriver} {a : α} {h : Heap} {r : Int32}
    (hinit : pkg.mmInit (memResetBrk d.heap) = .ok (r, h)) (hr : ¬ r < 0) (hR : R h a [])
    (hwf : trace.WellFormed) :
    (M.replay (opening a) (trace.ops.map TraceOp.request) = none →
      ∃ msg, evalMmUtil pkg trace d = .error (.appError msg)) ∧
    ∀ b, M.replay (opening a) (trace.ops.map TraceOp.request) = some b →
      ∃ t, evalMmUtil pkg trace d =
          .ok (⟨t.maxTotalSize, memHeapsize t.driver.heap⟩, t.driver) ∧
        Counts R t b (M.peak UInt64.toNat (opening a) (trace.ops.map TraceOp.request)) := by
  have hc : Counts R ⟨{ d with heap := h }, 0, 0⟩ (opening a) 0 :=
    ⟨opening_follows hR d.blocks, fun _ _ hk => (nomatch hk), rfl, rfl, le_rfl, Nat.zero_le _⟩
  obtain ⟨hrefused, hserved⟩ := hc.run hI hwf.1 hwf.2
  have heq : evalMmUtil pkg trace d =
      (utilOps pkg trace trace.ops ⟨{ d with heap := h }, 0, 0⟩ >>=
        fun t => .ok (⟨t.maxTotalSize, memHeapsize t.driver.heap⟩, t.driver)) := by
    unfold evalMmUtil
    simp only [hinit, call, Except.mapError, bind, Except.bind, if_neg hr]
    rfl
  rw [heq]
  refine ⟨fun hnone => ?_, fun b hb => ?_⟩
  · obtain ⟨msg, hrun⟩ := hrefused hnone
    exact ⟨msg, by rw [hrun]; rfl⟩
  · obtain ⟨t, hrun, hcount⟩ := hserved b hb
    rw [Nat.max_eq_right (Nat.zero_le _)] at hcount
    exact ⟨t, by rw [hrun]; rfl, hcount⟩

section Mm
variable {d : Mdriver} {trace : Trace} (hA : Arena d.heap) (hf : FullArena d.heap)
  (hwf : trace.WellFormed)
include hA hf hwf

/-- `eval_mm_util` ends the program exactly when the first-fit list does not serve the trace.
Otherwise its quotient is the most bytes ever live over the size of the heap, with no overflow of
the counters, and at most 1. -/
theorem evalMmUtil_mm :
    (d.heap.machine.replay d.heap.opening (trace.ops.map TraceOp.request) = none →
      ∃ msg, evalMmUtil mm trace d = .error (.appError msg)) ∧
    ∀ b, d.heap.machine.replay d.heap.opening (trace.ops.map TraceOp.request) = some b →
      ∃ u d', evalMmUtil mm trace d = .ok (u, d') ∧
        u.maxTotalSize.toInt = d.heap.machine.peak UInt64.toNat d.heap.opening
          (trace.ops.map TraceOp.request) ∧
        u.heapsize.toNat = total b.heap + 32 ∧ u.maxTotalSize.toInt ≤ u.heapsize.toNat := by
  obtain ⟨r, h, hinit, hr, hl⟩ := listHeap_start hA hf
  obtain ⟨hrefused, hserved⟩ := evalMmUtil_counts (mm_implements _ _) hinit hr hl hwf
  refine ⟨hrefused, fun b hb => ?_⟩
  obtain ⟨t, hrun, hc⟩ := hserved b hb
  refine ⟨_, t.driver, hrun, hc.top_eq, hc.follows.related.memHeapsize_eq, ?_⟩
  rw [hc.top_eq]
  exact_mod_cast hc.top_le

end Mm

def Trace.held (trace : Trace) : ℕ → Bool :=
  holdersAfter (fun _ => false) (trace.ops.map TraceOp.request)

/-- The arena of `h` is ready for a run. -/
structure Ready (h h' : Heap) : Prop where
  arena : Arena h'
  full : FullArena h'
  base_eq : base h' = base h
  room_eq : room h' = room h

theorem ListHeap.ready {h h' : Heap} {bs : List Bloque} {live : List (UInt64 × UInt64)}
    (hl : ListHeap (base h) (room h) h' bs live) : Ready h h' :=
  ⟨hl.valid.layout.arena, hl.full, hl.base_eq, hl.room_eq⟩

theorem Ready.mmInit {h h' : Heap} (hr : Ready h h') :
    ∃ r h'', mm.mmInit (memResetBrk h') = .ok (r, h'') ∧ ¬ r < 0 ∧
      ListHeap (base h) (room h) h'' (initialBlocks (room h)) [] := by
  have hstart := listHeap_start hr.arena hr.full
  rw [hr.base_eq, hr.room_eq] at hstart
  exact hstart

/-- What is left of a run of the trace that was served: the blocks of `b`, in the arena of `h`. -/
structure Completed (h : Heap) (b : Books (List Bloque) UInt64 UInt64 ℕ) (d : Mdriver) : Prop where
  follows : Follows (ListHeap (base h) (room h)) d.heap d.blocks b

namespace Completed
variable {h : Heap} {b : Books (List Bloque) UInt64 UInt64 ℕ} {d : Mdriver} {trace : Trace}

theorem memHeapsize (hc : Completed h b d) : (memHeapsize d.heap).toNat = total b.heap + 32 :=
  hc.follows.related.memHeapsize_eq

variable (hwf : trace.WellFormed)
  (hb : h.machine.replay h.opening (trace.ops.map TraceOp.request) = some b)
include hwf hb

theorem evalMmUtil {b₀ : Books (List Bloque) UInt64 UInt64 ℕ} (hc : Completed h b₀ d) :
    ∃ u d', evalMmUtil mm trace d = .ok (u, d') ∧ Completed h b d' ∧
      u.heapsize = Malloc.memHeapsize d'.heap ∧ u.maxTotalSize.toInt =
        h.machine.peak UInt64.toNat h.opening (trace.ops.map TraceOp.request) := by
  obtain ⟨r, h', hinit, hr, hl⟩ := hc.follows.related.ready.mmInit
  obtain ⟨-, hutil⟩ := evalMmUtil_counts (mm_implements _ _) hinit hr hl hwf
  obtain ⟨t, hrun, hcount⟩ := hutil b hb
  exact ⟨_, t.driver, hrun, ⟨hcount.follows⟩, rfl, hcount.top_eq⟩

theorem evalMmSpeed {b₀ : Books (List Bloque) UInt64 UInt64 ℕ} (hc : Completed h b₀ d) :
    ∃ d', evalMmSpeed mm trace d = .ok d' ∧ Completed h b d' := by
  obtain ⟨r, h', hinit, hr, hl⟩ := hc.follows.related.ready.mmInit
  have hstart : Follows (ListHeap (base h) (room h)) h' d.blocks h.opening :=
    opening_follows hl d.blocks
  obtain ⟨d', hrun, hf'⟩ := Follows.run (mm_implements _ _) (d := { d with heap := h' }) hstart
    hwf.1 hwf.2 hb
  refine ⟨d', ?_, ⟨hf'⟩⟩
  unfold Malloc.evalMmSpeed
  simp only [hinit, call, Except.mapError, bind, Except.bind, if_neg hr]
  exact hrun

theorem timedSpeed (n : ℕ) (hc : Completed h b d) :
    ∃ d', timedSpeed mm trace n d = .ok d' ∧ Completed h b d' := by
  induction n generalizing d with
  | zero => exact ⟨d, rfl, hc⟩
  | succ n ih =>
    obtain ⟨d₁, hrun, hc₁⟩ := hc.evalMmSpeed hwf hb
    obtain ⟨d', hrun', hc'⟩ := ih hc₁
    refine ⟨d', ?_, hc'⟩
    rw [Malloc.timedSpeed, hrun]
    exact hrun'

end Completed

/-- A trace that `eval_mm_valid` has passed goes through `eval_mm_util` and then through
`eval_mm_speed` as often as it is timed. Each run ends with the heap size and, for every name
that is left, the pointer of the first. -/
theorem evalMm_agree {d d₁ : Mdriver} {trace : Trace} {t : ℕ} (n : ℕ) (hA : Arena d.heap)
    (hf : FullArena d.heap) (hwf : trace.WellFormed)
    (hvalid : evalMmValid mm trace t d = .ok (true, d₁)) :
    ∃ u d₂ d₃, evalMmUtil mm trace d₁ = .ok (u, d₂) ∧ timedSpeed mm trace n d₂ = .ok d₃ ∧
      u.heapsize = memHeapsize d₁.heap ∧ memHeapsize d₃.heap = memHeapsize d₁.heap ∧
      ∀ k, trace.held k = true → ∃ p, d₁.blocks k = some p ∧ d₂.blocks k = some p ∧
        d₃.blocks k = some p := by
  obtain ⟨r, h, hinit, hr, hl⟩ := listHeap_start hA hf
  obtain ⟨d', hrun, -, -, hend⟩ := evalMmValid_mirrors (t := t) (mm_implements _ _) hinit hr hl hwf
  obtain ⟨hok, rfl⟩ := Prod.mk.inj (Except.ok.inj (hvalid.symm.trans hrun))
  obtain ⟨b, hb, hm⟩ := hend (Option.isNone_iff_eq_none.mp hok.symm)
  have hfinal := Machine.holders_of_replay hb
  have hc₁ : Completed d.heap b d₁ := ⟨hm.follows⟩
  obtain ⟨u, d₂, hutil, hc₂, hu, -⟩ := hc₁.evalMmUtil hwf hb
  obtain ⟨d₃, hspeed, hc₃⟩ := hc₂.timedSpeed hwf hb n
  refine ⟨u, d₂, d₃, hutil, hspeed, ?_, ?_, fun k hk => ?_⟩
  · rw [hu, ← UInt64.toNat_inj, hc₂.memHeapsize, hc₁.memHeapsize]
  · rw [← UInt64.toNat_inj, hc₃.memHeapsize, hc₁.memHeapsize]
  · have hhold : holders b.held k = true := by
      rw [hfinal]
      exact hk
    obtain ⟨p, hp⟩ := Option.isSome_iff_exists.mp hhold
    exact ⟨p, hc₁.follows.stored k p hp, hc₂.follows.stored k p hp, hc₃.follows.stored k p hp⟩

/-- Two blocks, the second resized into a third and the first given back. -/
def calmTrace : Trace :=
  ⟨2, [⟨.alloc, 0, 2040⟩, ⟨.alloc, 1, 2040⟩, ⟨.realloc, 1, 3000⟩, ⟨.free, 0, 0⟩]⟩

theorem evalMmUtil_calmTrace : ∃ u d', evalMmUtil mm calmTrace sampleDriver = .ok (u, d') ∧
    u.maxTotalSize.toInt = 5040 ∧ u.maxTotalSize.toInt ≤ u.heapsize.toNat := by
  obtain ⟨-, hserved⟩ := @evalMmUtil_mm sampleDriver calmTrace
    arena_sampleArena (by decide) (by decide)
  have hsome : (sampleArena.machine.replay sampleArena.opening
      (calmTrace.ops.map TraceOp.request)).isSome = true := by decide +kernel
  obtain ⟨b, hb⟩ := Option.isSome_iff_exists.mp hsome
  obtain ⟨u, d', hrun, hpeak, -, hle⟩ := hserved b hb
  have hmost : sampleArena.machine.peak UInt64.toNat sampleArena.opening
      (calmTrace.ops.map TraceOp.request) = 5040 := by decide +kernel
  exact ⟨u, d', hrun, by rw [hpeak]; exact_mod_cast hmost, hle⟩

theorem evalMm_agree_calmTrace : ∃ d₁ u d₂ d₃,
    evalMmValid mm calmTrace 0 sampleDriver = .ok (true, d₁) ∧
      evalMmUtil mm calmTrace d₁ = .ok (u, d₂) ∧ timedSpeed mm calmTrace 10 d₂ = .ok d₃ ∧
      ∃ p, d₁.blocks 1 = some p ∧ d₂.blocks 1 = some p ∧ d₃.blocks 1 = some p := by
  obtain ⟨d₁, hrun, -⟩ := @evalMmValid_verdict sampleDriver calmTrace 0
    arena_sampleArena (by decide) (by decide)
  have hverdict : verdict sampleDriver.heap.machine 0 sampleDriver.heap.opening calmTrace.ops =
      none := by decide +kernel
  rw [hverdict] at hrun
  obtain ⟨u, d₂, d₃, hutil, hspeed, -, -, hheld⟩ :=
    evalMm_agree 10 arena_sampleArena (by decide) (by decide) hrun
  exact ⟨d₁, u, d₂, d₃, hrun, hutil, hspeed, hheld 1 (by decide)⟩

end Orga.Malloc
