import Orga.Malloc.Contract

/-! What `eval_mm_valid` says of a package that does what an allocator without memory does: the
verdict can be computed from that allocator alone. -/
namespace Orga.Malloc
open Orga.Replay

def rangeOf (e : UInt64 × UInt64) : Range := ⟨e.1, e.1 + e.2 - 1⟩

def Filled (h : Heap) (p n : UInt64) (k : ℕ) : Prop :=
  ∀ i < n.toNat, h.bytes (p.toNat + i) = UInt8.ofNat k

/-- A request that finds old data and takes it for other data: its byte is a negative `char`. -/
def TraceOp.alarms (op : TraceOp) : Bool :=
  op.type == .realloc && 128 ≤ op.index.toInt.toNat % 256

/-- What the driver reports of a request that is not served. -/
def TraceOp.refusal (op : TraceOp) : MallocError :=
  match op.type with
  | .realloc => .reallocFailed
  | _ => .mallocFailed

/-- The first error of the trace, with the number of the request. -/
def verdict {α : Type} (M : Machine α UInt64 UInt64) :
    ℕ → Books α UInt64 UInt64 ℕ → List TraceOp → Option (ℕ × MallocError)
  | _, _, [] => none
  | i, b, op :: ops =>
    match M.serve b op.request with
    | none => some (i, op.refusal)
    | some b' => if op.alarms then some (i, .notPreserved) else verdict M (i + 1) b' ops

section Bytes
variable {index : Int32}

theorem toNat_and_255 (hi : 0 ≤ index.toInt) :
    (index &&& 0xFF).toBitVec.toNat = index.toInt.toNat % 256 := by
  have hcond : index.toBitVec.toInt = index.toInt := rfl
  rw [BitVec.toInt_eq_toNat_cond] at hcond
  have hlt := index.toBitVec.isLt
  have hto : index.toBitVec.toNat = index.toInt.toNat := by
    split_ifs at hcond <;> omega
  have hand : (index &&& 0xFF).toBitVec.toNat = index.toBitVec.toNat &&& (2 ^ 8 - 1) := rfl
  rw [hand, Nat.and_two_pow_sub_one_eq_mod, hto]

theorem toInt_and_255 (hi : 0 ≤ index.toInt) :
    (index &&& 0xFF).toInt = (index.toInt.toNat % 256 : ℕ) := by
  rw [← Int32.toInt_toBitVec, BitVec.toInt_eq_toNat_cond, toNat_and_255 hi, if_pos (by omega)]

theorem lowByte_eq (hi : 0 ≤ index.toInt) : lowByte index = UInt8.ofNat index.toInt.toNat := by
  apply UInt8.toNat_inj.mp
  have hto : (lowByte index).toNat = (index &&& 0xFF).toBitVec.toNat % 2 ^ 8 := rfl
  rw [hto, toNat_and_255 hi, UInt8.toNat_ofNat']
  omega

/-- A byte read back as a `char` is the `int` that was stored when it is below 128. -/
theorem char_eq_iff (hi : 0 ≤ index.toInt) :
    (UInt8.ofNat index.toInt.toNat).toInt8.toInt32 = index &&& 0xFF ↔
      index.toInt.toNat % 256 < 128 := by
  rw [← Int32.toInt_inj, toInt_and_255 hi, Int8.toInt_toInt32]
  have hto : (UInt8.ofNat index.toInt.toNat).toInt8.toBitVec.toNat = index.toInt.toNat % 256 :=
    UInt8.toNat_ofNat'
  rw [← Int8.toInt_toBitVec, BitVec.toInt_eq_toNat_cond, hto]
  split_ifs <;> omega

end Bytes

theorem preserved_filled {h : Heap} {newp : UInt64} {index : Int32} (hi : 0 ≤ index.toInt)
    {j n : ℕ} (hin : InHeap h newp.toNat (j + n))
    (hfill : ∀ i < j + n, h.bytes (newp.toNat + i) = UInt8.ofNat index.toInt.toNat) :
    preserved h newp index j n = .ok (n == 0 || decide (index.toInt.toNat % 256 < 128)) := by
  induction n generalizing j with
  | zero => rfl
  | succ n ih =>
    have hone : InHeap h (newp.toNat + j) 1 :=
      ⟨by have := hin.1; omega, by have := hin.2; omega⟩
    rw [preserved, if_neg (not_not.mpr hone), hfill j (by omega)]
    by_cases hbyte : index.toInt.toNat % 256 < 128
    · rw [(char_eq_iff hi).mpr hbyte, bne_self_eq_false, if_neg Bool.false_ne_true,
        ih (by rwa [Nat.add_assoc, Nat.add_comm 1]) fun i hlt => hfill i (by omega),
        decide_eq_true hbyte, Bool.or_true, Bool.or_true]
    · have hne := mt (char_eq_iff hi).mp hbyte
      rw [if_pos (bne_iff_ne.mpr hne), decide_eq_false hbyte]
      rfl

theorem Payloads.nodup {h : Heap} {live : List (UInt64 × UInt64)} (hp : Payloads h live) :
    (live.map Prod.fst).Nodup := by
  rw [List.Nodup, List.pairwise_map]
  refine hp.apart.imp_of_mem ?_
  rintro ⟨p, n⟩ ⟨q, m⟩ hpn hqm hapart heq
  dsimp only at heq hapart
  have hn := hp.positive p n hpn
  have hm := hp.positive q m hqm
  rw [Ne, ← UInt64.toNat_inj] at hn hm
  change n.toNat ≠ 0 at hn
  change m.toNat ≠ 0 at hm
  unfold Malloc.Apart at hapart
  rw [heq] at hapart
  omega

theorem removeRange_map {S : Type} {f : UInt64 × S → Range} (hf : ∀ e, (f e).lo = e.1)
    {live : List (UInt64 × S)} (hnodup : (live.map Prod.fst).Nodup) (p : UInt64) :
    removeRange (live.map f) p = (drop p live).map f := by
  induction live with
  | nil => rfl
  | cons e live ih =>
    rw [List.map_cons, List.nodup_cons] at hnodup
    obtain ⟨hnew, hnodup⟩ := hnodup
    by_cases he : e.1 = p
    · have hkeep : drop p live = live := by
        refine List.filter_eq_self.mpr fun f hf => ?_
        have hne : f.1 ≠ p := by
          rintro rfl
          exact hnew (List.mem_map.mpr ⟨f, hf, he.symm⟩)
        simpa using hne
      have hdrop : drop p (e :: live) = live := by
        rw [← hkeep]
        simp [drop, he]
      rw [hdrop, removeRange, List.map_cons, List.eraseP_cons_of_pos]
      simp [hf, he]
    · have hdrop : drop p (e :: live) = e :: drop p live := by simp [drop, he]
      rw [hdrop, removeRange, List.map_cons, List.eraseP_cons_of_neg (by simpa [hf] using he),
        List.map_cons, ← ih hnodup]
      rfl

theorem toInt_low {n : UInt64} (hn : n.toNat < 2 ^ 31) : n.toUInt32.toInt32.toInt = n.toNat := by
  have hto : n.toUInt32.toInt32.toBitVec.toNat = n.toNat := by
    rw [UInt32.toBitVec_toInt32, UInt32.toNat_toBitVec, UInt64.toNat_toUInt32]
    omega
  rw [← Int32.toInt_toBitVec, BitVec.toInt_eq_toNat_cond, hto, if_pos (by omega)]

theorem Payloads.addRange {h : Heap} {live : List (UInt64 × UInt64)} {p : UInt64} {size : Int32}
    (hp : Payloads h ((p, sizeT size) :: live)) (hsize : 0 < size) :
    addRange h (live.map rangeOf) p size = .ok (.ok (((p, sizeT size) :: live).map rangeOf)) := by
  have hpos : 0 < size.toInt := Int32.lt_iff_toInt_lt.mp hsize
  have hto := toNat_sizeT hpos.le
  obtain ⟨hlo, hhi⟩ := hp.inside p _ List.mem_cons_self
  have hplaced : WellPlaced h p size :=
    ⟨hpos, hp.aligned p _ List.mem_cons_self, hlo, by omega⟩
  have hend := hplaced.highEnd hp.bounded
  refine (addRange_eq_ok_iff hp.bounded).mpr ⟨hplaced, fun r hr => Or.inl ?_, rfl⟩
  obtain ⟨⟨q, m⟩, hq, rfl⟩ := List.mem_map.mp hr
  have hapart := (List.pairwise_cons.mp hp.apart).1 (q, m) hq
  have hm := hp.positive q m (List.mem_cons_of_mem _ hq)
  obtain ⟨-, hqhi⟩ := hp.inside q m (List.mem_cons_of_mem _ hq)
  have hbrk := hp.bounded.brk_le
  have huser := hp.bounded.user
  have hqend : (q + m - 1).toNat + 1 = q.toNat + m.toNat := by
    have hpos' : 0 < m.toNat := Nat.pos_of_ne_zero fun h0 => hm (UInt64.toNat_inj.mp h0)
    have hsum : (q + m).toNat = q.toNat + m.toNat := by
      rw [UInt64.toNat_add]
      exact Nat.mod_eq_of_lt (by omega)
    have hone : (1 : UInt64) ≤ q + m := by
      rw [UInt64.le_iff_toNat_le, hsum]
      show 1 ≤ _
      omega
    rw [UInt64.toNat_sub_of_le _ _ hone, hsum]
    show q.toNat + m.toNat - 1 + 1 = _
    omega
  show (highEnd p size).toNat < q.toNat ∨ (q + m - 1).toNat < p.toNat
  unfold Malloc.Apart at hapart
  dsimp only at hapart
  omega

section Steps
variable {pkg : Package} {trace : Trace} {t i k : ℕ} {op : TraceOp} {d : Mdriver}
  {p q : UInt64} {h' h'' : Heap} {ranges : List Range}

theorem slot_eq (hop : op.Proper trace.numIds) :
    slot trace op.index = .ok op.index.toInt.toNat := by
  unfold slot
  rw [if_pos ⟨hop.1, hop.2.1⟩]

theorem load_eq {a : ℕ → Option UInt64} (ha : a k = some p) : load a k = .ok p := by
  unfold load
  rw [ha]

theorem validOp_alloc_null (htype : op.type = .alloc)
    (hrun : pkg.mmMalloc d.heap (sizeT op.size) = .ok (NULL, h')) :
    validOp pkg trace t i op d =
      .ok (false, { d with heap := h' }.mallocError t i .mallocFailed) := by
  unfold validOp
  rw [htype]
  dsimp only
  rw [hrun]
  rfl

theorem validOp_alloc (htype : op.type = .alloc) (hop : op.Proper trace.numIds)
    (hrun : pkg.mmMalloc d.heap (sizeT op.size) = .ok (p, h')) (hp : p ≠ NULL)
    (hadd : addRange h' d.ranges p op.size = .ok (.ok ranges))
    (hset : memset h' p (lowByte op.index) (sizeT op.size) = .ok h'') :
    validOp pkg trace t i op d = .ok (true,
      { d with heap := h'', ranges := ranges }.remember op.index.toInt.toNat p op.size) := by
  unfold validOp
  rw [htype]
  dsimp only
  rw [hrun]
  simp only [call, Except.mapError, bind, Except.bind, if_neg hp, hadd, hset, slot_eq hop]
  rfl

theorem validOp_realloc_null (htype : op.type = .realloc) (hop : op.Proper trace.numIds)
    (hold : d.blocks op.index.toInt.toNat = some p)
    (hrun : pkg.mmRealloc d.heap p (sizeT op.size) = .ok (NULL, h')) :
    validOp pkg trace t i op d =
      .ok (false, { d with heap := h' }.mallocError t i .reallocFailed) := by
  unfold validOp
  rw [htype]
  simp only [slot_eq hop, bind, Except.bind, load_eq hold, hrun]
  rfl

def oldLength (op : TraceOp) (n : UInt64) : ℕ :=
  (if op.size < n.toUInt32.toInt32 then op.size else n.toUInt32.toInt32).toInt.toNat

theorem oldLength_eq {n : UInt64} (hsize : 0 < op.size) (hn : IsRequest n) :
    oldLength op n = min (sizeT op.size).toNat n.toNat := by
  have hpos : 0 < op.size.toInt := Int32.lt_iff_toInt_lt.mp hsize
  have hlow := toInt_low hn.lt
  have hto := toNat_sizeT hpos.le
  have hiff : op.size < n.toUInt32.toInt32 ↔ op.size.toInt < n.toNat := by
    rw [Int32.lt_iff_toInt_lt, hlow]
  unfold oldLength
  split_ifs with hlt
  · have := hiff.mp hlt
    omega
  · have := mt hiff.mpr hlt
    omega

section Realloc
variable {n : UInt64} (htype : op.type = .realloc) (hop : op.Proper trace.numIds)
  (hold : d.blocks op.index.toInt.toNat = some p)
  (hsize : d.blockSizes op.index.toInt.toNat = some n)
  (hrun : pkg.mmRealloc d.heap p (sizeT op.size) = .ok (q, h')) (hq : q ≠ NULL)
  (hadd : addRange h' (removeRange d.ranges p) q op.size = .ok (.ok ranges))
include htype hop hold hsize hrun hq hadd

theorem validOp_realloc (hdata : preserved h' q op.index 0 (oldLength op n) = .ok true)
    (hset : memset h' q (lowByte op.index) (sizeT op.size) = .ok h'') :
    validOp pkg trace t i op d = .ok (true,
      { d with heap := h'', ranges := ranges }.remember op.index.toInt.toNat q op.size) := by
  unfold oldLength at hdata
  unfold validOp
  rw [htype]
  simp only [slot_eq hop, bind, Except.bind, load_eq hold, hrun, call, Except.mapError, if_neg hq,
    hadd, load_eq hsize, hdata, if_true, hset]
  rfl

theorem validOp_realloc_alarm (hdata : preserved h' q op.index 0 (oldLength op n) = .ok false) :
    validOp pkg trace t i op d = .ok (false,
      { d with heap := h', ranges := ranges }.mallocError t i .notPreserved) := by
  unfold oldLength at hdata
  unfold validOp
  rw [htype]
  simp only [slot_eq hop, bind, Except.bind, load_eq hold, hrun, call, Except.mapError, if_neg hq,
    hadd, load_eq hsize, hdata]
  rfl

end Realloc

theorem validOp_free (htype : op.type = .free) (hop : op.Proper trace.numIds)
    (hold : d.blocks op.index.toInt.toNat = some p) (hrun : pkg.mmFree d.heap p = .ok h') :
    validOp pkg trace t i op d =
      .ok (true, { d with heap := h', ranges := removeRange d.ranges p }) := by
  unfold validOp
  rw [htype]
  simp only [slot_eq hop, bind, Except.bind, load_eq hold, hrun, call, Except.mapError]
  rfl

end Steps

theorem memset_inHeap {h : Heap} {p n : UInt64} (c : UInt8) (hin : InHeap h p.toNat n.toNat) :
    ∃ h', memset h p c n = .ok h' ∧ OnlyWithin h h' p.toNat (p.toNat + n.toNat) ∧
      ∀ i < n.toNat, h'.bytes (p.toNat + i) = c := by
  refine ⟨_, if_pos hin, ⟨rfl, fun x hx => if_neg (by omega)⟩, fun i hi => if_pos (by omega)⟩

/-- The driver's books are those of its requests. -/
structure Mirrors {α : Type} (R : Heap → α → List (UInt64 × UInt64) → Prop) (d : Mdriver)
    (b : Books α UInt64 UInt64 ℕ) : Prop where
  related : R d.heap b.heap b.live
  ranges : d.ranges = b.live.map rangeOf
  tracks : Tracks b.held b.live
  stored : ∀ k p, b.held k = some p → d.blocks k = some p ∧ ∃ n, (p, n) ∈ b.live ∧
    d.blockSizes k = some n ∧ IsRequest n ∧ Filled d.heap p n k

theorem isRequest_sizeT {size : Int32} (hsize : 0 < size) : IsRequest (sizeT size) := by
  have hpos : 0 < size.toInt := Int32.lt_iff_toInt_lt.mp hsize
  have hto := toNat_sizeT hpos.le
  have hlt := size.toInt_lt
  exact ⟨by omega, by omega⟩

theorem Payloads.apart_head {h : Heap} {live : List (UInt64 × UInt64)} {p n q m : UInt64}
    (hp : Payloads h ((p, n) :: live)) (hq : (q, m) ∈ live) :
    Malloc.Apart p.toNat n.toNat q.toNat m.toNat :=
  (List.pairwise_cons.mp hp.apart).1 (q, m) hq

theorem Payloads.fresh {h : Heap} {live : List (UInt64 × UInt64)} {p n : UInt64}
    (hp : Payloads h ((p, n) :: live)) (m : UInt64) : (p, m) ∉ live := by
  intro hm
  have hnodup := hp.nodup
  rw [List.map_cons, List.nodup_cons] at hnodup
  exact hnodup.1 (List.mem_map.mpr ⟨_, hm, rfl⟩)

section Simulation
variable {α : Type} {pkg : Package} {M : Machine α UInt64 UInt64}
  {R : Heap → α → List (UInt64 × UInt64) → Prop} (hI : Implements pkg M R)
include hI

theorem mirrors_remember {d : Mdriver} {held : ℕ → Option UInt64}
    {live : List (UInt64 × UInt64)} {index size : Int32} {q : UInt64} {h : Heap} {a : α}
    (hindex : 0 ≤ index) (hR : R h a ((q, sizeT size) :: live)) (hsize : 0 < size)
    (htracks : Tracks (Function.update held index.toInt.toNat (some q))
      ((q, sizeT size) :: live))
    (hstored : ∀ k p, k ≠ index.toInt.toNat → held k = some p → d.blocks k = some p ∧
      ∃ n, (p, n) ∈ live ∧ d.blockSizes k = some n ∧ IsRequest n ∧ Filled h p n k) :
    ∃ h', memset h q (lowByte index) (sizeT size) = .ok h' ∧
      Mirrors R ({ d with heap := h', ranges := ((q, sizeT size) :: live).map rangeOf }.remember
        index.toInt.toNat q size)
        ⟨a, Function.update held index.toInt.toNat (some q), (q, sizeT size) :: live⟩ := by
  have hpay := hI.payloads hR
  obtain ⟨h', hset, hw, hc⟩ := memset_inHeap (lowByte index)
    (hpay.inside q _ List.mem_cons_self)
  refine ⟨h', hset, hI.fill hR List.mem_cons_self hw, rfl, htracks, fun k p hk => ?_⟩
  dsimp only at hk
  by_cases hki : k = index.toInt.toNat
  · subst hki
    rw [Function.update_self] at hk
    cases hk
    refine ⟨Function.update_self _ _ _, _, List.mem_cons_self, Function.update_self _ _ _,
      isRequest_sizeT hsize, fun i hi => ?_⟩
    rw [← lowByte_eq (Int32.le_iff_toInt_le.mp hindex)]
    exact hc i hi
  · rw [Function.update_of_ne hki] at hk
    obtain ⟨hblock, n, hn, hnsize, hreq, hfilled⟩ := hstored k p hki hk
    refine ⟨(Function.update_of_ne hki _ _).trans hblock, n, List.mem_cons_of_mem _ hn,
      (Function.update_of_ne hki _ _).trans hnsize, hreq, fun i hi => ?_⟩
    have hapart := hpay.apart_head hn
    unfold Malloc.Apart at hapart
    exact (hw.bytes _ (by omega)).trans (hfilled i hi)

def Ends (R : Heap → α → List (UInt64 × UInt64) → Prop) (pkg : Package) (trace : Trace)
    (t i : ℕ) (op : TraceOp) (d : Mdriver) (e : MallocError) : Prop :=
  ∃ d', validOp pkg trace t i op d = .ok (false, d') ∧
    d'.errors = d.errors ++ [⟨t, lineNum i, e⟩] ∧ ∃ a live, R d'.heap a live

def GoesOn (R : Heap → α → List (UInt64 × UInt64) → Prop) (pkg : Package) (trace : Trace)
    (t i : ℕ) (op : TraceOp) (d : Mdriver) (b : Books α UInt64 UInt64 ℕ) : Prop :=
  ∃ d', validOp pkg trace t i op d = .ok (true, d') ∧ Mirrors R d' b ∧ d'.errors = d.errors

section Requests
variable {trace : Trace} {t i : ℕ} {op : TraceOp} {d : Mdriver} {b b' : Books α UInt64 UInt64 ℕ}
  (hm : Mirrors R d b) (hop : op.Proper trace.numIds)
include hm hop

theorem alloc_mirrors (htype : op.type = .alloc) :
    (M.serve b op.request = none → Ends R pkg trace t i op d op.refusal) ∧
      ∀ b', M.serve b op.request = some b' → GoesOn R pkg trace t i op d b' := by
  have hsize : 0 < op.size := hop.2.2 (by rw [htype]; decide)
  have hreq := isRequest_sizeT hsize
  simp only [TraceOp.request, TraceOp.refusal, htype]
  constructor
  · intro hserve
    obtain ⟨h', hrun, hR⟩ := hI.refuse hm.related hreq (Option.map_eq_none_iff.mp hserve)
    exact ⟨_, validOp_alloc_null htype hrun, rfl, _, _, hR⟩
  · intro b' hserve
    obtain ⟨⟨p, a'⟩, hM, rfl⟩ := Option.map_eq_some_iff.mp hserve
    obtain ⟨h', hrun, hal⟩ := hI.malloc hm.related hreq hM
    have hpay := hI.payloads hal.related
    have htracks := hm.tracks.grant op.index.toInt.toNat (n := sizeT op.size) hpay.fresh
    obtain ⟨h'', hset, hm'⟩ := mirrors_remember hI hop.1 hal.related hsize htracks
      (d := d) fun k q _ hk => by
        obtain ⟨hblock, n, hn, hnsize, hnreq, hfilled⟩ := hm.stored k q hk
        exact ⟨hblock, n, hn, hnsize, hnreq,
          fun j hj => (hal.others q n hn j hj).trans (hfilled j hj)⟩
    have hadd := hpay.addRange hsize
    rw [← hm.ranges] at hadd
    exact ⟨_, validOp_alloc htype hop hrun hal.ne_null hadd hset, hm', rfl⟩

theorem realloc_mirrors (htype : op.type = .realloc) {p : UInt64}
    (hheld : b.held op.index.toInt.toNat = some p) :
    (M.serve b op.request = none → Ends R pkg trace t i op d op.refusal) ∧
      ∀ b', M.serve b op.request = some b' →
        if op.alarms then Ends R pkg trace t i op d .notPreserved
        else GoesOn R pkg trace t i op d b' := by
  have hsize : 0 < op.size := hop.2.2 (by rw [htype]; decide)
  have hreq := isRequest_sizeT hsize
  have hindex := Int32.le_iff_toInt_le.mp hop.1
  obtain ⟨hblock, m, hlive, hmsize, hmreq, hfilled⟩ := hm.stored _ p hheld
  simp only [TraceOp.request, TraceOp.refusal, htype, Machine.serve, hheld, Option.bind_some]
  constructor
  · intro hserve
    obtain ⟨h', hrun, hR⟩ :=
      hI.refuse_realloc hm.related hlive hreq (Option.map_eq_none_iff.mp hserve)
    exact ⟨_, validOp_realloc_null htype hop hblock hrun, rfl, _, _, hR⟩
  · intro b' hserve
    obtain ⟨⟨q, a'⟩, hM, rfl⟩ := Option.map_eq_some_iff.mp hserve
    obtain ⟨h', hrun, hre⟩ := hI.realloc hm.related hlive hreq hM
    have hpay := hI.payloads hre.related
    have hnodup := (hI.payloads hm.related).nodup
    have hadd := hpay.addRange hsize
    rw [← removeRange_map (fun _ => rfl) hnodup, ← hm.ranges] at hadd
    have hlen := oldLength_eq hsize hmreq
    have hin : InHeap h' q.toNat (0 + oldLength op m) := by
      obtain ⟨hlo, hhi⟩ := hpay.inside q _ List.mem_cons_self
      exact ⟨hlo, by omega⟩
    -- the old data is there, and all its bytes are the low byte of the name
    have hdata := preserved_filled hindex hin fun j hj => by
      rw [hre.data j (by omega)]
      exact hfilled j (by omega)
    have hpos : (oldLength op m == 0) = false := by
      have h1 := hreq.pos
      have h2 := hmreq.pos
      rw [beq_eq_false_iff_ne]
      omega
    rw [hpos, Bool.false_or] at hdata
    by_cases halarm : op.index.toInt.toNat % 256 < 128
    · have hno : op.alarms = false := by
        simp only [TraceOp.alarms, htype, BEq.rfl, Bool.true_and, decide_eq_false_iff_not]
        omega
      rw [hno, if_neg Bool.false_ne_true]
      rw [decide_eq_true halarm] at hdata
      have htracks := hm.tracks.exchange (n := sizeT op.size) hheld hpay.fresh
      obtain ⟨h'', hset, hm'⟩ := mirrors_remember hI hop.1 hre.related hsize htracks
        (d := d) fun k r hk hr => by
          obtain ⟨hb, n, hn, hnsize, hnreq, hf⟩ := hm.stored k r hr
          have hdrop := hm.tracks.mem_drop hheld hk hr hn
          exact ⟨hb, n, hdrop, hnsize, hnreq,
            fun j hj => (hre.others r n hn (mem_drop.mp hdrop).2 j hj).trans (hf j hj)⟩
      exact ⟨_, validOp_realloc htype hop hblock hmsize hrun hre.ne_null hadd hdata hset, hm', rfl⟩
    · have hyes : op.alarms = true := by
        simp only [TraceOp.alarms, htype, BEq.rfl, Bool.true_and, decide_eq_true_eq]
        omega
      rw [hyes, if_pos rfl]
      rw [decide_eq_false halarm] at hdata
      exact ⟨_, validOp_realloc_alarm htype hop hblock hmsize hrun hre.ne_null hadd hdata, rfl, _, _,
        hre.related⟩

theorem free_mirrors (htype : op.type = .free) {p : UInt64}
    (hheld : b.held op.index.toInt.toNat = some p) (hserve : M.serve b op.request = some b') :
    GoesOn R pkg trace t i op d b' := by
  obtain ⟨hblock, m, hlive, -⟩ := hm.stored _ p hheld
  simp only [TraceOp.request, htype, Machine.serve, hheld, Option.map_some,
    Option.some.injEq] at hserve
  subst hserve
  obtain ⟨h', hrun, hR, -, hothers⟩ := hI.free hm.related hlive
  refine ⟨_, validOp_free htype hop hblock hrun, ⟨hR, ?_, hm.tracks.release hheld, ?_⟩, rfl⟩
  · rw [← removeRange_map (fun _ => rfl) (hI.payloads hm.related).nodup, ← hm.ranges]
  · intro k q hk
    dsimp only at hk
    by_cases hki : k = op.index.toInt.toNat
    · rw [hki, Function.update_self] at hk
      cases hk
    · rw [Function.update_of_ne hki] at hk
      obtain ⟨hb, n, hn, hnsize, hnreq, hf⟩ := hm.stored k q hk
      have hdrop := hm.tracks.mem_drop hheld hki hk hn
      exact ⟨hb, n, hdrop, hnsize, hnreq,
        fun j hj => (hothers q n hn (mem_drop.mp hdrop).2 j hj).trans (hf j hj)⟩

/-- One request of a trace: it is refused, it raises the alarm, or the run goes on. -/
theorem validOp_mirrors (hallow : op.request.Allowed (holders b.held)) :
    (M.serve b op.request = none → Ends R pkg trace t i op d op.refusal) ∧
      ∀ b', M.serve b op.request = some b' →
        if op.alarms then Ends R pkg trace t i op d .notPreserved
        else GoesOn R pkg trace t i op d b' := by
  cases htype : op.type with
  | alloc =>
    have hno : op.alarms = false := by simp [TraceOp.alarms, htype]
    rw [hno]
    exact alloc_mirrors hI hm hop htype
  | realloc =>
    simp only [TraceOp.request, htype] at hallow
    obtain ⟨p, hp⟩ := Option.isSome_iff_exists.mp hallow
    exact realloc_mirrors hI hm hop htype hp
  | free =>
    have hno : op.alarms = false := by simp [TraceOp.alarms, htype]
    rw [hno]
    simp only [TraceOp.request, htype] at hallow
    obtain ⟨p, hp⟩ := Option.isSome_iff_exists.mp hallow
    refine ⟨fun hserve => ?_, fun b' hb' => free_mirrors hI hm hop htype hp hb'⟩
    simp only [TraceOp.request, htype, Machine.serve, hp, Option.map_some] at hserve
    cases hserve

end Requests

def reports (t : ℕ) (v : Option (ℕ × MallocError)) : List Report :=
  v.toList.map fun e => ⟨t, lineNum e.1, e.2⟩

theorem validOps_mirrors {trace : Trace} {t i : ℕ} {ops : List TraceOp} {d : Mdriver}
    {b : Books α UInt64 UInt64 ℕ} (hm : Mirrors R d b)
    (hops : ∀ op ∈ ops, op.Proper trace.numIds)
    (hadm : admissible (holders b.held) (ops.map TraceOp.request) = true) :
    ∃ d', validOps pkg trace t i ops d = .ok ((verdict M i b ops).isNone, d') ∧
      d'.errors = d.errors ++ reports t (verdict M i b ops) ∧
      (∃ a live, R d'.heap a live) ∧
      (verdict M i b ops = none →
        ∃ b', M.replay b (ops.map TraceOp.request) = some b' ∧ Mirrors R d' b') := by
  induction ops generalizing i d b with
  | nil =>
    refine ⟨d, rfl, ?_, ⟨_, _, hm.related⟩, fun _ => ⟨b, rfl, hm⟩⟩
    simp [verdict, reports]
  | cons op ops ih =>
    obtain ⟨hop, hops⟩ := List.forall_mem_cons.mp hops
    obtain ⟨hallow, hadm⟩ := admissible_cons.mp hadm
    obtain ⟨hrefused, hserved⟩ := validOp_mirrors (t := t) (i := i) hI hm hop hallow
    rw [List.map_cons, Machine.replay, verdict, validOps]
    cases hserve : M.serve b op.request with
    | none =>
      obtain ⟨d', hrun, herr, hR⟩ := hrefused hserve
      rw [hrun]
      exact ⟨d', rfl, herr, hR, fun h => absurd h (Option.some_ne_none _)⟩
    | some b' =>
      dsimp only
      have hstep := hserved b' hserve
      rw [← Machine.holders_of_serve hserve] at hadm
      cases halarm : op.alarms with
      | true =>
        rw [halarm, if_pos rfl] at hstep
        obtain ⟨d', hrun, herr, hR⟩ := hstep
        rw [hrun]
        exact ⟨d', rfl, herr, hR, fun h => absurd h (Option.some_ne_none _)⟩
      | false =>
        rw [halarm, if_neg Bool.false_ne_true] at hstep
        obtain ⟨d', hrun, hm', herr⟩ := hstep
        obtain ⟨d'', hrun', herr', hR, hend⟩ := ih hm' hops hadm (i := i + 1)
        rw [hrun]
        exact ⟨d'', hrun', by rw [herr', herr]; rfl, hR, hend⟩

def opening (a : α) : Books α UInt64 UInt64 ℕ := ⟨a, fun _ => none, []⟩

omit hI in
theorem opening_mirrors {a : α} {d : Mdriver} (hR : R d.heap a []) (hranges : d.ranges = []) :
    Mirrors R d (opening a) where
  related := hR
  ranges := hranges
  tracks := ⟨fun _ _ h => (nomatch h), fun _ _ _ h => (nomatch h)⟩
  stored _ _ h := nomatch h

/-- The verdict of `eval_mm_valid` is that of the machine. -/
theorem evalMmValid_mirrors {trace : Trace} {t : ℕ} {d : Mdriver} {a : α} {h : Heap} {r : Int32}
    (hinit : pkg.mmInit (memResetBrk d.heap) = .ok (r, h)) (hr : ¬ r < 0) (hR : R h a [])
    (hwf : trace.WellFormed) :
    ∃ d', evalMmValid pkg trace t d =
        .ok ((verdict M 0 (opening a) trace.ops).isNone, d') ∧
      d'.errors = d.errors ++ reports t (verdict M 0 (opening a) trace.ops) ∧
      (∃ a live, R d'.heap a live) ∧
      (verdict M 0 (opening a) trace.ops = none →
        ∃ b', M.replay (opening a) (trace.ops.map TraceOp.request) = some b' ∧
          Mirrors R d' b') := by
  have hm : Mirrors R { d with heap := h, ranges := [] } (opening a) := opening_mirrors hR rfl
  obtain ⟨d', hrun, hrest⟩ := validOps_mirrors (t := t) (i := 0) hI hm hwf.1 hwf.2
  refine ⟨d', ?_, hrest⟩
  unfold evalMmValid
  simp only [hinit, call, Except.mapError, bind, Except.bind, if_neg hr, clearRanges]
  exact hrun

end Simulation

theorem verdict_eq_none_iff {α : Type} {M : Machine α UInt64 UInt64} {i : ℕ}
    {b : Books α UInt64 UInt64 ℕ} {ops : List TraceOp} :
    verdict M i b ops = none ↔
      (M.replay b (ops.map TraceOp.request)).isSome = true ∧ ∀ op ∈ ops, op.alarms = false := by
  induction ops generalizing i b with
  | nil => simp [verdict, Machine.replay]
  | cons op ops ih =>
    rw [List.map_cons, Machine.replay, verdict, List.forall_mem_cons]
    cases M.serve b op.request with
    | none => simp
    | some b' =>
      dsimp only
      rw [Option.bind_some]
      cases op.alarms with
      | true => simp
      | false => simpa using ih

theorem listHeap_start {h : Heap} (hA : Arena h) (hf : FullArena h) :
    ∃ r h', mm.mmInit (memResetBrk h) = .ok (r, h') ∧ ¬ r < 0 ∧
      ListHeap (base h) (room h) h' (initialBlocks (room h)) [] := by
  have hA' : Arena (memResetBrk h) := ⟨hA.aligned, hA.pos, hA.fits, hA.user⟩
  obtain ⟨h', hrun, hL, hstart, hmax, -⟩ := hA'.mmInit rfl
  obtain ⟨bs, hv⟩ := Reachable.valid ⟨h, _, h', hA, hrun, .refl⟩
  obtain rfl := hv.layout.unique hL
  have hinit : mm.mmInit (memResetBrk h) =
      .ok (Int32.ofNat (if 4096 ≤ room (memResetBrk h) then 1 else 0), h') := by
    show (mmInit (memResetBrk h)).map _ = _
    rw [hrun]
    rfl
  refine ⟨_, h', hinit, ?_, hv, ?_, ?_, ?_⟩
  · split_ifs <;> decide
  · show h'.memMaxAddr.toNat = h'.memStartBrk.toNat + _
    rw [hmax, hstart]
    exact hf
  · rw [base, hstart]
    rfl
  · rw [room, hstart, hmax]
    rfl

abbrev Heap.machine (h : Heap) : Machine (List Bloque) UInt64 UInt64 :=
  firstFitMachine (base h) (room h)

abbrev Heap.opening (h : Heap) : Books (List Bloque) UInt64 UInt64 ℕ :=
  Malloc.opening (initialBlocks (room h))

theorem evalMmValid_verdict {d : Mdriver} {trace : Trace} (t : ℕ) (hA : Arena d.heap)
    (hf : FullArena d.heap) (hwf : trace.WellFormed) :
    ∃ d', evalMmValid mm trace t d =
        .ok ((verdict d.heap.machine 0 d.heap.opening trace.ops).isNone, d') ∧
      d'.errors = d.errors ++ reports t (verdict d.heap.machine 0 d.heap.opening trace.ops) := by
  obtain ⟨r, h, hinit, hr, hl⟩ := listHeap_start hA hf
  obtain ⟨d', hrun, herr, -⟩ :=
    evalMmValid_mirrors (t := t) (mm_implements _ _) hinit hr hl hwf
  exact ⟨d', hrun, herr⟩

/-- `eval_mm_valid` accepts `mm.c` exactly on the traces that the first-fit list serves and that
resize no block whose name ends in a byte from 128 on; otherwise it reports the first such
request. -/
theorem evalMmValid_mm {d : Mdriver} {trace : Trace} (t : ℕ) (hA : Arena d.heap)
    (hf : FullArena d.heap) (hwf : trace.WellFormed) :
    ∃ ok d', evalMmValid mm trace t d = .ok (ok, d') ∧
      (ok = true ↔
        (d.heap.machine.replay d.heap.opening (trace.ops.map TraceOp.request)).isSome = true ∧
          ∀ op ∈ trace.ops, op.alarms = false) ∧
      d'.errors = d.errors ++ reports t (verdict d.heap.machine 0 d.heap.opening trace.ops) := by
  obtain ⟨d', hrun, herr⟩ := evalMmValid_verdict t hA hf hwf
  refine ⟨_, d', hrun, ?_, herr⟩
  rw [Option.isNone_iff_eq_none]
  exact verdict_eq_none_iff

/-- The last request resizes a block whose name ends in the byte 200. -/
def sampleTrace : Trace :=
  ⟨256, [⟨.alloc, 0, 100⟩, ⟨.alloc, 200, 40⟩, ⟨.realloc, 0, 300⟩, ⟨.free, 0, 0⟩,
    ⟨.realloc, 200, 10⟩]⟩

def sampleDriver : Mdriver := ⟨sampleArena, [], [], fun _ => none, fun _ => none⟩

theorem arena_sampleArena : Arena sampleArena :=
  arena_memInit _ _ (by decide) (by decide) (by decide)

theorem evalMmValid_sampleTrace :
    ∃ d', evalMmValid mm sampleTrace 0 sampleDriver = .ok (false, d') ∧
      d'.errors = [⟨0, 9, .notPreserved⟩] := by
  have hverdict : verdict sampleArena.machine 0 sampleArena.opening sampleTrace.ops =
      some (4, .notPreserved) := by decide +kernel
  obtain ⟨ok, d', hrun, hiff, herr⟩ := @evalMmValid_mm sampleDriver sampleTrace 0
    arena_sampleArena (by decide) (by decide)
  have hok : ok = false := by
    rw [← Bool.not_eq_true, hiff]
    rintro ⟨-, hno⟩
    exact absurd (hno ⟨.realloc, 200, 10⟩ (by decide)) (by decide)
  refine ⟨d', hok ▸ hrun, ?_⟩
  rw [herr]
  show [] ++ reports 0 (verdict sampleArena.machine 0 sampleArena.opening sampleTrace.ops) = _
  rw [hverdict]
  rfl

end Orga.Malloc
