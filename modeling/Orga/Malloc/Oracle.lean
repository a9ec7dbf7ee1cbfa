import Orga.Malloc.Verdicts

/-! What `eval_mm_valid` establishes of a package about which nothing is known: the driver as a
test oracle. -/
namespace Orga.Malloc
open Orga.Replay

/-- The variables of `memlib.c` are private: a package moves the break with `mem_sbrk` only. -/
structure Confines (h h' : Heap) : Prop where
  start : h'.memStartBrk = h.memStartBrk
  max : h'.memMaxAddr = h.memMaxAddr
  grows : h.memBrk.toNat ≤ h'.memBrk.toNat
  brk_le : h'.memBrk.toNat ≤ h'.memMaxAddr.toNat

/-- Every call of the package that ends confines itself so. -/
structure Package.Confined (pkg : Package) : Prop where
  mmInit : ∀ {h r h'}, Bounded h → pkg.mmInit h = .ok (r, h') → Confines h h'
  mmMalloc : ∀ {h n p h'}, Bounded h → pkg.mmMalloc h n = .ok (p, h') → Confines h h'
  mmFree : ∀ {h p h'}, Bounded h → pkg.mmFree h p = .ok h' → Confines h h'
  mmRealloc : ∀ {h p n q h'}, Bounded h → pkg.mmRealloc h p n = .ok (q, h') → Confines h h'

namespace Confines
variable {h h' : Heap}

theorem bounded (hc : Confines h h') (hb : Bounded h) : Bounded h' where
  pos := by
    rw [hc.start]
    exact hb.pos
  start_le := by
    have hgrows := hc.grows
    have hstart := hb.start_le
    rw [hc.start]
    omega
  brk_le := hc.brk_le
  user := by
    rw [hc.max]
    exact hb.user

theorem wellPlaced (hc : Confines h h') {p : UInt64} {s : Int32} (hp : WellPlaced h p s) :
    WellPlaced h' p s where
  positive := hp.positive
  aligned := hp.aligned
  low := by
    rw [hc.start]
    exact hp.low
  high := hp.high.trans hc.grows

end Confines

theorem Confines.refl {h : Heap} (hb : Bounded h) : Confines h h := ⟨rfl, rfl, le_rfl, hb.brk_le⟩

theorem confines_memSbrk {h : Heap} (hb : Bounded h) (incr : Int32) :
    Confines h (memSbrk h incr).2 := by
  unfold memSbrk
  split_ifs with hcond
  · exact .refl hb
  · obtain ⟨hpos, hle⟩ := not_or.mp hcond
    have hstart := hb.start_le
    have hbrk := hb.brk_le
    have huser := hb.user
    have hlt := incr.toInt_lt
    have hsum : (h.memBrk + sizeT incr).toNat = h.memBrk.toNat + incr.toInt.toNat := by
      rw [UInt64.toNat_add, toNat_sizeT (Int32.le_iff_toInt_le.mp (Int32.not_lt.mp hpos))]
      exact Nat.mod_eq_of_lt (by omega)
    refine ⟨rfl, rfl, ?_, ?_⟩
    · show _ ≤ (h.memBrk + sizeT incr).toNat
      omega
    · exact UInt64.le_iff_toNat_le.mp (UInt64.not_lt.mp hle)

theorem confines_of_onlyWithin {h h' : Heap} (hb : Bounded h) {lo hi : ℕ}
    (hw : OnlyWithin h h' lo hi) : Confines h h' := by
  have hrest := hw.rest
  refine ⟨by rw [hrest], by rw [hrest], by rw [hrest], ?_⟩
  rw [hrest]
  exact hb.brk_le

def recordOf (e : UInt64 × Int32) : Range := ⟨e.1, highEnd e.1 e.2⟩

/-- Two payloads are apart, or the first goes beyond the second on both sides. -/
def Tolerated (e f : UInt64 × Int32) : Prop :=
  (recordOf e).Apart (recordOf f) ∨ (recordOf e).Encloses (recordOf f)

/-- What the checks of the driver have established of the payloads `live`, the last one first. -/
structure Audited (d : Mdriver) (held : ℕ → Option UInt64) (sizes : ℕ → Option Int32)
    (live : List (UInt64 × Int32)) : Prop where
  bounded : Bounded d.heap
  ranges : d.ranges = live.map recordOf
  placed : ∀ p s, (p, s) ∈ live → WellPlaced d.heap p s
  tolerated : live.Pairwise Tolerated
  tracks : Tracks held live
  stored : ∀ k s, sizes k = some s →
    ∃ p, held k = some p ∧ d.blocks k = some p ∧ (p, s) ∈ live

/-- The size that each name was last requested for, while it holds a block. -/
def TraceOp.resize (op : TraceOp) (sizes : ℕ → Option Int32) : ℕ → Option Int32 :=
  match op.type with
  | .free => Function.update sizes op.index.toInt.toNat none
  | _ => Function.update sizes op.index.toInt.toNat (some op.size)

def sizesAfter (sizes : ℕ → Option Int32) : List TraceOp → ℕ → Option Int32
  | [] => sizes
  | op :: ops => sizesAfter (op.resize sizes) ops

section Inversion
variable {pkg : Package} {trace : Trace} {t i : ℕ} {op : TraceOp} {d d' : Mdriver}

theorem call_eq_ok {β : Type} {x : Except Fault β} {b : β} (h : call x = .ok b) : x = .ok b := by
  cases x with
  | error e => cases h
  | ok a =>
    cases h
    rfl

theorem slot_eq_ok {index : Int32} {k : ℕ} (h : slot trace index = .ok k) :
    k = index.toInt.toNat := by
  unfold slot at h
  split_ifs at h
  cases h
  rfl

theorem load_eq_ok {a : ℕ → Option UInt64} {k : ℕ} {v : UInt64} (h : load a k = .ok v) :
    a k = some v := by
  unfold load at h
  split at h
  · next heq =>
    cases h
    exact heq
  · cases h

theorem memset_eq_ok {h h' : Heap} {p n : UInt64} {c : UInt8} (hset : memset h p c n = .ok h') :
    OnlyWithin h h' p.toNat (p.toNat + n.toNat) := by
  unfold memset at hset
  split_ifs at hset
  cases hset
  exact ⟨rfl, fun x hx => if_neg (by omega)⟩

/-- A payload at `p` that passed the tests, and the state after it is filled and remembered. -/
structure Accepted (h : Heap) (d₀ d' : Mdriver) (op : TraceOp) (p : UInt64) : Prop where
  added : addRange h d₀.ranges p op.size = .ok (.ok d'.ranges)
  within : OnlyWithin h d'.heap p.toNat (p.toNat + (sizeT op.size).toNat)
  blocks : d'.blocks = Function.update d₀.blocks op.index.toInt.toNat (some p)

theorem validOp_alloc_inv (htype : op.type = .alloc)
    (hrun : validOp pkg trace t i op d = .ok (true, d')) :
    ∃ p h, pkg.mmMalloc d.heap (sizeT op.size) = .ok (p, h) ∧ Accepted h d d' op p := by
  unfold validOp at hrun
  rw [htype] at hrun
  obtain ⟨⟨p, h⟩, hcall, hrun⟩ := bind_eq_ok hrun
  dsimp only at hrun
  split_ifs at hrun with hp
  · cases hrun
  obtain ⟨r, hadd, hrun⟩ := bind_eq_ok hrun
  cases r with
  | error e => cases hrun
  | ok ranges =>
    obtain ⟨h', hset, hrun⟩ := bind_eq_ok hrun
    obtain ⟨k, hk, hrun⟩ := bind_eq_ok hrun
    cases hrun
    obtain rfl := slot_eq_ok hk
    exact ⟨p, h, call_eq_ok hcall, hadd, memset_eq_ok (call_eq_ok hset), rfl⟩

theorem validOp_realloc_inv (htype : op.type = .realloc)
    (hrun : validOp pkg trace t i op d = .ok (true, d')) :
    ∃ oldp p h, d.blocks op.index.toInt.toNat = some oldp ∧
      pkg.mmRealloc d.heap oldp (sizeT op.size) = .ok (p, h) ∧
      Accepted h { d with ranges := removeRange d.ranges oldp } d' op p := by
  unfold validOp at hrun
  rw [htype] at hrun
  obtain ⟨k, hk, hrun⟩ := bind_eq_ok hrun
  obtain rfl := slot_eq_ok hk
  obtain ⟨oldp, hold, hrun⟩ := bind_eq_ok hrun
  obtain ⟨⟨p, h⟩, hcall, hrun⟩ := bind_eq_ok hrun
  dsimp only at hrun
  split_ifs at hrun with hp
  · cases hrun
  obtain ⟨r, hadd, hrun⟩ := bind_eq_ok hrun
  cases r with
  | error e => cases hrun
  | ok ranges =>
    obtain ⟨n, hn, hrun⟩ := bind_eq_ok hrun
    obtain ⟨same, hsame, hrun⟩ := bind_eq_ok hrun
    cases same with
    | false => cases hrun
    | true =>
      obtain ⟨h', hset, hrun⟩ := bind_eq_ok hrun
      cases hrun
      exact ⟨oldp, p, h, load_eq_ok hold, call_eq_ok hcall, hadd, memset_eq_ok (call_eq_ok hset),
        rfl⟩

theorem validOp_free_inv (htype : op.type = .free)
    (hrun : validOp pkg trace t i op d = .ok (true, d')) :
    ∃ p h, d.blocks op.index.toInt.toNat = some p ∧ pkg.mmFree d.heap p = .ok h ∧
      d' = { d with heap := h, ranges := removeRange d.ranges p } := by
  unfold validOp at hrun
  rw [htype] at hrun
  obtain ⟨k, hk, hrun⟩ := bind_eq_ok hrun
  obtain rfl := slot_eq_ok hk
  obtain ⟨p, hp, hrun⟩ := bind_eq_ok hrun
  obtain ⟨h, hcall, hrun⟩ := bind_eq_ok hrun
  cases hrun
  exact ⟨p, h, load_eq_ok hp, call_eq_ok hcall, rfl⟩

end Inversion

theorem Tolerated.ne {h : Heap} {e f : UInt64 × Int32} (ht : Tolerated e f) (hb : Bounded h)
    (he : WellPlaced h e.1 e.2) (hf : WellPlaced h f.1 f.2) : e.1 ≠ f.1 := by
  intro heq
  have h1 := he.highEnd hb
  have h2 := hf.highEnd hb
  have hpos1 := he.positive
  have hpos2 := hf.positive
  rw [heq] at h1
  unfold Tolerated Range.Apart Range.Encloses recordOf at ht
  dsimp only at ht
  rw [heq] at ht
  omega

section Audit
variable {pkg : Package} {trace : Trace} {t i : ℕ} {op : TraceOp} {d d₀ d' : Mdriver}
  {held : ℕ → Option UInt64} {sizes : ℕ → Option Int32} {live : List (UInt64 × Int32)}

theorem Audited.nodup (ha : Audited d held sizes live) : (live.map Prod.fst).Nodup := by
  rw [List.Nodup, List.pairwise_map]
  refine ha.tolerated.imp_of_mem ?_
  rintro ⟨p, r⟩ ⟨q, s⟩ hp hq ht
  exact ht.ne ha.bounded (ha.placed p r hp) (ha.placed q s hq)

section Accepted
variable {h : Heap} {p : UInt64} (hacc : Accepted h d₀ d' op p) (hb : Bounded h)
  (hranges : d₀.ranges = live.map recordOf) (hplaced : ∀ q s, (q, s) ∈ live → WellPlaced h q s)
include hacc hb hranges hplaced

theorem Accepted.tolerated : WellPlaced h p op.size ∧ (∀ e ∈ live, Tolerated (p, op.size) e) ∧
    (∀ s, (p, s) ∉ live) ∧ d'.ranges = ((p, op.size) :: live).map recordOf := by
  obtain ⟨hgood, hall, heq⟩ := (addRange_eq_ok_iff hb).mp hacc.added
  rw [hranges] at hall heq
  have htol : ∀ e ∈ live, Tolerated (p, op.size) e :=
    fun e he => hall _ (List.mem_map_of_mem he)
  exact ⟨hgood, htol, fun s hs => (htol _ hs).ne hb hgood (hplaced p s hs) rfl, heq⟩

theorem Accepted.audited (htolerated : live.Pairwise Tolerated)
    (htracks : Tracks (Function.update held op.index.toInt.toNat (some p))
      ((p, op.size) :: live))
    (hstored : ∀ k s, k ≠ op.index.toInt.toNat → sizes k = some s →
      ∃ q, held k = some q ∧ d₀.blocks k = some q ∧ (q, s) ∈ live) :
    Audited d' (Function.update held op.index.toInt.toNat (some p))
      (Function.update sizes op.index.toInt.toNat (some op.size)) ((p, op.size) :: live) := by
  obtain ⟨hgood, htol, -, heq⟩ := hacc.tolerated hb hranges hplaced
  have hconf := confines_of_onlyWithin hb hacc.within
  refine ⟨hconf.bounded hb, heq, fun q s hq => ?_, List.pairwise_cons.mpr ⟨htol, htolerated⟩,
    htracks, fun k s hk => ?_⟩
  · rcases List.mem_cons.mp hq with heq | hq
    · cases heq
      exact hconf.wellPlaced hgood
    · exact hconf.wellPlaced (hplaced q s hq)
  · rw [hacc.blocks]
    by_cases hki : k = op.index.toInt.toNat
    · subst hki
      rw [Function.update_self] at hk ⊢
      cases hk
      exact ⟨p, rfl, Function.update_self _ _ _, List.mem_cons_self⟩
    · rw [Function.update_of_ne hki] at hk ⊢
      rw [Function.update_of_ne hki]
      obtain ⟨q, hq, hblock, hmem⟩ := hstored k s hki hk
      exact ⟨q, hq, hblock, List.mem_cons_of_mem _ hmem⟩

end Accepted

theorem holders_resize (hallow : op.request.Allowed (holders sizes)) :
    holders (op.resize sizes) = op.request.holders (holders sizes) := by
  cases htype : op.type with
  | alloc =>
    simp only [TraceOp.resize, TraceOp.request, htype, Request.holders]
    exact holders_update sizes _ _
  | free =>
    simp only [TraceOp.resize, TraceOp.request, htype, Request.holders]
    exact holders_update sizes _ _
  | realloc =>
    simp only [TraceOp.request, htype] at hallow
    simp only [TraceOp.resize, TraceOp.request, htype, Request.holders]
    refine (holders_update sizes _ _).trans ?_
    rw [Option.isSome_some, ← show holders sizes op.index.toInt.toNat = true from hallow]
    exact Function.update_eq_self _ _

theorem Audited.step (hpkg : pkg.Confined) (ha : Audited d held sizes live)
    (hallow : op.request.Allowed (holders sizes))
    (hrun : validOp pkg trace t i op d = .ok (true, d')) :
    ∃ held' live', Audited d' held' (op.resize sizes) live' := by
  cases htype : op.type with
  | alloc =>
    obtain ⟨p, h, hcall, hacc⟩ := validOp_alloc_inv htype hrun
    have hconf := hpkg.mmMalloc ha.bounded hcall
    have hb := hconf.bounded ha.bounded
    have hplaced : ∀ q s, (q, s) ∈ live → WellPlaced h q s :=
      fun q s hq => hconf.wellPlaced (ha.placed q s hq)
    obtain ⟨-, -, hfresh, -⟩ := hacc.tolerated hb ha.ranges hplaced
    simp only [TraceOp.resize, htype]
    exact ⟨_, _, hacc.audited hb ha.ranges hplaced ha.tolerated (ha.tracks.grant _ hfresh)
      fun k s _ hk => ha.stored k s hk⟩
  | realloc =>
    obtain ⟨oldp, p, h, hold, hcall, hacc⟩ := validOp_realloc_inv htype hrun
    have hconf := hpkg.mmRealloc ha.bounded hcall
    have hb := hconf.bounded ha.bounded
    simp only [TraceOp.request, htype] at hallow
    obtain ⟨s, hs⟩ := Option.isSome_iff_exists.mp hallow
    obtain ⟨q, hheld, hblock, hq⟩ := ha.stored _ s hs
    cases hold.symm.trans hblock
    have hranges : removeRange d.ranges oldp = (drop oldp live).map recordOf := by
      rw [ha.ranges]
      exact removeRange_map (fun _ => rfl) ha.nodup oldp
    have hplaced : ∀ q s, (q, s) ∈ drop oldp live → WellPlaced h q s :=
      fun q s hq => hconf.wellPlaced (ha.placed q s (mem_drop.mp hq).1)
    obtain ⟨-, -, hfresh, -⟩ := hacc.tolerated hb hranges hplaced
    simp only [TraceOp.resize, htype]
    refine ⟨_, _, hacc.audited hb hranges hplaced (ha.tolerated.sublist List.filter_sublist)
      (ha.tracks.exchange hheld hfresh) fun k r hne hk => ?_⟩
    obtain ⟨q, hk', hkblock, hkq⟩ := ha.stored k r hk
    exact ⟨q, hk', hkblock, ha.tracks.mem_drop hheld hne hk' hkq⟩
  | free =>
    obtain ⟨p, h, hold, hcall, rfl⟩ := validOp_free_inv htype hrun
    have hconf := hpkg.mmFree ha.bounded hcall
    simp only [TraceOp.request, htype] at hallow
    obtain ⟨s, hs⟩ := Option.isSome_iff_exists.mp hallow
    obtain ⟨q, hheld, hblock, hq⟩ := ha.stored _ s hs
    cases hold.symm.trans hblock
    simp only [TraceOp.resize, htype]
    refine ⟨_, _, hconf.bounded ha.bounded, ?_, fun q r hq => ?_,
      ha.tolerated.sublist List.filter_sublist, ha.tracks.release hheld, fun k r hk => ?_⟩
    · dsimp only
      rw [ha.ranges]
      exact removeRange_map (fun _ => rfl) ha.nodup p
    · exact hconf.wellPlaced (ha.placed q r (mem_drop.mp hq).1)
    · by_cases hki : k = op.index.toInt.toNat
      · rw [hki, Function.update_self] at hk
        cases hk
      · rw [Function.update_of_ne hki] at hk
        obtain ⟨q, hk', hkblock, hkq⟩ := ha.stored k r hk
        exact ⟨q, (Function.update_of_ne hki _ _).trans hk', hkblock,
          ha.tracks.mem_drop hheld hki hk' hkq⟩

/-- A trace that passes keeps the audit. -/
theorem Audited.run (hpkg : pkg.Confined) {ops : List TraceOp} (ha : Audited d held sizes live)
    (hadm : admissible (holders sizes) (ops.map TraceOp.request) = true)
    (hrun : validOps pkg trace t i ops d = .ok (true, d')) :
    ∃ held' live', Audited d' held' (sizesAfter sizes ops) live' := by
  induction ops generalizing i d held sizes live with
  | nil =>
    cases hrun
    exact ⟨held, live, ha⟩
  | cons op ops ih =>
    obtain ⟨hallow, hadm⟩ := admissible_cons.mp hadm
    obtain ⟨⟨ok, d₁⟩, hop, hrun⟩ := bind_eq_ok hrun
    cases ok with
    | false => cases hrun
    | true =>
      obtain ⟨held₁, live₁, ha₁⟩ := ha.step hpkg hallow hop
      rw [← holders_resize hallow] at hadm
      exact ih ha₁ hadm hrun

end Audit

/-- The sizes that the names hold at the end of the trace. -/
def Trace.sizes (trace : Trace) : ℕ → Option Int32 := sizesAfter (fun _ => none) trace.ops

/-- What a package that passes has done: every block that is left is aligned and inside the heap,
and of two of them neither overlaps the other, except where one goes beyond the other on both
sides. -/
theorem evalMmValid_sound {pkg : Package} (hpkg : pkg.Confined) {trace : Trace} {t : ℕ}
    {d d' : Mdriver} (hb : Bounded (memResetBrk d.heap)) (hwf : trace.WellFormed)
    (hrun : evalMmValid pkg trace t d = .ok (true, d')) :
    (∀ k s, trace.sizes k = some s → ∃ p, d'.blocks k = some p ∧ WellPlaced d'.heap p s) ∧
      ∀ j k r s p q, j ≠ k → trace.sizes j = some r → trace.sizes k = some s →
        d'.blocks j = some p → d'.blocks k = some q →
        Tolerated (p, r) (q, s) ∨ Tolerated (q, s) (p, r) := by
  obtain ⟨⟨r, h⟩, hinit, hrun⟩ := bind_eq_ok hrun
  dsimp only at hrun
  split_ifs at hrun with hneg
  · cases hrun
  have hconf := hpkg.mmInit hb (call_eq_ok hinit)
  have hstart : Audited { d with heap := h, ranges := [] } (fun _ => none) (fun _ => none) [] :=
    ⟨hconf.bounded hb, rfl, fun _ _ hp => (nomatch hp), .nil,
      ⟨fun _ _ hk => (nomatch hk), fun _ _ _ hk => (nomatch hk)⟩, fun _ _ hk => (nomatch hk)⟩
  obtain ⟨held, live, ha⟩ := hstart.run hpkg hwf.2 hrun
  refine ⟨fun k s hk => ?_, fun j k r s p q hne hj hk hp hq => ?_⟩
  · obtain ⟨p, -, hblock, hp⟩ := ha.stored k s hk
    exact ⟨p, hblock, ha.placed p s hp⟩
  · obtain ⟨p', hj', hjblock, hjp⟩ := ha.stored j r hj
    obtain ⟨q', hk', hkblock, hkq⟩ := ha.stored k s hk
    cases hjblock.symm.trans hp
    cases hkblock.symm.trans hq
    have hpq : (p, r) ≠ (q, s) := fun heq =>
      hne (ha.tracks.apart j k p hj' ((Prod.mk.inj heq).1 ▸ hk'))
    have hsymm : Std.Symm fun e f => Tolerated e f ∨ Tolerated f e := ⟨fun _ _ => Or.symm⟩
    have hpairs : live.Pairwise fun e f => Tolerated e f ∨ Tolerated f e :=
      ha.tolerated.imp Or.inl
    exact List.Pairwise.forall (R := fun e f => Tolerated e f ∨ Tolerated f e) hpairs hjp hkq hpq

/-- A package that serves small requests in the middle of the only large block. -/
def nested : Package where
  mmInit h := .ok (0, (memSbrk h 64).2)
  mmMalloc h n := .ok (if n ≤ 8 then memHeapLo h + 8 else memHeapLo h, h)
  mmFree h _ := .ok h
  mmRealloc h p _ := .ok (p, h)

theorem confined_nested : nested.Confined where
  mmInit hb hrun := by
    cases hrun
    exact confines_memSbrk hb 64
  mmMalloc hb hrun := by
    cases hrun
    exact .refl hb
  mmFree hb hrun := by
    cases hrun
    exact .refl hb
  mmRealloc hb hrun := by
    cases hrun
    exact .refl hb

/-- The large block is requested last, so the driver does not find that it overlaps the small
one. -/
theorem evalMmValid_sound_nested :
    ∃ d', evalMmValid nested ⟨2, [⟨.alloc, 0, 8⟩, ⟨.alloc, 1, 32⟩]⟩ 0 sampleDriver =
        .ok (true, d') ∧
      WellPlaced d'.heap 65544 8 ∧ WellPlaced d'.heap 65536 32 ∧
      (Tolerated (65536, 32) (65544, 8) ∨ Tolerated (65544, 8) (65536, 32)) ∧
      (recordOf (65536, 32)).Encloses (recordOf (65544, 8)) := by
  have hb : Bounded (memResetBrk sampleDriver.heap) :=
    ⟨by decide, by decide, by decide, by decide⟩
  have hcomputed : (evalMmValid nested ⟨2, [⟨.alloc, 0, 8⟩, ⟨.alloc, 1, 32⟩]⟩ 0 sampleDriver).map
      (fun r => (r.1, r.2.blocks 0, r.2.blocks 1)) = .ok (true, some 65544, some 65536) := by
    decide +kernel
  obtain ⟨⟨ok, d'⟩, hrun, heq⟩ := map_eq_ok hcomputed
  obtain ⟨rfl, h0, h1⟩ : ok = true ∧ d'.blocks 0 = some 65544 ∧ d'.blocks 1 = some 65536 := by
    simpa using heq
  obtain ⟨hplaced, htolerated⟩ := evalMmValid_sound confined_nested hb (by decide) hrun
  obtain ⟨p, hp, hp8⟩ := hplaced 0 8 rfl
  obtain ⟨q, hq, hq32⟩ := hplaced 1 32 rfl
  cases hp.symm.trans h0
  cases hq.symm.trans h1
  exact ⟨d', hrun, hp8, hq32, htolerated 1 0 32 8 _ _ (by decide) rfl rfl h1 h0,
    by decide, by decide⟩

end Orga.Malloc
