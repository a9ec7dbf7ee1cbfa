import Mathlib.Data.List.Chain
import Orga.Malloc.Invariant
import Orga.Malloc.Refinement

/-! No two free blocks of a run are adjacent, so a heap without live pointers is one free
block. -/
namespace Orga.Malloc
open Relation

/-- Of two adjacent blocks at least one is allocated. -/
def Coalesced (bs : List Bloque) : Prop := bs.IsChain fun b c => b.alloc = true ∨ c.alloc = true

theorem coalesced_alloc {pre post : List Bloque} {s : Size} :
    Coalesced (pre ++ ⟨s, true⟩ :: post) ↔ Coalesced pre ∧ Coalesced post := by
  unfold Coalesced
  rw [List.isChain_append, List.isChain_cons]
  simp

theorem coalesced_free {pre post : List Bloque} {s : Size} :
    Coalesced (pre ++ ⟨s, false⟩ :: post) ↔ (Coalesced pre ∧ ∀ b ∈ pre.getLast?, b.alloc = true) ∧
      Coalesced post ∧ ∀ b ∈ post.head?, b.alloc = true := by
  unfold Coalesced
  rw [List.isChain_append, List.isChain_cons]
  simp
  tauto

namespace Coalesced
variable {bs : List Bloque}

theorem sides {pre post : List Bloque} {b : Bloque} (hc : Coalesced (pre ++ b :: post)) :
    Coalesced pre ∧ Coalesced post :=
  ⟨hc.left_of_append, hc.right_of_append.tail⟩

theorem carve {pre post : List Bloque} {b : Bloque} (hc : Coalesced (pre ++ b :: post))
    (hb : b.alloc = false) (a : Size) : Coalesced (pre ++ carve a b ++ post) := by
  obtain ⟨s, alloc⟩ := b
  cases hb
  obtain ⟨⟨hpre, -⟩, hpost, hhead⟩ := coalesced_free.mp hc
  unfold Malloc.carve
  split_ifs with hsplit
  · -- the remainder is followed by what followed the free block
    have hrest : Coalesced ([] ++ ⟨s.rest a hsplit, false⟩ :: post) :=
      coalesced_free.mpr ⟨⟨.nil, by simp⟩, hpost, hhead⟩
    have hall := coalesced_alloc (s := a).mpr ⟨hpre, hrest⟩
    simpa using hall
  · have hall := coalesced_alloc (s := s).mpr ⟨hpre, hpost⟩
    simpa using hall

theorem firstFit (hc : Coalesced bs) {a : Size} {r : ℕ × List Bloque}
    (h : firstFit a bs = some r) : Coalesced r.2 := by
  obtain ⟨o, bs'⟩ := r
  obtain ⟨pre, b, post, rfl, -, rfl, hb, -⟩ := firstFit_eq_some h
  exact hc.carve hb a

theorem appendFree (hc : Coalesced bs) (e : Size) : ∃ pre m, appendFree e bs = pre ++ [⟨m, false⟩] ∧
    Coalesced pre ∧ ∀ b ∈ pre.getLast?, b.alloc = true := by
  rcases List.eq_nil_or_concat' bs with rfl | ⟨pre, ⟨s, alloc⟩, rfl⟩
  · exact ⟨[], e, rfl, .nil, by simp⟩
  · cases alloc with
    | false =>
      obtain ⟨hpre, -⟩ := coalesced_free.mp hc
      exact ⟨pre, s + e, appendFree_free pre s e, hpre⟩
    | true =>
      refine ⟨pre ++ [⟨s, true⟩], e, ?_, hc, by simp⟩
      rw [appendFree_alloc, List.append_assoc]
      rfl

theorem absorb (hc : Coalesced bs) (s : Size) :
    Coalesced (absorb s bs).2 ∧ ∀ b ∈ (absorb s bs).2.head?, b.alloc = true := by
  cases bs with
  | nil => exact ⟨.nil, by simp [Malloc.absorb]⟩
  | cons b bs =>
    obtain ⟨t, alloc⟩ := b
    cases alloc with
    | false =>
      have hfree : Coalesced ([] ++ ⟨t, false⟩ :: bs) := hc
      exact (coalesced_free.mp hfree).2
    | true => exact ⟨hc, by simp [Malloc.absorb]⟩

theorem release {pre post : List Bloque} (hpre : Coalesced pre) (hpost : Coalesced post)
    (s : Size) : Coalesced (release pre s post) := by
  have hright := hpost.absorb s
  obtain ⟨pre', m, heq, hleft⟩ := hpre.appendFree (Malloc.absorb s post).1
  rw [Malloc.release, heq, List.append_assoc]
  exact coalesced_free.mpr ⟨hleft, hright⟩

theorem abstractMalloc (hc : Coalesced bs) (r : ℕ) (a : Size) :
    Coalesced (abstractMalloc r a bs).2 := by
  unfold Malloc.abstractMalloc
  split
  · next hfit => exact hc.firstFit hfit
  · split_ifs
    · split
      · next hfit =>
        obtain ⟨pre, m, heq, hpre⟩ := hc.appendFree a.growth
        have hgrown : Coalesced (Malloc.appendFree a.growth bs) := by
          rw [heq]
          exact coalesced_free.mpr ⟨hpre, .nil, by simp⟩
        exact hgrown.firstFit hfit
      · exact hc
    · exact hc

theorem abstractFree (hc : Coalesced bs) (o : ℕ) : Coalesced (abstractFree o bs) := by
  unfold Malloc.abstractFree
  split
  · next hloc =>
    rw [locate_eq_some hloc] at hc
    exact hc.sides.1.release hc.sides.2 _
  · exact hc

end Coalesced

/-- The operations of the abstract allocator on `room` bytes. -/
inductive BlockStep (room : ℕ) (bs : List Bloque) : List Bloque → Prop where
  | malloc (a : Size) : BlockStep room bs (abstractMalloc room a bs).2
  | free (o : ℕ) : BlockStep room bs (abstractFree o bs)

theorem chunk_size : 16 ∣ 4096 ∧ 32 ≤ 4096 := by decide

/-- What `mm_init` leaves of `room` bytes: one block of `CHUNKSIZE`, or none when it fails. -/
def initialBlocks (room : ℕ) : List Bloque :=
  if 4096 ≤ room then [⟨⟨4096, chunk_size⟩, false⟩] else []

theorem SameArena.room_eq {h h' : Heap} (ha : SameArena h h') : room h' = room h := by
  rw [ha]
  rfl

/-- A call on a heap that holds `bs` acted as operations on the list. -/
def ActsOn (h h' : Heap) (bs : List Bloque) : Prop :=
  ∃ cs, Layout h' cs ∧ SameArena h h' ∧ ReflTransGen (BlockStep (room h)) bs cs

section Valid
variable {s : State} {bs : List Bloque}

theorem Valid.mmMalloc_acts (hv : Valid s bs) {size p : UInt64} {h' : Heap} (hfit : Fits size)
    (hrun : Malloc.mmMalloc s.heap size = .ok (p, h')) : ActsOn s.heap h' bs := by
  by_cases hsize : size = 0
  · subst hsize
    cases hrun
    exact ⟨bs, hv.layout, .refl _, .refl⟩
  · obtain ⟨h'', hrun', hL, hsame⟩ := hv.toRefines.malloc size hsize hfit
    cases hrun.symm.trans hrun'
    exact ⟨_, hL, hsame, .single (.malloc _)⟩

theorem Valid.mmFree_acts (hv : Valid s bs) {p : UInt64} {h' : Heap} (hp : Passable s p)
    (hrun : Malloc.mmFree s.heap p = .ok h') : ActsOn s.heap h' bs := by
  rcases hp with rfl | hp
  · cases hrun
    exact ⟨bs, hv.layout, .refl _, .refl⟩
  · obtain ⟨pre, size, post, hbs, rfl⟩ := (hv.live_iff p).mp hp
    obtain ⟨h'', hrun', hL, hsame⟩ := hv.toRefines.free pre size post hbs
    cases hrun.symm.trans hrun'
    have habs : abstractFree (total pre) bs = release pre size post := by
      rw [hbs, abstractFree, locate_total]
    exact ⟨_, hL, hsame, habs ▸ .single (.free _)⟩

theorem Valid.mmRealloc_acts (hv : Valid s bs) {p size q : UInt64} {h' : Heap}
    (hp : Passable s p) (hfit : Fits size) (hrun : Malloc.mmRealloc s.heap p size = .ok (q, h')) :
    ActsOn s.heap h' bs := by
  by_cases hsize : size = 0
  · obtain ⟨h'', -, hfree, -⟩ := hv.mmFree hp
    rw [Malloc.mmRealloc, if_pos hsize, hfree] at hrun
    cases hrun
    exact hv.mmFree_acts hp hfree
  rcases hp with rfl | hp
  · rw [Malloc.mmRealloc, if_neg hsize, if_pos rfl] at hrun
    exact hv.mmMalloc_acts hfit (by simpa using hrun)
  · obtain ⟨pre, sz, post, hbs, rfl⟩ := (hv.live_iff p).mp hp
    obtain ⟨h'', hrun', hL, hsame⟩ := hv.toRefines.realloc pre sz post size hbs hsize hfit
    cases hrun.symm.trans hrun'
    refine ⟨_, hL, hsame, ?_⟩
    have hstep : BlockStep (room s.heap) bs
        (abstractMalloc (room s.heap) (requestSize size.toNat) bs).2 := .malloc _
    rcases habs : abstractMalloc (room s.heap) (requestSize size.toNat) bs with ⟨_ | o, cs⟩
    · exact .refl
    · rw [habs] at hstep
      exact (ReflTransGen.single hstep).tail (.free _)

/-- One action of the driver is a few operations on the list. -/
theorem Valid.step_acts (hv : Valid s bs) {s' : State} (hs : Step s s') :
    ActsOn s.heap s'.heap bs := by
  cases hs with
  | malloc hfit hrun => exact hv.mmMalloc_acts hfit hrun
  | free hp hrun => exact hv.mmFree_acts hp hrun
  | realloc hp hfit hrun => exact hv.mmRealloc_acts hp hfit hrun
  | write v hp hi => exact ⟨bs, (hv.write hp hi v).layout, rfl, .refl⟩

end Valid

/-- Every run of the driver is a run of the abstract allocator. -/
theorem Reachable.blockRun {s : State} (hs : Reachable s) :
    ∃ bs, Valid s bs ∧
      ReflTransGen (BlockStep (room s.heap)) (initialBlocks (room s.heap)) bs := by
  obtain ⟨h0, r, h, hA, hinit, hrun⟩ := hs
  induction hrun with
  | refl =>
    obtain ⟨bs, hv⟩ := Reachable.valid ⟨h0, r, h, hA, hinit, .refl⟩
    have hA' : Arena (memResetBrk h0) := ⟨hA.aligned, hA.pos, hA.fits, hA.user⟩
    obtain ⟨h', hrun, hL, hstart, hmax, -⟩ := hA'.mmInit rfl
    cases hinit.symm.trans hrun
    have hroom : room h = room (memResetBrk h0) := by rw [room, room, hstart, hmax]
    refine ⟨bs, hv, ?_⟩
    rw [hv.layout.unique hL]
    dsimp only
    rw [hroom]
    exact .refl
  | tail _ hstep ih =>
    obtain ⟨bs, hv, hbs⟩ := ih
    obtain ⟨bs', hv'⟩ := hv.step hstep
    obtain ⟨cs, hL, hsame, hcs⟩ := hv.step_acts hstep
    refine ⟨bs', hv', ?_⟩
    rw [hv'.layout.unique hL, hsame.room_eq]
    exact hbs.trans hcs

/-- The blocks of a run: no two free neighbours, and none at all where `mm_init` found no
room for one. -/
structure Settled (room : ℕ) (bs : List Bloque) : Prop where
  coalesced : Coalesced bs
  nil_iff : bs = [] ↔ room < 4096

theorem le_growth (a : Size) : 4096 ≤ a.growth.1 := by
  unfold Size.growth
  split_ifs
  · exact le_rfl
  · omega

theorem firstFit_ne_nil {a : Size} {bs : List Bloque} {r : ℕ × List Bloque}
    (h : firstFit a bs = some r) : bs ≠ [] ∧ r.2 ≠ [] := by
  obtain ⟨o, bs'⟩ := r
  obtain ⟨pre, b, post, rfl, -, rfl, -⟩ := firstFit_eq_some h
  obtain ⟨t, rest, hcarve⟩ := carve_eq_cons a b
  rw [hcarve]
  simp

theorem release_ne_nil (pre post : List Bloque) (s : Size) : release pre s post ≠ [] := by
  obtain ⟨pre', m, heq, -⟩ := appendFree_prefix (absorb s post).1 pre
  rw [release, heq]
  simp

namespace Settled
variable {r : ℕ} {bs : List Bloque}

theorem initialBlocks (r : ℕ) : Settled r (initialBlocks r) := by
  unfold Malloc.initialBlocks
  split_ifs with hr
  · exact ⟨.singleton _, by simp; omega⟩
  · exact ⟨.nil, by simp; omega⟩

theorem abstractMalloc (hs : Settled r bs) (a : Size) :
    Settled r (abstractMalloc r a bs).2 where
  coalesced := hs.coalesced.abstractMalloc r a
  nil_iff := by
    have hnil := hs.nil_iff
    have hgrow := le_growth a
    unfold Malloc.abstractMalloc
    split
    · next hfit =>
      have hne := firstFit_ne_nil hfit
      exact ⟨fun h => absurd h hne.2, fun h => absurd (hnil.mpr h) hne.1⟩
    · split_ifs with hroom
      · split
        · next hfit =>
          -- the room of a growth is room for the first block
          have hne := firstFit_ne_nil hfit
          exact ⟨fun h => absurd h hne.2, fun h => absurd h (by omega)⟩
        · exact hnil
      · exact hnil

theorem abstractFree (hs : Settled r bs) (o : ℕ) : Settled r (abstractFree o bs) where
  coalesced := hs.coalesced.abstractFree o
  nil_iff := by
    have hnil := hs.nil_iff
    unfold Malloc.abstractFree
    split
    · next hloc =>
      have hne : bs ≠ [] := by
        rw [locate_eq_some hloc]
        simp
      exact ⟨fun h => absurd h (release_ne_nil _ _ _), fun h => absurd (hnil.mpr h) hne⟩
    · exact hnil

theorem step (hs : Settled r bs) {bs' : List Bloque} (h : BlockStep r bs bs') :
    Settled r bs' := by
  cases h with
  | malloc a => exact hs.abstractMalloc a
  | free o => exact hs.abstractFree o

theorem run (hs : Settled r bs) {bs' : List Bloque} (h : ReflTransGen (BlockStep r) bs bs') :
    Settled r bs' := by
  induction h with
  | refl => exact hs
  | tail _ hstep ih => exact ih.step hstep

theorem all_free (hs : Settled r bs) (hr : 4096 ≤ r) (hfree : ∀ b ∈ bs, b.alloc = false) :
    ∃ size, bs = [⟨size, false⟩] := by
  match bs, hs, hfree with
  | [], hs, _ => exact absurd (hs.nil_iff.mp rfl) (by omega)
  | [⟨size, alloc⟩], _, hfree =>
    cases hfree ⟨size, alloc⟩ (by simp)
    exact ⟨size, rfl⟩
  | b :: c :: bs, hs, hfree =>
    have hpair := (List.isChain_cons_cons.mp hs.coalesced).1
    have hb := hfree b (by simp)
    have hc := hfree c (by simp)
    simp [hb, hc] at hpair

end Settled

def IsFree (h : Heap) (p : UInt64) : Prop := isAllocated h (obtenerHeader p) = .ok false

theorem Segment.isFree {h : Heap} {c : ℕ} {b : Bloque} {bs : List Bloque}
    (hs : Segment h c (b :: bs)) : IsFree h (payload c) ↔ b.alloc = false := by
  rw [IsFree, obtenerHeader_payload, hs.1.header.isAllocated, Except.ok.injEq]

theorem Segment.isChain_visited {h : Heap} {c : ℕ} {bs : List Bloque} (hs : Segment h c bs)
    (hc : Coalesced bs) :
    (visited c bs).IsChain fun b d => ¬ (IsFree h b.1 ∧ IsFree h d.1) := by
  induction bs generalizing c with
  | nil => exact .nil
  | cons b bs ih =>
    cases bs with
    | nil => exact .singleton _
    | cons d bs =>
      obtain ⟨hbd, hrest⟩ := List.isChain_cons_cons.mp hc
      refine List.isChain_cons_cons.mpr ⟨?_, ih hs.2 hrest⟩
      rintro ⟨hb, hd⟩
      rw [hs.isFree.mp hb, hs.2.isFree.mp hd] at hbd
      simp at hbd

/-- The blocks of a state are merged as far as they can be. An arena with less than 4096
bytes of room, which `mem_init` never leaves, never gets a block. -/
structure FullyCoalesced (s : State) (blocks : List (UInt64 × ℕ)) : Prop where
  invariant : HeapInvariant s blocks
  apart : blocks.IsChain fun b c => ¬ (IsFree s.heap b.1 ∧ IsFree s.heap c.1)
  emptied : s.live = [] → 4096 ≤ room s.heap →
    ∃ p, blocks = [(p, (memHeapsize s.heap).toNat - 32)] ∧ IsFree s.heap p
  barren : room s.heap < 4096 → blocks = []

theorem Valid.toFullyCoalesced {s : State} {bs : List Bloque} (hv : Valid s bs)
    (hs : Settled (room s.heap) bs) : FullyCoalesced s (visited (base s.heap) bs) where
  invariant := hv.toHeapInvariant
  apart := hv.layout.blocks.isChain_visited hs.coalesced
  emptied hlive hroom := by
    have hfree : ∀ b ∈ bs, b.alloc = false := by
      rintro ⟨size, alloc⟩ hb
      obtain ⟨pre, post, rfl⟩ := List.append_of_mem hb
      cases alloc with
      | false => rfl
      | true =>
        obtain ⟨n, hn⟩ := hv.ledger.owned _ _ ⟨pre, size, post, rfl, rfl, rfl⟩
        rw [hlive] at hn
        simp at hn
    obtain ⟨size, rfl⟩ := hs.all_free hroom hfree
    refine ⟨payload (base s.heap), ?_, hv.layout.blocks.isFree.mpr rfl⟩
    rw [hv.layout.memHeapsize_eq, Nat.add_sub_cancel]
    rfl
  barren hroom := by
    rw [hs.nil_iff.mpr hroom]
    rfl

theorem room_memInit (h : Heap) (start : UInt64) (huser : start.toNat + MAX_HEAP.toNat < 2 ^ 63) :
    room (memInit h start) = MAX_HEAP.toNat - 32 := by
  rw [room, memInit_memMaxAddr h start huser]
  show start.toNat + _ - start.toNat - 32 = _
  omega

/-- In every state of a run coalescing is complete. -/
theorem Reachable.fullyCoalesced {s : State} (hs : Reachable s) :
    ∃ blocks, FullyCoalesced s blocks := by
  obtain ⟨bs, hv, hrun⟩ := hs.blockRun
  exact ⟨_, hv.toFullyCoalesced ((Settled.initialBlocks _).run hrun)⟩

def sampleEmptied : State :=
  ((((((State.start sampleArena).malloc 100).malloc 5000).malloc 24).free 65696).free 65568).free
    70720

set_option maxRecDepth 20000 in
theorem reachable_sampleEmptied : Reachable sampleEmptied := by
  have hA : Arena sampleArena := arena_memInit _ _ (by decide) (by decide) (by decide)
  have h100 : Fits 100 := by decide
  have h5000 : Fits 5000 := by decide
  have h24 : Fits 24 := by decide
  have hfull := (((Reachable.start hA).malloc h100).malloc h5000).malloc h24
  refine ((hfull.free (p := 65696) (Or.inr ⟨5000, ?_⟩)).free (p := 65568)
    (Or.inr ⟨100, ?_⟩)).free (p := 70720) (Or.inr ⟨24, ?_⟩)
  · decide +kernel
  · decide +kernel
  · decide +kernel

theorem fullyCoalesced_sampleEmptied :
    sampleEmptied.live = [] ∧ ∃ blocks, FullyCoalesced sampleEmptied blocks :=
  ⟨by decide +kernel, reachable_sampleEmptied.fullyCoalesced⟩

end Orga.Malloc
