import Orga.Malloc.Calls

/-! `mm_init`: the four words it writes at the break, wherever that is, and the first block
it asks for. -/
namespace Orga.Malloc

structure SameWords (h h' : Heap) : Prop where
  start : h'.memStartBrk = h.memStartBrk
  brk : h'.memBrk = h.memBrk
  bytes : h'.bytes = h.bytes

section SameWords
variable {h h' : Heap} (hs : SameWords h h') {a s : ℕ} {b : Bool}
include hs

theorem SameWords.tag (ht : Tag h a s b) : Tag h' a s b where
  inHeap := by
    unfold InHeap
    rw [hs.start, hs.brk]
    exact ht.inHeap
  word := by
    rw [hs.bytes]
    exact ht.word
  aligned := ht.aligned

theorem SameWords.block (hb : Block h a s b) : Block h' a s b :=
  ⟨hs.tag hb.header, hs.tag hb.footer, hb.size⟩

end SameWords

/-- `mm_init` changed bytes, the break and `heap_listp` only. -/
def Initialised (h h' : Heap) : Prop :=
  h' = { h with bytes := h'.bytes, memBrk := h'.memBrk, heapListp := h'.heapListp }

/-- The last words of the heap are the prologue, at `c`, and the epilogue. -/
structure Barren (h : Heap) (c : ℕ) : Prop where
  listp : h.heapListp = payload c
  low : h.memStartBrk.toNat + 8 ≤ c
  prologue : Block h c 16 true
  epilogue : Tag h (c + 16) 0 true
  brk : h.memBrk.toNat = c + 24
  brk_le : h.memBrk.toNat ≤ h.memMaxAddr.toNat
  user : h.memMaxAddr.toNat < 2 ^ 63

section Init
variable {h : Heap} (hlo : h.memStartBrk.toNat ≤ h.memBrk.toNat)
  (hroom : h.memBrk.toNat + 32 ≤ h.memMaxAddr.toNat) (huser : h.memMaxAddr.toNat < 2 ^ 63)
include hlo hroom huser

private theorem prologue :
    ∃ h1 h2 h3 h4 : Heap,
      escribirHeader { h.raise 32 with heapListp := h.memBrk } h.memBrk 0 = .ok h1 ∧
      h1.heapListp = h.memBrk ∧
      escribirHeader h1 (h.memBrk + WSIZE) (packWord DSIZE 1) = .ok h2 ∧ h2.heapListp = h.memBrk ∧
      escribirHeader h2 (h.memBrk + 2 * WSIZE) (packWord DSIZE 1) = .ok h3 ∧
      h3.heapListp = h.memBrk ∧
      escribirHeader h3 (h.memBrk + 3 * WSIZE) (packWord 0 1) = .ok h4 ∧
      h4.heapListp = h.memBrk ∧
      Barren { h4 with heapListp := h.memBrk + 2 * WSIZE } (h.memBrk.toNat + 8) ∧
      Initialised h { h4 with heapListp := h.memBrk + 2 * WSIZE } := by
  let st := h.memBrk.toNat
  have hst : h.memBrk = UInt64.ofNat st := UInt64.ofNat_toNat.symm
  have hplus : ∀ k : ℕ, h.memBrk + UInt64.ofNat k = UInt64.ofNat (st + k) := fun k => by
    rw [hst, ofNat_add_ofNat]
  let h0 : Heap := { h.raise 32 with heapListp := h.memBrk }
  have hk : h0.memBrk.toNat = st + 32 := raise_memBrk huser hroom
  have hin : ∀ k ≤ 24, InHeap h0 (st + k) 8 := fun k hk' =>
    ⟨by show h.memStartBrk.toNat ≤ st + k; omega, by omega⟩
  let h1 := h0.setTag st 0 false
  let h2 := h1.setTag (st + 8) 16 true
  let h3 := h2.setTag (st + 16) 16 true
  let h4 := h3.setTag (st + 24) 0 true
  have hb3 : Block h3 (st + 8) 16 true := (block_of_setTags (h := h1) (k := h3) (b := true)
    ⟨(hin 8 (by omega)).1, by have := (hin 16 (by omega)).2; dsimp [h1]; omega⟩ (by omega)
    le_rfl (Or.inl rfl)).1
  have hb4 : Block h4 (st + 8) 16 true := hb3.setTag (by omega)
  have hepi : Tag h4 (st + 24) 0 true := tag_setTag (hin 24 le_rfl) (by omega) (by omega)
  have hl1 : h1.heapListp = h.memBrk := setTag_heapListp
  have hl2 : h2.heapListp = h.memBrk := setTag_heapListp.trans hl1
  have hl3 : h3.heapListp = h.memBrk := setTag_heapListp.trans hl2
  have hl4 : h4.heapListp = h.memBrk := setTag_heapListp.trans hl3
  have hw1 : escribirHeader h0 (UInt64.ofNat st) (packWord (UInt64.ofNat 0) 0) = .ok h1 :=
    escribirHeader_free (hin 0 (by omega)) (by omega) (by omega)
  have hsame : SameWords h4 { h4 with heapListp := h.memBrk + 2 * WSIZE } := ⟨rfl, rfl, rfl⟩
  refine ⟨h1, h2, h3, h4, ?_, hl1, ?_, hl2, ?_, hl3, ?_, hl4, ?_, rfl⟩
  · rw [← hst] at hw1
    exact hw1
  · rw [show WSIZE = UInt64.ofNat 8 from rfl, hplus]
    exact escribirHeader_alloc (h := h1) (s := 16) (hin 8 (by omega)) (by omega) (by omega)
  · rw [show 2 * WSIZE = UInt64.ofNat 16 from rfl, hplus]
    exact escribirHeader_alloc (h := h2) (s := 16) (hin 16 (by omega)) (by omega) (by omega)
  · rw [show 3 * WSIZE = UInt64.ofNat 24 from rfl, hplus]
    exact escribirHeader_alloc (h := h3) (s := 0) (hin 24 le_rfl) (by omega) (by omega)
  · constructor
    · show h.memBrk + 2 * WSIZE = payload (st + 8)
      rw [show 2 * WSIZE = UInt64.ofNat 16 from rfl, hplus]
      rfl
    · show h.memStartBrk.toNat + 8 ≤ st + 8
      omega
    · exact hsame.block hb4
    · exact hsame.tag hepi
    · exact hk
    · exact hk.le.trans hroom
    · exact huser

theorem mmInit_barren :
    ∃ h5, Barren h5 (h.memBrk.toNat + 8) ∧ Initialised h h5 ∧
      mmInit h = (extendHeap h5 (CHUNKSIZE / WSIZE) >>= fun r =>
        .ok (if r.1 = NULL then 0 else 1, r.2)) := by
  obtain ⟨h1, h2, h3, h4, hw1, hl1, hw2, hl2, hw3, hl3, hw4, hl4, hB, hsame⟩ :=
    prologue hlo hroom huser
  have hne : ¬ h.memBrk = SBRK_FAILED := by
    intro hs
    have hto : SBRK_FAILED.toNat = h.memBrk.toNat := by rw [hs]
    have : SBRK_FAILED.toNat = 2 ^ 64 - 1 := rfl
    omega
  have hsbrk := memSbrk_room (h := h) (e := 32) (by omega) huser hroom
  refine ⟨_, hB, hsame, ?_⟩
  rw [mmInit, show 4 * WSIZE = UInt64.ofNat 32 from rfl, hsbrk]
  dsimp only
  rw [if_neg hne, hw1, ok_bind, hl1, hw2, ok_bind, hl2, hw3, ok_bind, hl3, hw4, ok_bind, hl4]
  congr 1
  funext r
  split_ifs <;> rfl

end Init

theorem Arena.congr {h h' : Heap} (hA : Arena h) (hsame : Initialised h h') : Arena h' := by
  unfold Initialised at hsame
  rw [hsame]
  exact ⟨hA.aligned, hA.pos, hA.fits, hA.user⟩

theorem Barren.layout {h : Heap} (hB : Barren h (h.memStartBrk.toNat + 8)) (hA : Arena h) :
    Layout h [] where
  arena := hA
  listp := hB.listp
  prologue := hB.prologue
  blocks := trivial
  epilogue := hB.epilogue
  brk := hB.brk
  brk_le := hB.brk_le

/-- `mm_init` on an empty arena lays out the prologue, the epilogue and, when it fits, one
free block of 4096 bytes. -/
theorem Arena.mmInit {h : Heap} (hA : Arena h) (hempty : h.memBrk = h.memStartBrk) :
    ∃ h', mmInit h = .ok (if 4096 ≤ room h then 1 else 0, h') ∧
      Layout h' (if 4096 ≤ room h then [⟨⟨4096, by decide⟩, false⟩] else []) ∧
      h'.memStartBrk = h.memStartBrk ∧ h'.memMaxAddr = h.memMaxAddr ∧ h'.output = h.output := by
  obtain ⟨h5, hB, hsame, hstep⟩ := mmInit_barren (h := h) (by rw [hempty])
    (by rw [hempty]; exact hA.fits) hA.user
  have hmax : h5.memMaxAddr = h.memMaxAddr := by rw [hsame]
  have hstart : h5.memStartBrk = h.memStartBrk := by rw [hsame]
  have hout : h5.output = h.output := by rw [hsame]
  have hL : Layout h5 [] := by
    rw [hempty, ← hstart] at hB
    exact hB.layout (hA.congr hsame)
  let e : Size := ⟨4096, by decide⟩
  have hroom : 4096 ≤ room h ↔ h5.memBrk.toNat + e.1 ≤ h5.memMaxAddr.toNat := by
    have hiff := hL.room_iff e.1
    rw [total_nil, Nat.zero_add] at hiff
    rw [← hiff, room, room, hmax, hstart]
  have hchunk : CHUNKSIZE / WSIZE = UInt64.ofNat (e.1 / 8) := by decide
  rw [hstep, hchunk]
  by_cases hfull : 4096 ≤ room h
  · obtain ⟨h', pre0, m, hrun, -, hfound, hL', hsame', -, -⟩ :=
      hL.extendHeap_room (e := e) (by decide) (hroom.mp hfull)
    have hnil : appendFree e [] = [⟨e, false⟩] := rfl
    rw [hnil] at hfound hL'
    have hfound' : ([] : List Bloque) ++ [⟨e, false⟩] = pre0 ++ [⟨m, false⟩] := hfound
    obtain ⟨rfl, -⟩ := List.append_inj' hfound' rfl
    have hlt := hL'.total_lt
    rw [hsame'.base_eq] at hlt
    have hp : payload (base h5 + total []) ≠ NULL :=
      payload_ne_null (by rw [total_nil]; omega)
    refine ⟨h', ?_, by rw [if_pos hfull]; exact hL', ?_, ?_, ?_⟩
    · rw [hrun, ok_bind, if_pos hfull, if_neg hp]
    · rw [hsame']
      exact hstart
    · rw [hsame']
      exact hmax
    · rw [hsame']
      exact hout
  · have hrun := hL.extendHeap_full (e := e) (by decide) (by have := mt hroom.mpr hfull; omega)
    refine ⟨h5, ?_, by rw [if_neg hfull]; exact hL, hstart, hmax, hout⟩
    rw [hrun, ok_bind, if_neg hfull, if_pos rfl]

end Orga.Malloc
