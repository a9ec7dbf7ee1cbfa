import Orga.Malloc.Steps

/-! `find_fit`, `extend_heap`, `mm_init` and the three calls of the package on a laid-out
heap: each ends normally and acts on the block list as the abstract allocator. -/
namespace Orga.Malloc
open Orga.LittleEndian

/-- A call changed bytes and the break only. -/
def SameArena (h h' : Heap) : Prop := h' = { h with bytes := h'.bytes, memBrk := h'.memBrk }

theorem SameArena.refl (h : Heap) : SameArena h h := rfl

theorem SameArena.trans {h h' h'' : Heap} (h1 : SameArena h h') (h2 : SameArena h' h'') :
    SameArena h h'' := by
  unfold SameArena at *
  rw [h2, h1]

theorem OnlyBytes.sameArena {h h' : Heap} (hb : OnlyBytes h h') : SameArena h h' := by
  unfold OnlyBytes at hb
  unfold SameArena
  rw [hb]

theorem SameArena.base_eq {h h' : Heap} (ha : SameArena h h') : base h' = base h := by
  rw [ha]
  rfl

theorem Keeps.refl (h : Heap) (bs : List Bloque) : Keeps h h bs := fun _ _ _ _ _ _ => rfl

theorem Keeps.trans {h h' h'' : Heap} {bs bs' : List Bloque} (h1 : Keeps h h' bs)
    (h2 : Keeps h' h'' bs') (hbase : base h' = base h)
    (hsub : ∀ x s, Allocated (base h) bs x s → Allocated (base h) bs' x s) : Keeps h h'' bs := by
  intro x s ha y hy1 hy2
  rw [h2 x s (hbase ▸ hsub x s ha) y hy1 hy2, h1 x s ha y hy1 hy2]

theorem Keeps.anti {h h' : Heap} {bs bs' : List Bloque} (hk : Keeps h h' bs)
    (hsub : ∀ x s, Allocated (base h) bs' x s → Allocated (base h) bs x s) : Keeps h h' bs' :=
  fun x s ha => hk x s (hsub x s ha)

section Bounds
variable {h : Heap} {bs : List Bloque}

theorem Layout.base_aligned (hL : Layout h bs) : 16 ∣ base h + 8 := by
  have := hL.arena.aligned
  unfold base
  omega

theorem Layout.total_lt (hL : Layout h bs) : base h + total bs + 8 < 2 ^ 63 := by
  have := hL.brk
  have := hL.brk_le
  have := hL.arena.user
  omega

theorem Layout.memBrk_eq (hL : Layout h bs) : h.memBrk = payload (base h + total bs) := by
  have hb := hL.brk
  rw [payload, ← hb, UInt64.ofNat_toNat]

theorem Layout.memHeapsize_eq (hL : Layout h bs) :
    (memHeapsize h).toNat = total bs + 32 := by
  have hb := hL.brk
  have hle : h.memStartBrk ≤ h.memBrk := by
    rw [UInt64.le_iff_toNat_le, hb, base]
    omega
  rw [memHeapsize, UInt64.toNat_sub_of_le _ _ hle, hb, base]
  omega

theorem Layout.listp_ne_null (hL : Layout h bs) : h.heapListp ≠ NULL := by
  intro hn
  have hlt := hL.prologue.inHeap.lt
  have hto : h.heapListp.toNat = h.memStartBrk.toNat + 8 + 8 := by
    rw [hL.listp, payload, toNat_ofNat_of_lt (by omega)]
  rw [hn] at hto
  exact absurd hto (by simp [NULL])

theorem payload_ne_null {c : ℕ} (hc : c + 8 < 2 ^ 64) : payload c ≠ NULL := by
  intro hn
  have hto : (payload c).toNat = c + 8 := toNat_ofNat_of_lt hc
  rw [hn] at hto
  exact absurd hto (by simp [NULL])

end Bounds

/-- `find_fit` returns the first fit and stops at the epilogue when there is none. -/
theorem Layout.findFit {h : Heap} {bs : List Bloque} (hL : Layout h bs) (a : Size)
    (ha : a.1 < 2 ^ 64) :
    findFit h (UInt64.ofNat a.1) = .ok (match firstFit a bs with
      | some r => payload (base h + r.1)
      | none => NULL, h) := by
  have hpro := hL.prologue
  have h16 := hL.arena.aligned
  have hsize := hL.memHeapsize_eq
  have hlen := length_le_total bs
  have hbase : h.memStartBrk.toNat + 8 + 16 = base h := rfl
  obtain ⟨p, hrun, hp⟩ := findFitLoop_segment ha bs hL.blocks hL.epilogue hL.base_aligned
    (show bs.length + 2 ≤ (memHeapsize h).toNat + 1 by omega)
  -- the prologue is allocated, so the walk goes on from the first block
  have hfirst : findFitLoop (UInt64.ofNat a.1) ((memHeapsize h).toNat + 2) h
      (payload (h.memStartBrk.toNat + 8)) (UInt64.ofNat 16) false =
      .ok (p, (firstFit a bs).isSome, h) := by
    rw [findFitLoop]
    simp only [show UInt64.ofNat 16 > 0 by decide, decide_true, Bool.not_false, Bool.and_self,
      if_true, hpro.checkHeap (by omega), ok_bind, obtenerHeader_payload,
      hpro.header.isAllocated, hpro.header.blockSize, Bool.not_true, Bool.false_and,
      Bool.false_eq_true, if_false, hpro.header.proximoBloque, hbase,
      blockSize_head hL.blocks hL.epilogue, hrun]
  rw [Malloc.findFit, hL.listp, obtenerHeader_payload, hpro.header.blockSize, ok_bind, hfirst]
  cases hf : firstFit a bs with
  | none => rfl
  | some r =>
    rw [hp r hf]
    rfl

/-- The argument of `mem_sbrk` is an `int`; below `2^31` it is the size itself. -/
private theorem sbrkArgument {e : ℕ} (he : e < 2 ^ 31) :
    ¬ (UInt64.ofNat e).toUInt32.toInt32 < 0 ∧
      (UInt64.ofNat e).toUInt32.toInt32.toInt64.toUInt64 = UInt64.ofNat e := by
  have h32 : (UInt64.ofNat e).toUInt32.toInt32.toInt = e := by
    rw [← Int32.toInt_toBitVec, UInt32.toBitVec_toInt32, UInt64.toBitVec_toUInt32,
      UInt64.toBitVec_ofNat', BitVec.toInt_eq_toNat_of_lt] <;> simp <;> omega
  have h64 : (UInt64.ofNat e).toInt64.toInt = e := by
    rw [← Int64.toInt_toBitVec, UInt64.toBitVec_toInt64, UInt64.toBitVec_ofNat',
      BitVec.toInt_eq_toNat_of_lt] <;> simp <;> omega
  constructor
  · rw [Int32.lt_iff_toInt_lt, h32]
    simp
  · have heq : (UInt64.ofNat e).toUInt32.toInt32.toInt64 = (UInt64.ofNat e).toInt64 :=
      Int64.toInt_inj.mp (by rw [Int32.toInt_toInt64, h32, h64])
    rw [heq, UInt64.toUInt64_toInt64]

def Heap.raise (h : Heap) (e : ℕ) : Heap := { h with memBrk := UInt64.ofNat (h.memBrk.toNat + e) }

theorem memSbrk_room {h : Heap} {e : ℕ} (he : e < 2 ^ 31) (huser : h.memMaxAddr.toNat < 2 ^ 63)
    (hroom : h.memBrk.toNat + e ≤ h.memMaxAddr.toNat) :
    memSbrk h (UInt64.ofNat e).toUInt32.toInt32 =
      (h.memBrk, h.raise e) := by
  obtain ⟨hneg, hval⟩ := sbrkArgument he
  have hsum : h.memBrk + UInt64.ofNat e = UInt64.ofNat (h.memBrk.toNat + e) := by
    rw [← ofNat_add_ofNat, UInt64.ofNat_toNat]
  have hle : ¬ UInt64.ofNat (h.memBrk.toNat + e) > h.memMaxAddr := by
    rw [gt_iff_lt, UInt64.lt_iff_toNat_lt, toNat_ofNat_of_lt (by omega)]
    omega
  rw [memSbrk, hval, hsum, if_neg (not_or.mpr ⟨hneg, hle⟩), Heap.raise]

theorem memSbrk_full {h : Heap} {e : ℕ} (he : e < 2 ^ 31) (huser : h.memMaxAddr.toNat < 2 ^ 63)
    (hbrk : h.memBrk.toNat ≤ h.memMaxAddr.toNat)
    (hfull : h.memMaxAddr.toNat < h.memBrk.toNat + e) :
    memSbrk h (UInt64.ofNat e).toUInt32.toInt32 = (SBRK_FAILED, h) := by
  obtain ⟨-, hval⟩ := sbrkArgument he
  have hsum : h.memBrk + UInt64.ofNat e = UInt64.ofNat (h.memBrk.toNat + e) := by
    rw [← ofNat_add_ofNat, UInt64.ofNat_toNat]
  have hgt : UInt64.ofNat (h.memBrk.toNat + e) > h.memMaxAddr := by
    rw [gt_iff_lt, UInt64.lt_iff_toNat_lt, toNat_ofNat_of_lt (by omega)]
    exact hfull
  rw [memSbrk, hval, hsum, if_pos (Or.inr hgt)]

section Raise
variable {h : Heap} {e : ℕ}

theorem Tag.raise {a s : ℕ} {b : Bool} (ht : Tag h a s b)
    (hk : (h.raise e).memBrk.toNat = h.memBrk.toNat + e) : Tag (h.raise e) a s b where
  inHeap := ⟨ht.inHeap.1, ht.inHeap.2.trans (by omega)⟩
  word := ht.word
  aligned := ht.aligned

theorem Block.raise {a s : ℕ} {b : Bool} (hb : Block h a s b)
    (hk : (h.raise e).memBrk.toNat = h.memBrk.toNat + e) : Block (h.raise e) a s b where
  header := hb.header.raise hk
  footer := hb.footer.raise hk
  size := hb.size

theorem segment_raise {c : ℕ} {bs : List Bloque} (hs : Segment h c bs)
    (hk : (h.raise e).memBrk.toNat = h.memBrk.toNat + e) : Segment (h.raise e) c bs := by
  induction bs generalizing c with
  | nil => trivial
  | cons b bs ih => exact ⟨hs.1.raise hk, ih hs.2⟩

end Raise

theorem extendWords {n : ℕ} (h16 : 16 ∣ n) (hn : n < 2 ^ 64) :
    (if UInt64.ofNat (n / 8) % 2 != 0 then (UInt64.ofNat (n / 8) + 1) * WSIZE
      else UInt64.ofNat (n / 8) * WSIZE) = UInt64.ofNat n := by
  have heven : UInt64.ofNat (n / 8) % 2 = 0 := by
    apply UInt64.toNat_inj.mp
    rw [UInt64.toNat_mod, toNat_ofNat_of_lt (by omega)]
    show n / 8 % 2 = 0
    omega
  rw [heven]
  apply UInt64.toNat_inj.mp
  simp only [bne_self_eq_false, Bool.false_eq_true, if_false]
  rw [UInt64.toNat_mul, toNat_ofNat_of_lt (by omega), toNat_ofNat_of_lt (by omega),
    show WSIZE.toNat = 8 from rfl]
  omega

theorem extendHeap_refused {h : Heap} {n : ℕ} (h16 : 16 ∣ n) (hn : n < 2 ^ 64)
    (hsbrk : memSbrk h (UInt64.ofNat n).toUInt32.toInt32 = (SBRK_FAILED, h)) :
    extendHeap h (UInt64.ofNat (n / 8)) = .ok (NULL, h) := by
  unfold extendHeap
  simp only [extendWords h16 hn, hsbrk, if_true]
  rfl

theorem Layout.extendHeap_full {h : Heap} {bs : List Bloque} (hL : Layout h bs) {e : Size}
    (he : e.1 < 2 ^ 31) (hfull : h.memMaxAddr.toNat < h.memBrk.toNat + e.1) :
    extendHeap h (UInt64.ofNat (e.1 / 8)) = .ok (NULL, h) :=
  extendHeap_refused e.2.1 (by omega) (memSbrk_full he hL.arena.user hL.brk_le hfull)

theorem raise_memBrk {h : Heap} {e : ℕ} (huser : h.memMaxAddr.toNat < 2 ^ 63)
    (hroom : h.memBrk.toNat + e ≤ h.memMaxAddr.toNat) :
    (h.raise e).memBrk.toNat = h.memBrk.toNat + e := toNat_ofNat_of_lt (by omega)

section Extend
variable {h : Heap} {c : ℕ} {e : Size} (hc : h.memBrk.toNat = c + 8)
  (hlo : h.memStartBrk.toNat ≤ c) (huser : h.memMaxAddr.toNat < 2 ^ 63)
  (hroom : h.memBrk.toNat + e.1 ≤ h.memMaxAddr.toNat)
include hc hlo huser hroom

/-- The three writes of `extend_heap`: a free block where the last word of the heap was. -/
theorem extended :
    ∃ h2 h3 h4,
      escribirHeader (h.raise e.1) (UInt64.ofNat c) (packWord (UInt64.ofNat e.1) 0) = .ok h2 ∧
      Tag h2 c e.1 false ∧
      escribirHeader h2 (UInt64.ofNat (c + e.1 - 8)) (packWord (UInt64.ofNat e.1) 0) = .ok h3 ∧
      Tag h3 c e.1 false ∧
      escribirHeader h3 (UInt64.ofNat (c + e.1)) (packWord 0 1) = .ok h4 ∧
      Block h4 c e.1 false ∧ Tag h4 (c + e.1) 0 true ∧
      OnlyWithin (h.raise e.1) h4 c (c + e.1 + 8) := by
  have h16 := e.2.1
  have he32 := e.2.2
  let h1 := h.raise e.1
  let h2 := h1.setTag c e.1 false
  let h3 := h2.setTag (c + e.1 - 8) e.1 false
  let h4 := h3.setTag (c + e.1) 0 true
  have hk : h1.memBrk.toNat = h.memBrk.toNat + e.1 := raise_memBrk huser hroom
  have hrange : InHeap h1 c e.1 := ⟨hlo, by rw [hk]; omega⟩
  have hfst : InHeap h1 c 8 := ⟨hrange.1, by have := hrange.2; omega⟩
  have hlst : InHeap h2 (c + e.1 - 8) 8 :=
    setTag_inHeap.mpr ⟨by have := hrange.1; omega, by have := hrange.2; omega⟩
  have hepi : InHeap h3 (c + e.1) 8 := by
    refine setTag_inHeap.mpr (setTag_inHeap.mpr ⟨by have := hrange.1; omega, ?_⟩)
    rw [hk]
    omega
  have htag2 : Tag h2 c e.1 false := tag_setTag hfst h16 (by omega)
  obtain ⟨hb3, hw3⟩ := block_of_setTags (k := h3) (b := false) hrange h16 (by omega) (Or.inl rfl)
  exact ⟨h2, h3, h4, escribirHeader_free hfst h16 (by omega), htag2,
    escribirHeader_free hlst h16 (by omega), hb3.header,
    escribirHeader_alloc (s := 0) hepi (by omega) (by omega), hb3.setTag (by omega),
    tag_setTag hepi (by omega) (by omega),
    (hw3.mono le_rfl (by omega)).trans (.setTag h3 0 true (by omega) le_rfl)⟩

theorem extendHeap_raised (he : e.1 < 2 ^ 31) :
    ∃ h4, extendHeap h (UInt64.ofNat (e.1 / 8)) = (checkHeap h4 (payload c) >>= fun h =>
        coalesce h (payload c) >>= fun r => checkHeap r.2 r.1 >>= fun h => .ok (r.1, h)) ∧
      Block h4 c e.1 false ∧ Tag h4 (c + e.1) 0 true ∧
      OnlyWithin (h.raise e.1) h4 c (c + e.1 + 8) := by
  obtain ⟨h2, h3, h4, hw1, htag2, hw2, htag3, hw3, hown, hepi, hwithin⟩ :=
    extended hc hlo huser hroom
  have he32 := e.2.2
  have hbrk : h.memBrk = payload c := by rw [payload, ← hc, UInt64.ofNat_toNat]
  have hne : ¬ payload c = SBRK_FAILED := by
    intro hs
    have hto : (payload c).toNat = c + 8 := toNat_ofNat_of_lt (by omega)
    rw [hs] at hto
    have : SBRK_FAILED.toNat = 2 ^ 64 - 1 := rfl
    omega
  refine ⟨h4, ?_, hown, hepi, hwithin⟩
  unfold extendHeap
  simp only [extendWords e.2.1 (show e.1 < 2 ^ 64 by omega), memSbrk_room he huser hroom, hbrk,
    hne, if_false, obtenerHeader_payload, hw1, ok_bind,
    htag2.obtenerFooter (show 8 ≤ e.1 by omega), hw2, htag3.proximoBloque, hw3]
  rfl

end Extend

private theorem Layout.extended {h h4 : Heap} {bs : List Bloque} (hL : Layout h bs) {e : Size}
    (hroom : h.memBrk.toNat + e.1 ≤ h.memMaxAddr.toNat)
    (hown : Block h4 (base h + total bs) e.1 false) (hepi : Tag h4 (base h + total bs + e.1) 0 true)
    (hw4 : OnlyWithin (h.raise e.1) h4 (base h + total bs) (base h + total bs + e.1 + 8)) :
    Layout h4 (bs ++ [⟨e, false⟩]) ∧ SameArena h h4 ∧ Keeps h h4 bs := by
  have hbrk := hL.brk
  have hstart : base h = h.memStartBrk.toNat + 24 := rfl
  have hk := raise_memBrk hL.arena.user hroom
  have hbase4 : base h4 = base h := hw4.base_eq
  have hsame : SameArena h h4 := by
    unfold SameArena
    rw [hw4.rest]
    rfl
  have htot : base h + total (bs ++ [⟨e, false⟩]) = base h + total bs + e.1 := by
    simp [Nat.add_assoc]
  have hmem4 : h4.memBrk = (h.raise e.1).memBrk := by rw [hw4.rest]
  refine ⟨⟨?_, ?_, ?_, ?_, ?_, ?_, ?_⟩, hsame, ?_⟩
  · rw [hsame]
    exact ⟨hL.arena.aligned, hL.arena.pos, hL.arena.fits, hL.arena.user⟩
  · rw [hsame]
    exact hL.listp
  · rw [hw4.memStartBrk_eq]
    show Block h4 (h.memStartBrk.toNat + 8) 16 true
    exact hw4.block (hL.prologue.raise hk) (by omega)
  · rw [hbase4]
    exact segment_append.mpr
      ⟨hw4.segment (segment_raise hL.blocks hk) (by omega), hown, trivial⟩
  · rw [hbase4, htot]
    exact hepi
  · rw [hmem4, hbase4, htot, hk]
    omega
  · rw [hmem4, hk, hsame]
    exact hroom
  · intro x s ha y hy1 hy2
    have := ha.bounds
    exact hw4.bytes y (by omega)

/-- With room, the heap grows by one free block, merged with a free last block. -/
theorem Layout.extendHeap_room {h : Heap} {bs : List Bloque} (hL : Layout h bs) {e : Size}
    (he : e.1 < 2 ^ 31) (hroom : h.memBrk.toNat + e.1 ≤ h.memMaxAddr.toNat) :
    ∃ h' pre0 m, extendHeap h (UInt64.ofNat (e.1 / 8)) = .ok (payload (base h + total pre0), h') ∧
      e.1 ≤ m.1 ∧ appendFree e bs = pre0 ++ [⟨m, false⟩] ∧ Layout h' (appendFree e bs) ∧
      SameArena h h' ∧ Keeps h h' bs ∧
      ∀ c x s, Allocated c (appendFree e bs) x s ↔ Allocated c bs x s := by
  have hlo : h.memStartBrk.toNat ≤ base h + total bs := by
    unfold base
    omega
  obtain ⟨h4, hrun4, hown, hepi, hw4⟩ := extendHeap_raised hL.brk hlo hL.arena.user hroom he
  obtain ⟨hL4, hsame4, hk4⟩ := hL.extended hroom hown hepi hw4
  have h16 := hL.base_aligned
  have hbase4 := hsame4.base_eq
  obtain ⟨h', pre0, m, hrun, hm, hfound, hmerged⟩ := hL4.coalesce
  have hrel : release bs e [] = appendFree e bs := by simp [release, absorb]
  have habs : (absorb e []).1 = e := rfl
  rw [hrel] at hmerged
  rw [habs] at hfound
  rw [hbase4] at hrun
  have hbase' := hmerged.bytes.base_eq
  have hown' : Block h' (base h + total pre0) m.1 false := by
    have hseg := hmerged.layout.blocks
    rw [hfound, hbase', hbase4] at hseg
    exact (segment_append.mp hseg).2.1
  have hal4 : ∀ c x s, Allocated c (bs ++ [⟨e, false⟩]) x s ↔ Allocated c bs x s := by
    intro c x s
    simp [allocated_append, allocated_cons]
  refine ⟨h', pre0, m, ?_, hm, hfound, hmerged.layout,
    hsame4.trans hmerged.bytes.sameArena, ?_, fun c x s => ?_⟩
  · have ha1 : 16 ∣ base h + total bs + 8 := by have := dvd_total bs; omega
    have ha2 : 16 ∣ base h + total pre0 + 8 := by have := dvd_total pre0; omega
    rw [hrun4, hown.checkHeap ha1, ok_bind, hrun, ok_bind, hown'.checkHeap ha2, ok_bind]
  · exact hk4.trans hmerged.keeps hbase4 fun x s ha => (hal4 _ x s).mpr ha
  · rw [hmerged.allocated, hal4]

def pointer (h : Heap) : Option ℕ → UInt64
  | some o => payload (base h + o)
  | none => NULL

/-- `adjusted_size` in `mm_malloc`. -/
def adjustedSize (size : UInt64) : UInt64 :=
  if size ≤ DSIZE then 2 * DSIZE else DSIZE * (((size + DSIZE) + (DSIZE - 1)) / DSIZE)

/-- `extendsize` in `mm_malloc`. -/
def extendsize (size : UInt64) : UInt64 := max (adjustedSize size) CHUNKSIZE

theorem mmMalloc_listed {h : Heap} {size : UInt64} (hsize : size ≠ 0)
    (hlisted : h.heapListp ≠ NULL) :
    mmMalloc h size = (findFit h (adjustedSize size) >>= fun r =>
      if r.1 ≠ NULL then
        checkHeap r.2 r.1 >>= fun h => place h r.1 (adjustedSize size) >>= fun h => .ok (r.1, h)
      else
        extendHeap r.2 (extendsize size / WSIZE) >>= fun q =>
          if q.1 = NULL then .ok (NULL, q.2)
          else place q.2 q.1 (adjustedSize size) >>= fun h =>
            checkHeap h q.1 >>= fun h => .ok (q.1, h)) := by
  unfold mmMalloc
  simp only [hsize, if_false, hlisted, pure_bind]
  rfl

/-- The size arithmetic of `mm_malloc` does not wrap on a request of at most `2^64 - 32`. -/
theorem adjustedSize_eq (size : UInt64) (hun : size.toNat + 32 ≤ 2 ^ 64) :
    adjustedSize size = UInt64.ofNat (requestSize size.toNat).1 := by
  have hle : size ≤ DSIZE ↔ size.toNat ≤ 16 := UInt64.le_iff_toNat_le
  unfold adjustedSize requestSize
  split_ifs with h1 h2 h2
  · rfl
  · exact absurd (hle.mp h1) h2
  · exact absurd (hle.mpr h2) h1
  · apply UInt64.toNat_inj.mp
    rw [toNat_ofNat_of_lt (by dsimp only; omega), UInt64.toNat_mul, UInt64.toNat_div,
      UInt64.toNat_add, UInt64.toNat_add, show DSIZE.toNat = 16 from rfl,
      show (DSIZE - 1).toNat = 15 from rfl]
    dsimp only
    omega

theorem unwrapped_of_fits {n : ℕ} (hr : (requestSize n).1 < 2 ^ 31) : n + 32 ≤ 2 ^ 64 := by
  have := le_requestSize n
  omega

theorem requestSize_lt {n : ℕ} (hun : n + 32 ≤ 2 ^ 64) : (requestSize n).1 < 2 ^ 64 := by
  unfold requestSize
  split_ifs <;> dsimp only <;> omega

theorem Size.growth_lt (a : Size) (ha : a.1 < 2 ^ 64) : a.growth.1 < 2 ^ 64 := by
  unfold Size.growth
  split_ifs
  · decide
  · exact ha

theorem max_chunksize (a : Size) (ha : a.1 < 2 ^ 64) :
    max (UInt64.ofNat a.1) CHUNKSIZE = UInt64.ofNat a.growth.1 := by
  have hgt : UInt64.ofNat a.1 > CHUNKSIZE ↔ 4096 < a.1 := by
    rw [gt_iff_lt, UInt64.lt_iff_toNat_lt, toNat_ofNat_of_lt ha]
    rfl
  unfold max Size.growth
  split_ifs with h1 h2 h2
  · exact absurd (hgt.mp h1) (by omega)
  · rfl
  · rfl
  · have hv : a.1 = 4096 := by
      have := mt hgt.mpr h1
      omega
    rw [hv]
    rfl

theorem extendsize_eq (size : UInt64) (hun : size.toNat + 32 ≤ 2 ^ 64) :
    extendsize size = UInt64.ofNat (requestSize size.toNat).growth.1 := by
  rw [extendsize, adjustedSize_eq size hun]
  exact max_chunksize _ (requestSize_lt hun)

theorem div_WSIZE {n : ℕ} (hn : n < 2 ^ 64) :
    UInt64.ofNat n / WSIZE = UInt64.ofNat (n / 8) := by
  apply UInt64.toNat_inj.mp
  rw [UInt64.toNat_div, toNat_ofNat_of_lt hn, toNat_ofNat_of_lt (by omega)]
  rfl

theorem growth_bounds (a : Size) (ha : a.1 < 2 ^ 31) : a.1 ≤ a.growth.1 ∧ a.growth.1 < 2 ^ 31 := by
  unfold Size.growth
  split_ifs
  · exact ⟨by dsimp only; omega, by decide⟩
  · exact ⟨le_rfl, ha⟩

/-- A grant adds one allocated block of at least `a` bytes at the offset `o`, where none was. -/
def Granted (bs bs' : List Bloque) (a : Size) (o : ℕ) : Prop :=
  ∃ t, a.1 ≤ t ∧ (∀ c s, ¬ Allocated c bs (c + o) s) ∧
    ∀ c x s, Allocated c bs' x s ↔ Allocated c bs x s ∨ (x = c + o ∧ s = t)

/-- The result of `mm_malloc` on a heap that holds `bs`. -/
structure Served (h h' : Heap) (bs : List Bloque) (a : Size) : Prop where
  layout : Layout h' (abstractMalloc (room h) a bs).2
  arena : SameArena h h'
  keeps : Keeps h h' bs
  failed : (abstractMalloc (room h) a bs).1 = none → h' = h
  granted : ∀ o, (abstractMalloc (room h) a bs).1 = some o →
    Granted bs (abstractMalloc (room h) a bs).2 a o

theorem abstractMalloc_fit {r o : ℕ} {a : Size} {bs bs' : List Bloque}
    (h : firstFit a bs = some (o, bs')) : abstractMalloc r a bs = (some o, bs') := by
  simp [abstractMalloc, h]

theorem abstractMalloc_grow {r o : ℕ} {a : Size} {bs bs' : List Bloque}
    (hnone : firstFit a bs = none) (hr : total bs + a.growth.1 ≤ r)
    (h : firstFit a (appendFree a.growth bs) = some (o, bs')) :
    abstractMalloc r a bs = (some o, bs') := by
  simp [abstractMalloc, hnone, hr, h]

theorem abstractMalloc_full {r : ℕ} {a : Size} {bs : List Bloque}
    (hnone : firstFit a bs = none) (hr : ¬ total bs + a.growth.1 ≤ r) :
    abstractMalloc r a bs = (none, bs) := by
  simp [abstractMalloc, hnone, hr]

theorem Layout.room_iff {h : Heap} {bs : List Bloque} (hL : Layout h bs) (e : ℕ) :
    total bs + e ≤ room h ↔ h.memBrk.toNat + e ≤ h.memMaxAddr.toNat := by
  have hbrk := hL.brk
  have hle := hL.brk_le
  unfold room
  unfold base at hbrk
  omega

theorem Layout.mmMalloc_unfit {h : Heap} {bs : List Bloque} (hL : Layout h bs) {size : UInt64}
    (hsize : size ≠ 0) (hun : size.toNat + 32 ≤ 2 ^ 64)
    (hff : firstFit (requestSize size.toNat) bs = none) :
    mmMalloc h size = (extendHeap h (UInt64.ofNat ((requestSize size.toNat).growth.1 / 8)) >>=
      fun q => if q.1 = NULL then .ok (NULL, q.2) else
        Malloc.place q.2 q.1 (UInt64.ofNat (requestSize size.toNat).1) >>= fun h =>
          Malloc.checkHeap h q.1 >>= fun h => .ok (q.1, h)) := by
  have ha := requestSize_lt hun
  have hfit := hL.findFit (requestSize size.toNat) ha
  rw [hff] at hfit
  rw [mmMalloc_listed hsize hL.listp_ne_null, extendsize_eq size hun,
    div_WSIZE (Size.growth_lt _ ha), adjustedSize_eq size hun, hfit, ok_bind,
    if_neg (not_not.mpr rfl)]

section Malloc
variable {h : Heap} {bs : List Bloque} (hL : Layout h bs) {size : UInt64} (hsize : size ≠ 0)
  (hr : (requestSize size.toNat).1 < 2 ^ 31)
include hL hsize hr

private theorem Layout.mmMalloc_fit {r : ℕ × List Bloque}
    (hff : firstFit (requestSize size.toNat) bs = some r) :
    ∃ h', mmMalloc h size =
        .ok (pointer h (abstractMalloc (room h) (requestSize size.toNat) bs).1, h') ∧
      Served h h' bs (requestSize size.toNat) := by
  have hlisted := hL.listp_ne_null
  have hadj := adjustedSize_eq size (unwrapped_of_fits hr)
  set a := requestSize size.toNat
  have hfit := hL.findFit a (by omega)
  have h16 := hL.base_aligned
  obtain ⟨o, bs'⟩ := r
  obtain ⟨pre, ⟨s, alloc⟩, post, rfl, rfl, rfl, hfree, ha, -⟩ := firstFit_eq_some hff
  cases hfree
  obtain ⟨h', hplace, hL', hbytes, hkeeps⟩ := hL.place ha
  obtain ⟨t, hat, hal⟩ := allocated_carve (b := ⟨s, false⟩) rfl ha
  rw [hff] at hfit
  have hown : Block h (base h + total pre) s.1 false := (segment_append.mp hL.blocks).2.1
  have hlt' := hown.inHeap.lt
  have hne : payload (base h + total pre) ≠ NULL := payload_ne_null (by omega)
  have ha1 : 16 ∣ base h + total pre + 8 := by have := dvd_total pre; omega
  have habs := abstractMalloc_fit (r := room h) hff
  refine ⟨h', ?_, ⟨by rw [habs]; exact hL', hbytes.sameArena, hkeeps, by simp [habs], ?_⟩⟩
  · rw [mmMalloc_listed hsize hlisted, hadj, hfit, ok_bind, if_pos hne, hown.checkHeap ha1,
      ok_bind, hplace, ok_bind, habs]
    rfl
  · intro o ho
    rw [habs] at ho ⊢
    cases ho
    exact ⟨t, hat, fun c s' => not_allocated_at_free rfl, fun c x s' => hal c pre post x s'⟩

private theorem Layout.mmMalloc_grow (hff : firstFit (requestSize size.toNat) bs = none)
    (hfull : total bs + (requestSize size.toNat).growth.1 ≤ room h) :
    ∃ h', mmMalloc h size =
        .ok (pointer h (abstractMalloc (room h) (requestSize size.toNat) bs).1, h') ∧
      Served h h' bs (requestSize size.toNat) := by
  have hunfit := hL.mmMalloc_unfit hsize (unwrapped_of_fits hr) hff
  set a := requestSize size.toNat
  have h16 := hL.base_aligned
  obtain ⟨hag, hg⟩ := growth_bounds a hr
  obtain ⟨h1, pre, m, hext, hm, hfound, hL1, hsame1, hk1, hal1⟩ :=
    hL.extendHeap_room hg ((hL.room_iff _).mp hfull)
  have hserve := firstFit_appendFree hff hfound (hag.trans hm)
  rw [hfound] at hL1
  have hbase := hsame1.base_eq
  obtain ⟨h', hplace, hL', hbytes, hkeeps⟩ := hL1.place (hag.trans hm)
  obtain ⟨t, hat, hal⟩ := allocated_carve (b := ⟨m, false⟩) rfl (hag.trans hm)
  have habs := abstractMalloc_grow hff hfull hserve
  rw [hbase] at hplace
  have htot1 := hL1.total_lt
  rw [hbase, total_append, total_cons] at htot1
  have hne : payload (base h + total pre) ≠ NULL := payload_ne_null (by omega)
  obtain ⟨u, rest, hu⟩ := carve_eq_cons a ⟨m, false⟩
  have hown : Block h' (base h + total pre) u.1 true := by
    have hseg := hL'.blocks
    rw [hu, List.append_assoc, hbytes.base_eq, hbase] at hseg
    exact (segment_append.mp hseg).2.1
  have ha1 : 16 ∣ base h + total pre + 8 := by have := dvd_total pre; omega
  refine ⟨h', ?_, ⟨by rw [habs]; simpa using hL', hsame1.trans hbytes.sameArena, ?_,
    by simp [habs], ?_⟩⟩
  · rw [hunfit, hext, ok_bind, if_neg hne, hplace, ok_bind, hown.checkHeap ha1, ok_bind, habs]
    rfl
  · refine hk1.trans hkeeps hbase fun x s ha => ?_
    rw [← hfound]
    exact (hal1 _ x s).mpr ha
  · intro o ho
    rw [habs] at ho ⊢
    cases ho
    refine ⟨t, hat, fun c s' => ?_, fun c x s' => ?_⟩
    · rw [← hal1, hfound]
      exact not_allocated_at_free rfl
    · have := hal c pre [] x s'
      rw [List.append_nil] at this
      rw [this, ← hfound, hal1]

private theorem Layout.mmMalloc_full (hff : firstFit (requestSize size.toNat) bs = none)
    (hfull : ¬ total bs + (requestSize size.toNat).growth.1 ≤ room h) :
    ∃ h', mmMalloc h size =
        .ok (pointer h (abstractMalloc (room h) (requestSize size.toNat) bs).1, h') ∧
      Served h h' bs (requestSize size.toNat) := by
  set a := requestSize size.toNat
  obtain ⟨-, hg⟩ := growth_bounds a hr
  have habs := abstractMalloc_full hff hfull
  have hext := hL.extendHeap_full hg (by have := mt (hL.room_iff _).mpr hfull; omega)
  refine ⟨h, ?_, ⟨by rw [habs]; exact hL, .refl h, .refl h bs, fun _ => rfl, by simp [habs]⟩⟩
  rw [hL.mmMalloc_unfit hsize (unwrapped_of_fits hr) hff, hext, habs]
  rfl

/-- `mm_malloc` is first-fit allocation. -/
theorem Layout.mmMalloc :
    ∃ h', mmMalloc h size =
        .ok (pointer h (abstractMalloc (room h) (requestSize size.toNat) bs).1, h') ∧
      Served h h' bs (requestSize size.toNat) := by
  cases hff : firstFit (requestSize size.toNat) bs with
  | some r => exact hL.mmMalloc_fit hsize hr hff
  | none =>
    by_cases hfull : total bs + (requestSize size.toNat).growth.1 ≤ room h
    · exact hL.mmMalloc_grow hsize hr hff hfull
    · exact hL.mmMalloc_full hsize hr hff hfull

end Malloc

theorem Served.offset_lt {h h' : Heap} {bs : List Bloque} {a : Size} (hs : Served h h' bs a) {o : ℕ}
    (ho : (abstractMalloc (room h) a bs).1 = some o) : base h + o + 8 < 2 ^ 64 := by
  obtain ⟨t, hat, -, hal⟩ := hs.granted o ho
  have hnew := (hal (base h) (base h + o) t).mpr (Or.inr ⟨rfl, rfl⟩)
  have hb := hnew.bounds
  have hlt := hs.layout.total_lt
  rw [hs.arena.base_eq] at hlt
  omega

theorem Served.pointer_eq_null {h h' : Heap} {bs : List Bloque} {a : Size}
    (hs : Served h h' bs a) :
    pointer h (abstractMalloc (room h) a bs).1 = NULL ↔ (abstractMalloc (room h) a bs).1 = none := by
  cases ho : (abstractMalloc (room h) a bs).1 with
  | none => simp [pointer]
  | some o => simpa [pointer] using payload_ne_null (hs.offset_lt ho)

theorem Layout.of_payload {h h' : Heap} {bs : List Bloque} (hL : Layout h bs) {x t lo hi : ℕ}
    (ha : Allocated (base h) bs x t) (hw : OnlyWithin h h' lo hi) (hlo : x + 8 ≤ lo)
    (hhi : hi + 8 ≤ x + t) : Layout h' bs := by
  obtain ⟨pre, size, post, rfl, rfl, rfl⟩ := ha
  have hb : Block h (base h + total pre) size.1 true := (segment_append.mp hL.blocks).2.1
  have hb' : Block h' (base h + total pre) size.1 true :=
    ⟨hw.tag hb.header (by omega), hw.tag hb.footer (by omega), hb.size⟩
  have hL2 : Layout h (pre ++ [⟨size, true⟩] ++ post) := by simpa using hL
  have hL3 : Layout h' (pre ++ [⟨size, true⟩] ++ post) :=
    hL2.replace hw (by omega) (by simp; omega) ⟨hb', trivial⟩ rfl
  simpa using hL3

theorem allocated_freed (c : ℕ) (pre post : List Bloque) (s : Size) (x t : ℕ) :
    Allocated c (pre ++ ⟨s, false⟩ :: post) x t ↔
      Allocated c (pre ++ ⟨s, true⟩ :: post) x t ∧ x ≠ c + total pre := by
  rw [allocated_append, allocated_append, allocated_cons, allocated_cons]
  constructor
  · rintro (ha | ha | ha)
    · exact ⟨Or.inl ha, by have := ha.bounds; omega⟩
    · exact absurd ha.1 (by simp)
    · exact ⟨Or.inr (Or.inr ha), by have := ha.bounds; have := s.2.2; dsimp only at *; omega⟩
  · rintro ⟨ha | ⟨-, rfl, -⟩ | ha, hx⟩
    · exact Or.inl ha
    · exact absurd rfl hx
    · exact Or.inr (Or.inr ha)

private theorem Layout.mmFree_split {h : Heap} {pre post : List Bloque} {s : Size}
    (hL : Layout h (pre ++ ⟨s, true⟩ :: post)) :
    ∃ h', mmFree h (payload (base h + total pre)) = .ok h' ∧ Layout h' (release pre s post) ∧
      OnlyBytes h h' ∧ Keeps h h' (release pre s post) ∧
      ∀ c x t, Allocated c (release pre s post) x t ↔
        Allocated c (pre ++ ⟨s, true⟩ :: post) x t ∧ x ≠ c + total pre := by
  have hown : Block h (base h + total pre) s.1 true := (segment_append.mp hL.blocks).2.1
  have hlt := hown.inHeap.lt
  have h16 := hL.base_aligned
  have ha1 : 16 ∣ base h + total pre + 8 := by have := dvd_total pre; omega
  have hne : payload (base h + total pre) ≠ NULL := payload_ne_null (by have := s.2.2; omega)
  have hs32 := s.2.2
  let h1 := h.setTag (base h + total pre) s.1 false
  have hw1 : escribirHeader h (UInt64.ofNat (base h + total pre)) (packWord (UInt64.ofNat s.1) 0) =
      .ok h1 := escribirHeader_free hown.header.inHeap s.2.1 (by omega)
  have htag1 : Tag h1 (base h + total pre) s.1 false :=
    tag_setTag hown.header.inHeap s.2.1 (by omega)
  let h2 := h1.setTag (base h + total pre + s.1 - 8) s.1 false
  have hw2 : escribirHeader h1 (UInt64.ofNat (base h + total pre + s.1 - 8))
      (packWord (UInt64.ofNat s.1) 0) = .ok h2 :=
    escribirHeader_free (setTag_inHeap.mpr hown.footer.inHeap) s.2.1 (by omega)
  obtain ⟨hb2, hw⟩ := block_of_setTags (k := h2) (b := false) hown.inHeap s.2.1 (by omega)
    (Or.inl rfl)
  have hL1 : Layout h (pre ++ [⟨s, true⟩] ++ post) := by simpa using hL
  have hL2 : Layout h2 (pre ++ ⟨s, false⟩ :: post) := by
    have : Layout h2 (pre ++ [⟨s, false⟩] ++ post) :=
      hL1.replace hw le_rfl (by simp) ⟨hb2, trivial⟩ (by simp)
    simpa using this
  have hk2 : Keeps h h2 (pre ++ ⟨s, false⟩ :: post) := by
    have : Keeps h h2 (pre ++ [⟨s, false⟩] ++ post) := hw.keeps le_rfl (by simp) (by simp)
    simpa using this
  obtain ⟨h', pre0, m, hrun, -, -, hmerged⟩ := hL2.coalesce
  have hal : ∀ c x t, Allocated c (release pre s post) x t ↔
      Allocated c (pre ++ ⟨s, true⟩ :: post) x t ∧ x ≠ c + total pre :=
    fun c x t => (hmerged.allocated c x t).trans (allocated_freed c pre post s x t)
  have hbytes2 : OnlyBytes h h2 := hw.rest
  refine ⟨h', ?_, hmerged.layout, hbytes2.trans hmerged.bytes, ?_, hal⟩
  · have hbase2 : base h2 = base h := hbytes2.base_eq
    rw [hbase2] at hrun
    unfold Malloc.mmFree
    simp only [hne, if_false, hL.listp_ne_null, pure_bind, hown.checkHeap ha1, ok_bind,
      obtenerHeader_payload, hown.header.blockSize, hw1,
      htag1.obtenerFooter (show 8 ≤ s.1 by omega), hw2, hrun]
    rfl
  · refine (hk2.trans hmerged.keeps hbytes2.base_eq fun _ _ ha => ha).anti fun x t ha => ?_
    exact (hmerged.allocated _ x t).mp ha

/-- The result of `mm_free` on the block at `x`. -/
structure Freed (h h' : Heap) (bs : List Bloque) (x : ℕ) : Prop where
  layout : Layout h' (abstractFree (x - base h) bs)
  bytes : OnlyBytes h h'
  keeps : Keeps h h' (abstractFree (x - base h) bs)
  allocated : ∀ y t, Allocated (base h) (abstractFree (x - base h) bs) y t ↔
    Allocated (base h) bs y t ∧ y ≠ x

/-- `mm_free` of an allocated block releases it. -/
theorem Layout.mmFree {h : Heap} {bs : List Bloque} (hL : Layout h bs) {x s : ℕ}
    (hx : Allocated (base h) bs x s) :
    ∃ h', mmFree h (payload x) = .ok h' ∧ Freed h h' bs x := by
  obtain ⟨pre, size, post, rfl, rfl, rfl⟩ := hx
  obtain ⟨h', hrun, hL', hbytes, hkeeps, hal⟩ := hL.mmFree_split
  have habs : abstractFree (base h + total pre - base h) (pre ++ ⟨size, true⟩ :: post) =
      release pre size post := by
    rw [Nat.add_sub_cancel_left, abstractFree, locate_total]
  exact ⟨h', hrun, ⟨by rw [habs]; exact hL', hbytes, by rw [habs]; exact hkeeps,
    fun y t => by rw [habs]; exact hal _ y t⟩⟩

/-- What `mm_realloc` leaves of the block at `x` and of the others when it succeeds. -/
structure Moved (h h' : Heap) (bs : List Bloque) (x s o : ℕ) (size : UInt64) : Prop where
  layout : Layout h' (abstractFree (x - base h)
    (abstractMalloc (room h) (requestSize size.toNat) bs).2)
  arena : SameArena h h'
  keeps : ∀ y t, Allocated (base h) bs y t → y ≠ x → ∀ z, y ≤ z → z < y + t →
    h'.bytes z = h.bytes z
  copied : ∀ i < size.toNat, i + 16 < s → h'.bytes (base h + o + 8 + i) = h.bytes (x + 8 + i)
  allocated : ∃ t, (requestSize size.toNat).1 ≤ t ∧
    (∀ u, ¬ Allocated (base h) bs (base h + o) u) ∧
    ∀ y u, Allocated (base h) (abstractFree (x - base h)
      (abstractMalloc (room h) (requestSize size.toNat) bs).2) y u ↔
        (Allocated (base h) bs y u ∧ y ≠ x) ∨ (y = base h + o ∧ u = t)

private theorem copySize_eq {s : ℕ} (size : UInt64) (hs : s < 2 ^ 64) :
    (if UInt64.ofNat s > size then size else UInt64.ofNat s) = UInt64.ofNat (min s size.toNat) := by
  have hgt : UInt64.ofNat s > size ↔ size.toNat < s := by
    rw [gt_iff_lt, UInt64.lt_iff_toNat_lt, toNat_ofNat_of_lt hs]
  split_ifs with hc
  · rw [min_eq_right (hgt.mp hc).le, UInt64.ofNat_toNat]
  · rw [min_eq_left (by have := mt hgt.mpr hc; omega)]

private theorem memcpy_payload {h : Heap} {q x n : ℕ} (hq : InHeap h (q + 8) n)
    (hx : InHeap h (x + 8) n) (hsep : x + n ≤ q ∨ q + n ≤ x) :
    memcpy h (payload q) (payload x) (UInt64.ofNat n) =
      .ok { h with bytes := copyBytes h.bytes (q + 8) (x + 8) n } := by
  have hq' := hq.lt
  have hx' := hx.lt
  have e1 : (payload q).toNat = q + 8 := toNat_ofNat_of_lt (by omega)
  have e2 : (payload x).toNat = x + 8 := toNat_ofNat_of_lt (by omega)
  have e3 : (UInt64.ofNat n).toNat = n := toNat_ofNat_of_lt (by omega)
  rw [memcpy, e1, e2, e3, if_neg (not_not.mpr hq), if_neg (not_not.mpr hx), if_neg (by omega)]

theorem Allocated.payload_aligned {h : Heap} {bs : List Bloque} (hL : Layout h bs) {x s : ℕ}
    (hx : Allocated (base h) bs x s) : 16 ∣ x + 8 := by
  obtain ⟨pre, size, post, rfl, rfl, rfl⟩ := hx
  have h16 := hL.base_aligned
  have := dvd_total pre
  omega

private theorem Layout.memcpy {h : Heap} {bs : List Bloque} (hL : Layout h bs) {x s q t n : ℕ}
    (hx : Allocated (base h) bs x s) (hq : Allocated (base h) bs q t) (hne : x ≠ q) (hns : n ≤ s)
    (hnt : n + 16 ≤ t) :
    ∃ h', Malloc.memcpy h (payload q) (payload x) (UInt64.ofNat n) = .ok h' ∧ OnlyBytes h h' ∧
      OnlyWithin h h' (q + 8) (q + 8 + n) ∧ Layout h' bs ∧
      ∀ i < n, h'.bytes (q + 8 + i) = h.bytes (x + 8 + i) := by
  have hxblock := hx.block hL.blocks
  have hqblock := hq.block hL.blocks
  have hxb := hx.bounds
  have hqb := hq.bounds
  have hbrk := hL.brk
  -- the two blocks do not meet, so neither do the ranges of the copy
  have hsep : x + s ≤ q ∨ q + t ≤ x := (hx.disjoint hq).resolve_left fun h => hne h.1
  let h' : Heap := { h with bytes := copyBytes h.bytes (q + 8) (x + 8) n }
  have hw : OnlyWithin h h' (q + 8) (q + 8 + n) := by
    refine ⟨rfl, fun z hz => ?_⟩
    show copyBytes h.bytes (q + 8) (x + 8) n z = h.bytes z
    rw [copyBytes, if_neg (by omega)]
  refine ⟨h', ?_, rfl, hw, hL.of_payload hq hw le_rfl (by omega), fun i hi => ?_⟩
  · exact memcpy_payload ⟨by have := hqblock.inHeap.1; omega, by omega⟩
      ⟨by have := hxblock.inHeap.1; omega, by omega⟩ (by omega)
  · show copyBytes h.bytes (q + 8) (x + 8) n (q + 8 + i) = _
    rw [copyBytes, if_pos (by omega), Nat.add_sub_cancel_left]

theorem allocated_moved {A B C : ℕ → ℕ → Prop} {x q t : ℕ} (hxq : x ≠ q)
    (hB : ∀ y u, B y u ↔ A y u ∨ (y = q ∧ u = t)) (hC : ∀ y u, C y u ↔ B y u ∧ y ≠ x) (y u : ℕ) :
    C y u ↔ (A y u ∧ y ≠ x) ∨ (y = q ∧ u = t) := by
  rw [hC, hB]
  constructor
  · rintro ⟨ha | ha, hy⟩
    · exact Or.inl ⟨ha, hy⟩
    · exact Or.inr ha
  · rintro (⟨ha, hy⟩ | ⟨rfl, rfl⟩)
    · exact ⟨Or.inl ha, hy⟩
    · exact ⟨Or.inr ⟨rfl, rfl⟩, hxq.symm⟩

section Realloc
variable {h : Heap} {bs : List Bloque} (hL : Layout h bs) {x s : ℕ}
  (hx : Allocated (base h) bs x s) {size : UInt64} (hsize : size ≠ 0)
include hL hx hsize

private theorem Layout.mmRealloc_move {h1 : Heap} {o : ℕ}
    (hrun : Malloc.mmMalloc h size =
      .ok (pointer h (abstractMalloc (room h) (requestSize size.toNat) bs).1, h1))
    (hserved : Served h h1 bs (requestSize size.toNat))
    (habs : (abstractMalloc (room h) (requestSize size.toNat) bs).1 = some o) :
    ∃ h', mmRealloc h (payload x) size = .ok (payload (base h + o), h') ∧
      Moved h h' bs x s o size := by
  have hblock := hx.block hL.blocks
  have hxa := hx.payload_aligned hL
  have hxb := hx.bounds
  have hlt := hL.total_lt
  have hne : payload x ≠ NULL := payload_ne_null (by omega)
  have hbase1 := hserved.arena.base_eq
  have hreq : size.toNat + 16 ≤ (requestSize size.toNat).1 := le_requestSize size.toNat
  set a := requestSize size.toNat
  set bs1 := (abstractMalloc (room h) a bs).2
  obtain ⟨t, hat, hfresh, hal⟩ := hserved.granted o habs
  have hL1 : Layout h1 bs1 := hserved.layout
  have hx1 : Allocated (base h1) bs1 x s := hbase1 ▸ (hal _ x s).mpr (Or.inl hx)
  have hq1 : Allocated (base h1) bs1 (base h + o) t :=
    hbase1 ▸ (hal _ _ t).mpr (Or.inr ⟨rfl, rfl⟩)
  have hxq : x ≠ base h + o := by
    intro heq
    rw [heq] at hx
    exact hfresh _ s hx
  have hqb := hq1.bounds
  have hlt1 := hL1.total_lt
  have hqne : payload (base h + o) ≠ NULL := payload_ne_null (by omega)
  have hold := copySize_eq size (s := s) (by omega)
  have hns : min s size.toNat ≤ s := min_le_left _ _
  have hnsize : min s size.toNat ≤ size.toNat := min_le_right _ _
  have hmin : ∀ i < size.toNat, i < s → i < min s size.toNat := fun i h1 h2 => lt_min h2 h1
  generalize min s size.toNat = n at hold hns hnsize hmin
  obtain ⟨h2, hcopy, hbytes2, hw2, hL2, hcopied⟩ := hL1.memcpy hx1 hq1 hxq hns (by omega)
  have hbase2 : base h2 = base h := hbytes2.base_eq.trans hbase1
  obtain ⟨h', hrun', hfreed⟩ := hL2.mmFree (hbytes2.base_eq ▸ hx1)
  have hal2 : ∀ y u, Allocated (base h) (abstractFree (x - base h) bs1) y u ↔
      (Allocated (base h) bs y u ∧ y ≠ x) ∨ (y = base h + o ∧ u = t) := by
    have hfree := hfreed.allocated
    rw [hbase2] at hfree
    exact allocated_moved hxq (hal _) hfree
  have hkeep2 : ∀ y u, Allocated (base h) (abstractFree (x - base h) bs1) y u → ∀ z, y ≤ z →
      z < y + u → h'.bytes z = h2.bytes z := by
    intro y u ha z hz1 hz2
    apply hfreed.keeps y u _ z hz1 hz2
    rw [hbase2]
    exact ha
  refine ⟨h', ?_, ?_, hserved.arena.trans ?_, ?_, ?_, t, hat, hfresh _, hal2⟩
  · have hcheck := (hq1.block hL1.blocks).checkHeap (hq1.payload_aligned hL1)
    have hsize1 := (hx1.block hL1.blocks).header.blockSize
    unfold Malloc.mmRealloc
    simp only [hsize, if_false, hne, hblock.checkHeap hxa, ok_bind, hrun, habs, pointer, hqne,
      hcheck, obtenerHeader_payload, hsize1, hold, hcopy, hrun']
    rfl
  · have := hfreed.layout
    rwa [hbase2] at this
  · exact hbytes2.sameArena.trans hfreed.bytes.sameArena
  · intro y u ha hy z hz1 hz2
    rw [hkeep2 y u ((hal2 y u).mpr (Or.inl ⟨ha, hy⟩)) z hz1 hz2]
    have hy1 : Allocated (base h1) bs1 y u := hbase1 ▸ (hal _ y u).mpr (Or.inl ha)
    rw [hw2.bytes z ?_, hserved.keeps y u ha z hz1 hz2]
    rcases hy1.disjoint hq1 with ⟨rfl, -⟩ | hd
    · exact absurd ha (hfresh _ u)
    · omega
  · intro i hi his
    have hin : i < n := hmin i hi (by omega)
    rw [hkeep2 (base h + o) t ((hal2 _ t).mpr (Or.inr ⟨rfl, rfl⟩)) _ (by omega) (by omega),
      hcopied i hin]
    exact hserved.keeps x s hx (x + 8 + i) (by omega) (by omega)

/-- `mm_realloc` of an allocated block: nothing on failure, otherwise allocate, copy, free. -/
theorem Layout.mmRealloc (hr : (requestSize size.toNat).1 < 2 ^ 31) :
    ∃ h', mmRealloc h (payload x) size =
        .ok (pointer h (abstractMalloc (room h) (requestSize size.toNat) bs).1, h') ∧
      ((abstractMalloc (room h) (requestSize size.toNat) bs).1 = none → h' = h) ∧
      ∀ o, (abstractMalloc (room h) (requestSize size.toNat) bs).1 = some o →
        Moved h h' bs x s o size := by
  obtain ⟨h1, hrun, hserved⟩ := hL.mmMalloc hsize hr
  cases habs : (abstractMalloc (room h) (requestSize size.toNat) bs).1 with
  | none =>
    obtain rfl : h1 = h := hserved.failed habs
    have hxb := hx.bounds
    have hlt := hL.total_lt
    have hne : payload x ≠ NULL := payload_ne_null (by omega)
    refine ⟨h1, ?_, fun _ => rfl, by simp⟩
    unfold Malloc.mmRealloc
    have hcheck := (hx.block hL.blocks).checkHeap (hx.payload_aligned hL)
    simp only [hsize, if_false, hne, hcheck, ok_bind, hrun, habs, pointer, if_true]
    rfl
  | some o =>
    obtain ⟨h', hrun', hmoved⟩ := hL.mmRealloc_move hx hsize hrun hserved habs
    refine ⟨h', hrun', by simp, fun o' ho' => ?_⟩
    cases ho'
    exact hmoved

end Realloc

end Orga.Malloc
