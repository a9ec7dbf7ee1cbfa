import Orga.Malloc.Coalescing

/-! Requests of any size. `extend_heap` counts bytes in 64 bits and hands them to
`mem_sbrk` as an `int`, so only the low 32 bits decide how far the break moves. -/
namespace Orga.Malloc
open Relation

/-- The rounding of `size` stays below `2^64`. -/
def Unwrapped (size : UInt64) : Prop := size.toNat + 32 ≤ 2 ^ 64

/-- `mem_sbrk` moves the break by all of `e` bytes, or refuses what its `int` keeps of them. -/
def Harmless (h : Heap) (e : ℕ) : Prop :=
  e < 2 ^ 32 ∨ 2 ^ 31 ≤ e % 2 ^ 32 ∨ h.memMaxAddr.toNat < h.memBrk.toNat + e % 2 ^ 32

instance (size : UInt64) : Decidable (Unwrapped size) := inferInstanceAs (Decidable (_ ≤ _))

instance (h : Heap) (e : ℕ) : Decidable (Harmless h e) :=
  inferInstanceAs (Decidable (_ ∨ _ ∨ _))

/-- A wrapped rounding is smaller than the request. -/
theorem le_adjustedSize_iff {size : UInt64} : size ≤ adjustedSize size ↔ Unwrapped size := by
  constructor
  · intro hle
    by_contra hun
    unfold Unwrapped at hun
    have hlt := size.toNat_lt
    have hbig : ¬ size ≤ DSIZE := by
      rw [UInt64.le_iff_toNat_le, show DSIZE.toNat = 16 from rfl]
      omega
    rw [adjustedSize, if_neg hbig, UInt64.le_iff_toNat_le, UInt64.toNat_mul, UInt64.toNat_div,
      UInt64.toNat_add, UInt64.toNat_add, show DSIZE.toNat = 16 from rfl,
      show (DSIZE - 1).toNat = 15 from rfl] at hle
    omega
  · intro hun
    have hreq := le_requestSize size.toNat
    rw [adjustedSize_eq size hun, UInt64.le_iff_toNat_le, toNat_ofNat_of_lt (requestSize_lt hun)]
    omega

/-- The bytes that a call of `mem_sbrk` asks for are the low 32 bits of the count. -/
theorem toUInt32_eq_mod (n : ℕ) :
    (UInt64.ofNat n).toUInt32 = (UInt64.ofNat (n % 2 ^ 32)).toUInt32 := by
  apply UInt32.toNat_inj.mp
  rw [UInt64.toNat_toUInt32, UInt64.toNat_toUInt32, UInt64.toNat_ofNat', UInt64.toNat_ofNat']
  omega

theorem memSbrk_negative {h : Heap} {n : ℕ} (hn : 2 ^ 31 ≤ n % 2 ^ 32) :
    memSbrk h (UInt64.ofNat n).toUInt32.toInt32 = (SBRK_FAILED, h) := by
  have hneg : (UInt64.ofNat n).toUInt32.toInt32 < 0 := by
    have hto : (UInt64.ofNat n).toUInt32.toBitVec.toNat = n % 2 ^ 32 := by
      rw [UInt32.toNat_toBitVec, toUInt32_eq_mod, UInt64.toNat_toUInt32,
        toNat_ofNat_of_lt (by omega), Nat.mod_mod]
    rw [Int32.lt_iff_toInt_lt, ← Int32.toInt_toBitVec, UInt32.toBitVec_toInt32,
      BitVec.toInt_eq_toNat_cond, hto, if_neg (by omega)]
    show ((n % 2 ^ 32 : ℕ) : ℤ) - 2 ^ 32 < 0
    omega
  rw [memSbrk, if_pos (Or.inl hneg)]

theorem memSbrk_low {h : Heap} {n : ℕ} (huser : h.memMaxAddr.toNat < 2 ^ 63)
    (hn : n % 2 ^ 32 < 2 ^ 31) (hroom : h.memBrk.toNat + n % 2 ^ 32 ≤ h.memMaxAddr.toNat) :
    memSbrk h (UInt64.ofNat n).toUInt32.toInt32 = (h.memBrk, h.raise (n % 2 ^ 32)) := by
  rw [toUInt32_eq_mod]
  exact memSbrk_room hn huser hroom

theorem memSbrk_refused {h : Heap} {n : ℕ} (huser : h.memMaxAddr.toNat < 2 ^ 63)
    (hbrk : h.memBrk.toNat ≤ h.memMaxAddr.toNat)
    (hn : 2 ^ 31 ≤ n % 2 ^ 32 ∨ h.memMaxAddr.toNat < h.memBrk.toNat + n % 2 ^ 32) :
    memSbrk h (UInt64.ofNat n).toUInt32.toInt32 = (SBRK_FAILED, h) := by
  by_cases hneg : 2 ^ 31 ≤ n % 2 ^ 32
  · exact memSbrk_negative hneg
  · rw [toUInt32_eq_mod]
    exact memSbrk_full (by omega) huser hbrk (hn.resolve_left hneg)

theorem Harmless.memSbrk {h : Heap} {n : ℕ} (hh : Harmless h n) (hn : 2 ^ 31 ≤ n)
    (huser : h.memMaxAddr.toNat < 2 ^ 63) (hbrk : h.memBrk.toNat ≤ h.memMaxAddr.toNat) :
    memSbrk h (UInt64.ofNat n).toUInt32.toInt32 = (SBRK_FAILED, h) := by
  unfold Harmless at hh
  exact memSbrk_refused huser hbrk (by omega)

/-- A truncated count puts the footer outside the heap: the header says `n` bytes, the break
moved by fewer. -/
theorem extendHeap_truncated {h : Heap} {n : ℕ} (h16 : 16 ∣ n) (hn : n < 2 ^ 64)
    (hh : ¬ Harmless h n) (hlo : h.memStartBrk.toNat + 8 ≤ h.memBrk.toNat)
    (hmax : h.memMaxAddr.toNat ≤ h.memStartBrk.toNat + MAX_HEAP.toNat)
    (huser : h.memMaxAddr.toNat < 2 ^ 63) :
    ∃ p, extendHeap h (UInt64.ofNat (n / 8)) = .error (.access p) := by
  unfold Harmless at hh
  have h20 : MAX_HEAP.toNat = 20971520 := rfl
  obtain ⟨c, hc⟩ : ∃ c, h.memBrk.toNat = c + 8 := ⟨h.memBrk.toNat - 8, by omega⟩
  have hbrk : h.memBrk = payload c := by rw [payload, ← hc, UInt64.ofNat_toNat]
  let h1 := h.raise (n % 2 ^ 32)
  have hsbrk : memSbrk h (UInt64.ofNat n).toUInt32.toInt32 = (payload c, h1) := by
    rw [← hbrk]
    exact memSbrk_low huser (by omega) (by omega)
  have hk : h1.memBrk.toNat = h.memBrk.toNat + n % 2 ^ 32 := toNat_ofNat_of_lt (by omega)
  have hne : ¬ payload c = SBRK_FAILED := by
    intro hs
    have hto : SBRK_FAILED.toNat = h.memBrk.toNat := by rw [hbrk, hs]
    have : SBRK_FAILED.toNat = 2 ^ 64 - 1 := rfl
    omega
  have hin : InHeap h1 c 8 := ⟨by show h.memStartBrk.toNat ≤ c; omega, by omega⟩
  let h2 := h1.setTag c n false
  have hw1 : escribirHeader h1 (UInt64.ofNat c) (packWord (UInt64.ofNat n) 0) = .ok h2 :=
    escribirHeader_free hin h16 hn
  have htag : Tag h2 c n false := tag_setTag hin h16 hn
  have hout : ¬ InHeap h2 (UInt64.ofNat (c + n - 8)).toNat 8 := by
    rintro ⟨hl, hr⟩
    have hstart : h2.memStartBrk = h.memStartBrk := rfl
    have hend : h2.memBrk.toNat = h.memBrk.toNat + n % 2 ^ 32 := hk
    rw [hstart, UInt64.toNat_ofNat'] at hl
    rw [hend, UInt64.toNat_ofNat'] at hr
    -- an address that wraps around has a count whose `int` is negative
    omega
  have hw2 : escribirHeader h2 (UInt64.ofNat (c + n - 8)) (packWord (UInt64.ofNat n) 0) =
      .error (.access (UInt64.ofNat (c + n - 8))) := by
    rw [escribirHeader, if_neg hout]
  refine ⟨UInt64.ofNat (c + n - 8), ?_⟩
  unfold extendHeap
  simp only [extendWords h16 hn, hsbrk, hne, if_false, obtenerHeader_payload, hw1, ok_bind,
    htag.obtenerFooter (show 8 ≤ n by omega), hw2]
  rfl

def FullArena (h : Heap) : Prop :=
  h.memMaxAddr.toNat = h.memStartBrk.toNat + MAX_HEAP.toNat

instance (h : Heap) : Decidable (FullArena h) := inferInstanceAs (Decidable (_ = _))

theorem SameArena.fullArena {h h' : Heap} (ha : SameArena h h') (hf : FullArena h) :
    FullArena h' := by
  unfold FullArena at *
  rw [ha]
  exact hf

theorem size_le_total {b : Bloque} {bs : List Bloque} (hb : b ∈ bs) : b.size.1 ≤ total bs := by
  obtain ⟨pre, post, rfl⟩ := List.append_of_mem hb
  rw [total_append, total_cons]
  omega

theorem Layout.firstFit_big {h : Heap} {bs : List Bloque} (hL : Layout h bs) (hf : FullArena h)
    {a : Size} (hbig : 2 ^ 31 ≤ a.1) : firstFit a bs = none := by
  refine firstFit_eq_none.mpr fun b hb hfit => ?_
  have hle := size_le_total hb
  have hbrk := hL.brk
  have hmax := hL.brk_le
  have h20 : MAX_HEAP.toNat = 20971520 := rfl
  unfold FullArena at hf
  unfold base at hbrk
  omega

theorem Layout.extendHeap_big {h : Heap} {bs : List Bloque} (hL : Layout h bs) (hf : FullArena h)
    {e : Size} (he : e.1 < 2 ^ 64) (hbig : 2 ^ 31 ≤ e.1) :
    (Harmless h e.1 → extendHeap h (UInt64.ofNat (e.1 / 8)) = .ok (NULL, h)) ∧
      (¬ Harmless h e.1 → ∃ f, extendHeap h (UInt64.ofNat (e.1 / 8)) = .error f) := by
  have hbrk := hL.brk
  unfold base at hbrk
  constructor
  · intro hh
    exact extendHeap_refused e.2.1 he (hh.memSbrk hbig hL.arena.user hL.brk_le)
  · intro hh
    obtain ⟨p, hrun⟩ := extendHeap_truncated e.2.1 he hh (by omega) hf.le hL.arena.user
    exact ⟨_, hrun⟩

section Big
variable {h : Heap} {bs : List Bloque} (hL : Layout h bs) (hf : FullArena h) {size : UInt64}
  (hun : Unwrapped size) (hbig : ¬ Fits size)
include hL hf hun hbig

/-- A request that does not fit the `int` of `mem_sbrk` never gets a block. -/
theorem Layout.mmMalloc_big :
    (Harmless h (requestSize size.toNat).growth.1 → Malloc.mmMalloc h size = .ok (NULL, h)) ∧
      (¬ Harmless h (requestSize size.toNat).growth.1 →
        ∃ f, Malloc.mmMalloc h size = .error f) := by
  have hbig' : 2 ^ 31 ≤ (requestSize size.toNat).1 := not_lt.mp hbig
  have hsize : size ≠ 0 := by
    rintro rfl
    exact absurd hbig (by decide)
  have hgrow : (requestSize size.toNat).1 ≤ (requestSize size.toNat).growth.1 := by
    unfold Size.growth
    split_ifs <;> omega
  have hrun := hL.mmMalloc_unfit hsize hun (hL.firstFit_big hf hbig')
  obtain ⟨hok, herr⟩ := hL.extendHeap_big hf (Size.growth_lt _ (requestSize_lt hun))
    (hbig'.trans hgrow)
  constructor
  · intro hh
    rw [hrun, hok hh]
    rfl
  · intro hh
    obtain ⟨f, hf'⟩ := herr hh
    refine ⟨f, ?_⟩
    rw [hrun, hf']
    rfl

theorem Layout.mmMalloc_big_eq {p : UInt64} {h' : Heap}
    (hrun : Malloc.mmMalloc h size = .ok (p, h')) : p = NULL ∧ h' = h := by
  obtain ⟨hok, herr⟩ := hL.mmMalloc_big hf hun hbig
  by_cases hh : Harmless h (requestSize size.toNat).growth.1
  · cases hrun.symm.trans (hok hh)
    exact ⟨rfl, rfl⟩
  · obtain ⟨f, hf'⟩ := herr hh
    exact absurd (hrun.symm.trans hf') (by simp)

end Big

/-- An action of the driver with a request of any size that is not wrapped. -/
inductive WideStep (s : State) : State → Prop where
  | fits {s' : State} (hstep : Step s s') : WideStep s s'
  | malloc {size p : UInt64} {h' : Heap} (hun : Unwrapped size)
      (hrun : mmMalloc s.heap size = .ok (p, h')) :
      WideStep s ⟨h', if p = NULL then s.live else (p, size) :: s.live⟩
  | realloc {p size q : UInt64} {h' : Heap} (hp : Passable s p) (hun : Unwrapped size)
      (hrun : mmRealloc s.heap p size = .ok (q, h')) :
      WideStep s ⟨h', if size = 0 then forget p s.live else if q = NULL then s.live
        else (q, size) :: forget p s.live⟩

/-- States of such a run on the arena of `mem_init`. -/
def Attainable (s : State) : Prop :=
  ∃ h start r h', 16 ∣ start.toNat ∧ 0 < start.toNat ∧ start.toNat + MAX_HEAP.toNat < 2 ^ 63 ∧
    mmInit (memInit h start) = .ok (r, h') ∧ ReflTransGen WideStep ⟨h', []⟩ s

section Valid
variable {s : State} {bs : List Bloque} (hv : Valid s bs) (hf : FullArena s.heap)
include hv hf

theorem Valid.of_wideStep {s' : State} (hs : WideStep s s') : Step s s' ∨ s' = s := by
  cases hs with
  | fits hstep => exact Or.inl hstep
  | @malloc size p h' hun hrun =>
    by_cases hfit : Fits size
    · exact Or.inl (.malloc hfit hrun)
    · obtain ⟨rfl, rfl⟩ := hv.layout.mmMalloc_big_eq hf hun hfit hrun
      exact Or.inr rfl
  | @realloc p size q h' hp hun hrun =>
    by_cases hfit : Fits size
    · exact Or.inl (.realloc hp hfit hrun)
    right
    have hsize : size ≠ 0 := by
      rintro rfl
      exact absurd hfit (by decide)
    have hnull : q = NULL ∧ h' = s.heap := by
      rcases hp with rfl | ⟨n, hn⟩
      · rw [Malloc.mmRealloc, if_neg hsize, if_pos rfl] at hrun
        exact hv.layout.mmMalloc_big_eq hf hun hfit (by simpa using hrun)
      · rw [hv.mmRealloc_eq hn hsize] at hrun
        obtain ⟨⟨r, h1⟩, hmalloc, hrun⟩ := bind_eq_ok hrun
        obtain ⟨rfl, rfl⟩ := hv.layout.mmMalloc_big_eq hf hun hfit hmalloc
        cases hrun
        exact ⟨rfl, rfl⟩
    obtain ⟨rfl, rfl⟩ := hnull
    rw [if_neg hsize, if_pos rfl]

end Valid

theorem Attainable.reachable {s : State} (hs : Attainable s) :
    Reachable s ∧ FullArena s.heap := by
  obtain ⟨h, start, r, h1, h16, hpos, huser, hinit, hrun⟩ := hs
  have hA := arena_memInit h start h16 hpos huser
  induction hrun with
  | refl =>
    obtain ⟨h', hrun, -, hstart, hmax, -⟩ := hA.mmInit rfl
    cases hinit.symm.trans hrun
    refine ⟨⟨memInit h start, _, h1, hA, hinit, .refl⟩, ?_⟩
    show h1.memMaxAddr.toNat = h1.memStartBrk.toNat + _
    rw [hmax, hstart]
    exact memInit_memMaxAddr h start huser
  | tail _ hstep ih =>
    obtain ⟨hreach, hf⟩ := ih
    obtain ⟨bs, hv⟩ := hreach.valid
    rcases hv.of_wideStep hf hstep with hstep | rfl
    · obtain ⟨cs, -, hsame, -⟩ := hv.step_acts hstep
      exact ⟨hreach.step hstep, hsame.fullArena hf⟩
    · exact ⟨hreach, hf⟩

/-- The break moved by exactly the `e` bytes that were written into both tags of the new free
block, which ends, perhaps merged with a free block before it, at the new epilogue. -/
structure Grown (h h' : Heap) (e : ℕ) (p : UInt64) : Prop where
  written : ∃ h1 h2 h3, memSbrk h (UInt64.ofNat e).toUInt32.toInt32 = (h.memBrk, h1) ∧
    h1.memBrk.toNat = h.memBrk.toNat + e ∧
    escribirHeader h1 (obtenerHeader h.memBrk) (packWord (UInt64.ofNat e) 0) = .ok h2 ∧
    (obtenerFooter h2 h.memBrk >>= fun footer =>
      escribirHeader h2 footer (packWord (UInt64.ofNat e) 0)) = .ok h3
  brk : h'.memBrk.toNat = h.memBrk.toNat + e
  arena : h'.memBrk.toNat ≤ h.memMaxAddr.toNat
  epilogue : obtenerWord h' (h'.memBrk - 8) = .ok 1
  last : ∃ w, blockSize h' (obtenerHeader p) = .ok w ∧
    (obtenerFooter h' p >>= blockSize h') = .ok w ∧ IsFree h' p ∧ e ≤ w.toNat ∧
    p.toNat + w.toNat = h'.memBrk.toNat

/-- `extend_heap` fails without a trace or keeps the break and the tags together. -/
def GrowthSound (h : Heap) (words : UInt64) : Prop :=
  ∃ p h', extendHeap h words = .ok (p, h') ∧
    ((p = NULL ∧ h' = h) ∨ Grown h h' (8 * words.toNat) p)

theorem Layout.last_free {h : Heap} {pre : List Bloque} {m : Size}
    (hL : Layout h (pre ++ [⟨m, false⟩])) :
    ∃ w, blockSize h (obtenerHeader (payload (base h + total pre))) = .ok w ∧
      (obtenerFooter h (payload (base h + total pre)) >>= blockSize h) = .ok w ∧
      IsFree h (payload (base h + total pre)) ∧ w.toNat = m.1 ∧
      (payload (base h + total pre)).toNat + w.toNat = h.memBrk.toNat := by
  have hown : Block h (base h + total pre) m.1 false := (segment_append.mp hL.blocks).2.1
  have hbrk := hL.brk
  have hlt := hL.total_lt
  rw [total_append, total_cons, total_nil, Nat.add_zero] at hbrk hlt
  dsimp only at hbrk hlt
  have hto : (UInt64.ofNat m.1).toNat = m.1 := toNat_ofNat_of_lt (by omega)
  refine ⟨UInt64.ofNat m.1, ?_, ?_, ?_, hto, ?_⟩
  · rw [obtenerHeader_payload, hown.header.blockSize]
  · rw [hown.obtenerFooter, ok_bind, hown.footer.blockSize]
  · rw [IsFree, obtenerHeader_payload, hown.header.isAllocated]
  · rw [payload, toNat_ofNat_of_lt (by omega), hto]
    omega

theorem Layout.grown {h : Heap} {bs : List Bloque} (hL : Layout h bs) {e : Size}
    (he : e.1 < 2 ^ 31) (hroom : h.memBrk.toNat + e.1 ≤ h.memMaxAddr.toNat) :
    ∃ p h', extendHeap h (UInt64.ofNat (e.1 / 8)) = .ok (p, h') ∧ Grown h h' e.1 p := by
  obtain ⟨h', pre0, m, hrun, hm, hfound, hL', hsame, -, -⟩ := hL.extendHeap_room he hroom
  have hlo : h.memStartBrk.toNat ≤ base h + total bs := by
    unfold base
    omega
  obtain ⟨h2, h3, h4, hw1, htag2, hw2, -⟩ := Malloc.extended hL.brk hlo hL.arena.user hroom
  have hbase := hsame.base_eq
  have hbrk := hL.brk
  have hbrk' := hL'.brk
  have huser := hL.arena.user
  have he32 := e.2.2
  have htotal := total_appendFree e bs
  rw [hbase] at hbrk'
  refine ⟨payload (base h + total pre0), h', hrun, ?_⟩
  constructor
  · refine ⟨h.raise e.1, h2, h3, memSbrk_room he huser hroom, toNat_ofNat_of_lt (by omega), ?_, ?_⟩
    · rw [hL.memBrk_eq, obtenerHeader_payload, hw1]
    · rw [hL.memBrk_eq, htag2.obtenerFooter (by omega), ok_bind, hw2]
  · omega
  · have := hL'.brk_le
    rw [hsame] at this
    exact this
  · have hepi := hL'.epilogue
    rw [hL'.memBrk_eq]
    show obtenerWord h' (payload _ - WSIZE) = _
    rw [payload_sub_WSIZE, hepi.obtenerWord]
    rfl
  · rw [hfound] at hL'
    obtain ⟨w, hhead, hfoot, hfree, hw, hend⟩ := hL'.last_free
    rw [hbase] at hhead hfoot hfree hend
    exact ⟨w, hhead, hfoot, hfree, hw ▸ hm, hend⟩

/-- Growth is sound exactly when its conversion to `int` is harmless. -/
theorem Attainable.growthSound_iff {s : State} (hs : Attainable s) {size : UInt64}
    (hun : Unwrapped size) :
    GrowthSound s.heap (extendsize size / WSIZE) ↔ Harmless s.heap (extendsize size).toNat := by
  obtain ⟨hreach, hf⟩ := hs.reachable
  obtain ⟨bs, hv⟩ := hreach.valid
  have hL := hv.layout
  set e := (requestSize size.toNat).growth
  have he : e.1 < 2 ^ 64 := Size.growth_lt _ (requestSize_lt hun)
  have hto : (extendsize size).toNat = e.1 := by
    rw [extendsize_eq size hun, toNat_ofNat_of_lt he]
  have hwords : extendsize size / WSIZE = UInt64.ofNat (e.1 / 8) := by
    rw [extendsize_eq size hun, div_WSIZE he]
  have hbytes : 8 * (UInt64.ofNat (e.1 / 8)).toNat = e.1 := by
    have := e.2.1
    rw [toNat_ofNat_of_lt (by omega)]
    omega
  rw [hwords, hto, GrowthSound, hbytes]
  by_cases hbig : 2 ^ 31 ≤ e.1
  · obtain ⟨hok, herr⟩ := hL.extendHeap_big hf he hbig
    refine ⟨fun ⟨p, h', hrun, _⟩ => ?_, fun hh => ⟨NULL, s.heap, hok hh, Or.inl ⟨rfl, rfl⟩⟩⟩
    by_contra hh
    obtain ⟨f, hf'⟩ := herr hh
    exact absurd (hrun.symm.trans hf') (by simp)
  · refine ⟨fun _ => Or.inl (by omega), fun _ => ?_⟩
    by_cases hroom : s.heap.memBrk.toNat + e.1 ≤ s.heap.memMaxAddr.toNat
    · obtain ⟨p, h', hrun, hgrown⟩ := hL.grown (by omega) hroom
      exact ⟨p, h', hrun, Or.inr hgrown⟩
    · exact ⟨NULL, s.heap, hL.extendHeap_full (by omega) (by omega), Or.inl ⟨rfl, rfl⟩⟩

theorem attainable_start : Attainable (State.start sampleArena) := by
  have hA : Arena sampleArena := arena_memInit _ _ (by decide) (by decide) (by decide)
  obtain ⟨h', hrun, -⟩ := hA.mmInit rfl
  refine ⟨⟨0, 0, 0, NULL, fun _ => 0xAA, []⟩, 65536, _, h', by decide, by decide, by decide, hrun, ?_⟩
  have hstart : State.start sampleArena = ⟨h', []⟩ := by
    have hreset : memResetBrk sampleArena = sampleArena := rfl
    rw [State.start, hreset, hrun]
  rw [hstart]

/-- `2^32` bytes of growth become an `int` of 0. -/
theorem not_growthSound_start :
    Attainable (State.start sampleArena) ∧ Unwrapped 4294967280 ∧
      ¬ GrowthSound (State.start sampleArena).heap (extendsize 4294967280 / WSIZE) := by
  refine ⟨attainable_start, by decide, ?_⟩
  have hfault : (extendHeap (State.start sampleArena).heap (extendsize 4294967280 / WSIZE)).isOk =
      false := by decide +kernel
  rintro ⟨p, h', hrun, -⟩
  rw [hrun] at hfault
  exact absurd hfault (by simp [Except.isOk, Except.toBool])

theorem growthSound_start :
    GrowthSound (State.start sampleArena).heap (extendsize 5000 / WSIZE) ↔
      Harmless (State.start sampleArena).heap (extendsize 5000).toNat :=
  attainable_start.growthSound_iff (by decide)

/-- The rounded size covers the request, and a block that is returned holds it. -/
def RequestSound (h : Heap) (size : UInt64) : Prop :=
  size ≤ adjustedSize size ∧ ∃ p h', mmMalloc h size = .ok (p, h') ∧
    (p = NULL ∨ ∃ w, blockSize h' (obtenerHeader p) = .ok w ∧ size.toNat + 16 ≤ w.toNat)

/-- A request is served soundly exactly when its rounding does not wrap and the growth it may
need is harmless. -/
theorem Attainable.requestSound_iff {s : State} (hs : Attainable s) {size : UInt64} :
    RequestSound s.heap size ↔
      Unwrapped size ∧ Harmless s.heap (extendsize size).toNat := by
  obtain ⟨hreach, hf⟩ := hs.reachable
  obtain ⟨bs, hv⟩ := hreach.valid
  unfold RequestSound
  rw [le_adjustedSize_iff]
  refine and_congr_right fun hun => ?_
  rw [extendsize_eq size hun, toNat_ofNat_of_lt (Size.growth_lt _ (requestSize_lt hun))]
  by_cases hfit : Fits size
  · obtain ⟨-, hg⟩ := growth_bounds _ hfit
    refine ⟨fun _ => Or.inl (by omega), fun _ => ?_⟩
    obtain ⟨p, h', bs', hrun, hv', -⟩ := hv.mmMalloc hfit
    refine ⟨p, h', hrun, ?_⟩
    by_cases hp : p = NULL
    · exact Or.inl hp
    · right
      rw [if_neg hp] at hv'
      obtain ⟨x, t, ha, rfl, ht⟩ := hv'.ledger.backed p size List.mem_cons_self
      have hblock := ha.block hv'.layout.blocks
      have hlt := hblock.header.lt
      refine ⟨UInt64.ofNat t, ?_, ?_⟩
      · rw [obtenerHeader_payload, hblock.header.blockSize]
      · rw [toNat_ofNat_of_lt (by omega)]
        exact ht
  · obtain ⟨hok, herr⟩ := hv.layout.mmMalloc_big hf hun hfit
    refine ⟨fun ⟨p, h', hrun, _⟩ => ?_, fun hh => ⟨NULL, s.heap, hok hh, Or.inl rfl⟩⟩
    by_contra hh
    obtain ⟨f, hf'⟩ := herr hh
    exact absurd (hrun.symm.trans hf') (by simp)

theorem requestSound_start : RequestSound (State.start sampleArena).heap 5000 ↔
    Unwrapped 5000 ∧ Harmless (State.start sampleArena).heap (extendsize 5000).toNat :=
  attainable_start.requestSound_iff

/-- The largest request gets a block of 16 bytes. -/
theorem not_requestSound_start :
    Attainable (State.start sampleArena) ∧
      (mmMalloc (State.start sampleArena).heap 0xFFFFFFFFFFFFFFFF).map Prod.fst = .ok 65568 ∧
      ((mmMalloc (State.start sampleArena).heap 0xFFFFFFFFFFFFFFFF) >>= fun r =>
        blockSize r.2 (obtenerHeader r.1)) = .ok 16 ∧
      ¬ RequestSound (State.start sampleArena).heap 0xFFFFFFFFFFFFFFFF := by
  refine ⟨attainable_start, by decide +kernel, by decide +kernel, ?_⟩
  rintro ⟨hle, -⟩
  exact absurd hle (by decide)

end Orga.Malloc
