import Orga.Malloc.Growth

/-! What `mm_malloc` reads. A request of any size, the wrapped ones included, depends on the
headers from the prologue on and on the footer before the epilogue, and on nothing between. -/
namespace Orga.Malloc

def Heap.withOutput (h : Heap) (lines : List Notice) : Heap := { h with output := lines }

theorem sameWords_withOutput (h : Heap) (lines : List Notice) :
    SameWords h (h.withOutput lines) := ⟨rfl, rfl, rfl⟩

/-- `check_heap` prints at most, about a block that need not be aligned or end in its footer. -/
theorem Tag.checkHeap_lines {h : Heap} {c s : ℕ} {b : Bool} (ht : Tag h c s b)
    (hin : InHeap h c s) (hs : 16 ≤ s) :
    ∃ lines, Malloc.checkHeap h (payload c) = .ok (h.withOutput lines) := by
  have hlt := hin.lt
  have hfoot : InHeap h (UInt64.ofNat (c + s - 8)).toNat 8 := by
    rw [toNat_ofNat_of_lt (by omega)]
    exact ⟨by have := hin.1; omega, by have := hin.2; omega⟩
  -- any word will do for the footer
  obtain ⟨w, hw⟩ : ∃ w, Malloc.blockSize h (UInt64.ofNat (c + s - 8)) = .ok w := by
    rw [Malloc.blockSize, Malloc.obtenerWord, if_pos hfoot]
    exact ⟨_, rfl⟩
  obtain ⟨d, hd⟩ : ∃ d, Malloc.isAllocated h (UInt64.ofNat (c + s - 8)) = .ok d := by
    rw [Malloc.isAllocated, Malloc.obtenerWord, if_pos hfoot]
    exact ⟨_, rfl⟩
  unfold Malloc.checkHeap
  simp only [ok_bind, obtenerHeader_payload, ht.blockSize, ht.isAllocated,
    ht.obtenerFooter (show 8 ≤ s by omega), hw, hd]
  exact ⟨_, rfl⟩

theorem Block.checkHeap_lines {h : Heap} {c s : ℕ} {b : Bool} (hb : Block h c s b) :
    ∃ lines, Malloc.checkHeap h (payload c) = .ok (h.withOutput lines) :=
  hb.header.checkHeap_lines hb.inHeap hb.size

theorem dvd_adjustedSize (size : UInt64) : 16 ∣ (adjustedSize size).toNat := by
  unfold adjustedSize
  split_ifs
  · decide
  · rw [UInt64.toNat_mul, show DSIZE.toNat = 16 from rfl]
    omega

theorem extendsize_bounds (size : UInt64) :
    16 ∣ (extendsize size).toNat ∧ 4096 ≤ (extendsize size).toNat ∧
      (adjustedSize size).toNat ≤ (extendsize size).toNat := by
  have h16 := dvd_adjustedSize size
  have hchunk : CHUNKSIZE.toNat = 4096 := rfl
  unfold extendsize max
  split_ifs with hgt
  · rw [gt_iff_lt, UInt64.lt_iff_toNat_lt, hchunk] at hgt
    exact ⟨h16, hgt.le, le_rfl⟩
  · rw [gt_iff_lt, UInt64.lt_iff_toNat_lt] at hgt
    exact ⟨by decide, le_rfl, not_lt.mp hgt⟩

theorem extendsize_words (size : UInt64) :
    extendsize size / WSIZE = UInt64.ofNat ((extendsize size).toNat / 8) := by
  rw [← div_WSIZE (extendsize size).toNat_lt, UInt64.ofNat_toNat]

/-- What a header says. -/
structure Tile where
  size : ℕ
  alloc : Bool

def extent (ts : List Tile) : ℕ := (ts.map Tile.size).sum

@[simp] theorem extent_nil : extent [] = 0 := rfl
@[simp] theorem extent_cons (t : Tile) (ts : List Tile) :
    extent (t :: ts) = t.size + extent ts := rfl
@[simp] theorem extent_append (ts us : List Tile) :
    extent (ts ++ us) = extent ts + extent us := by
  simp [extent]

/-- The headers met from `c` on. -/
def Headers (h : Heap) : ℕ → List Tile → Prop
  | _, [] => True
  | c, t :: ts => Tag h c t.size t.alloc ∧ 16 ≤ t.size ∧ Headers h (c + t.size) ts

theorem headers_append {h : Heap} {c : ℕ} {ts us : List Tile} :
    Headers h c (ts ++ us) ↔ Headers h c ts ∧ Headers h (c + extent ts) us := by
  induction ts generalizing c with
  | nil => simp [Headers]
  | cons t ts ih => simp only [List.cons_append, Headers, ih, extent_cons, Nat.add_assoc, and_assoc]

section Headers
variable {h h' : Heap} {c : ℕ} {ts : List Tile}

theorem Headers.length_le (hh : Headers h c ts) : 16 * ts.length ≤ extent ts := by
  induction ts generalizing c with
  | nil => simp
  | cons t ts ih =>
    have := ih hh.2.2
    have := hh.2.1
    rw [extent_cons, List.length_cons]
    omega

theorem Headers.transfer (hh : Headers h c ts)
    (htag : ∀ x s b, c ≤ x → x + 16 ≤ c + extent ts → Tag h x s b → Tag h' x s b) :
    Headers h' c ts := by
  induction ts generalizing c with
  | nil => trivial
  | cons t ts ih =>
    obtain ⟨htop, hs, hrest⟩ := hh
    rw [extent_cons] at htag
    exact ⟨htag _ _ _ le_rfl (by omega) htop, hs,
      ih hrest fun x s b hlo hhi => htag x s b (by omega) (by omega)⟩

theorem OnlyWithin.headers {lo hi : ℕ} (hw : OnlyWithin h h' lo hi) (hh : Headers h c ts)
    (hd : c + extent ts ≤ lo + 8 ∨ hi ≤ c) : Headers h' c ts :=
  hh.transfer fun _ _ _ _ _ ht => hw.tag ht (by omega)

theorem SameWords.headers (hs : SameWords h h') (hh : Headers h c ts) : Headers h' c ts :=
  hh.transfer fun _ _ _ _ _ ht => hs.tag ht

end Headers

/-- A heap whose list starts with the prologue at `a + 8` and has the headers `ts`, the last of
them repeated before the epilogue, in an arena that ends at `m`. -/
structure Chain (h : Heap) (a m : ℕ) (ts : List Tile) : Prop where
  start : h.memStartBrk.toNat ≤ a
  maxAddr : h.memMaxAddr.toNat = m
  user : m < 2 ^ 63
  small : m ≤ h.memStartBrk.toNat + MAX_HEAP.toNat
  listp : h.heapListp = payload (a + 8)
  headers : Headers h (a + 8) ts
  epilogue : Tag h (a + 8 + extent ts) 0 true
  brk : h.memBrk.toNat = a + 8 + extent ts + 8
  brk_le : h.memBrk.toNat ≤ m
  last : ∃ pre t, ts = pre ++ [t] ∧ Tag h (a + 8 + extent ts - 8) t.size t.alloc

theorem Chain.harmless_iff {h : Heap} {a m : ℕ} {ts : List Tile} (hC : Chain h a m ts) (e : ℕ) :
    Harmless h e ↔ e < 2 ^ 32 ∨ 2 ^ 31 ≤ e % 2 ^ 32 ∨
      m < a + 8 + extent ts + 8 + e % 2 ^ 32 := by
  rw [Harmless, hC.maxAddr, hC.brk]

def Tile.Fits (t : Tile) (size : UInt64) : Prop := t.alloc = false ∧ size.toNat ≤ t.size

section FindFit
variable {h : Heap} {a m : ℕ}

theorem Chain.withOutput {ts : List Tile} (hC : Chain h a m ts) (lines : List Notice) :
    Chain (h.withOutput lines) a m ts where
  start := hC.start
  maxAddr := hC.maxAddr
  user := hC.user
  small := hC.small
  listp := hC.listp
  headers := (sameWords_withOutput h lines).headers hC.headers
  epilogue := (sameWords_withOutput h lines).tag hC.epilogue
  brk := hC.brk
  brk_le := hC.brk_le
  last := by
    obtain ⟨pre, t, hts, ht⟩ := hC.last
    exact ⟨pre, t, hts, (sameWords_withOutput h lines).tag ht⟩

theorem Chain.tile {pre post : List Tile} {t : Tile} (hC : Chain h a m (pre ++ t :: post)) :
    Tag h (a + 8 + extent pre) t.size t.alloc ∧ InHeap h (a + 8 + extent pre) t.size ∧
      16 ≤ t.size := by
  obtain ⟨-, htag, hs, -⟩ := headers_append.mp hC.headers
  have hbrk := hC.brk
  have hstart := hC.start
  rw [extent_append, extent_cons] at hbrk
  exact ⟨htag, ⟨by omega, by omega⟩, hs⟩

theorem Chain.lastFooter {pre : List Tile} {t : Tile} (hC : Chain h a m (pre ++ [t])) :
    Tag h (a + 8 + extent (pre ++ [t]) - 8) t.size t.alloc := by
  obtain ⟨ini, u, hini, hu⟩ := hC.last
  obtain ⟨-, htu⟩ := List.append_inj' hini rfl
  cases htu
  exact hu

theorem Tag.fits_iff {c s : ℕ} {b : Bool} (ht : Tag h c s b) (size : UInt64) :
    (!b && decide (UInt64.ofNat s ≥ size)) = true ↔ Tile.Fits ⟨s, b⟩ size := by
  have hlt := ht.lt
  have hge : UInt64.ofNat s ≥ size ↔ size.toNat ≤ s := by
    rw [ge_iff_le, UInt64.le_iff_toNat_le, toNat_ofNat_of_lt (by omega)]
  rw [Bool.and_eq_true, decide_eq_true_eq, hge, Bool.not_eq_true', Tile.Fits]

theorem ofNat_pos {s : ℕ} (hs : 16 ≤ s) (hlt : s < 2 ^ 64) : UInt64.ofNat s > 0 := by
  rw [gt_iff_lt, UInt64.lt_iff_toNat_lt, toNat_ofNat_of_lt hlt]
  exact lt_of_lt_of_le (by decide) hs

theorem Chain.nextSize {pre post : List Tile} (hC : Chain h a m (pre ++ post)) :
    ∃ w, blockSize h (UInt64.ofNat (a + 8 + extent pre)) = .ok w := by
  cases post with
  | nil =>
    have hepi := hC.epilogue
    rw [List.append_nil] at hepi
    exact ⟨_, hepi.blockSize⟩
  | cons t post => exact ⟨_, hC.tile.1.blockSize⟩

theorem Chain.skip {size w : UInt64} (mid : List Tile) {pre post : List Tile}
    (hC : Chain h a m (pre ++ mid ++ post)) (hmid : ∀ t ∈ mid, ¬ t.Fits size)
    (hw : blockSize h (UInt64.ofNat (a + 8 + extent pre)) = .ok w) (fuel : ℕ) :
    ∃ lines v, findFitLoop size (fuel + mid.length) h (payload (a + 8 + extent pre)) w false =
        findFitLoop size fuel (h.withOutput lines) (payload (a + 8 + extent (pre ++ mid))) v false ∧
      blockSize h (UInt64.ofNat (a + 8 + extent (pre ++ mid))) = .ok v := by
  induction mid generalizing h pre w with
  | nil => exact ⟨h.output, w, by rw [List.append_nil]; rfl, by rw [List.append_nil]; exact hw⟩
  | cons t mid ih =>
    have hC1 : Chain h a m (pre ++ t :: (mid ++ post)) := by simpa using hC
    obtain ⟨htag, hin, hs⟩ := hC1.tile
    have hlt := hin.lt
    obtain ⟨lines, hcheck⟩ := htag.checkHeap_lines hin hs
    have hsame := sameWords_withOutput h lines
    have htag' := hsame.tag htag
    have hC2 : Chain (h.withOutput lines) a m ((pre ++ [t]) ++ mid ++ post) := by
      simpa using hC.withOutput lines
    rw [List.append_assoc] at hC2
    obtain ⟨w', hnext⟩ := hC2.nextSize
    rw [← List.append_assoc] at hC2
    obtain ⟨lines', v, hrun, hv⟩ := ih hC2 (fun u hu => hmid u (List.mem_cons_of_mem _ hu)) hnext
    have hno := mt (htag.fits_iff size).mp (hmid t List.mem_cons_self)
    have hw' : w = UInt64.ofNat t.size := Except.ok.inj (hw.symm.trans htag.blockSize)
    have hc : a + 8 + extent pre + t.size = a + 8 + extent (pre ++ [t]) := by
      simp [Nat.add_assoc]
    have happ : pre ++ [t] ++ mid = pre ++ t :: mid := by simp
    rw [happ] at hrun hv
    refine ⟨lines', v, ?_, hv⟩
    rw [List.length_cons, ← Nat.add_assoc, findFitLoop, hw']
    simp only [ofNat_pos hs (by omega), decide_true, Bool.not_false, Bool.and_self, if_true,
      hcheck, ok_bind, obtenerHeader_payload, htag'.isAllocated, htag'.blockSize, if_neg hno,
      htag'.proximoBloque, hc, hnext]
    exact hrun

theorem Chain.memHeapsize {ts : List Tile} (hC : Chain h a m ts) :
    extent ts + 16 ≤ (Malloc.memHeapsize h).toNat := by
  have hbrk := hC.brk
  have hstart := hC.start
  have hle : h.memStartBrk ≤ h.memBrk := by
    rw [UInt64.le_iff_toNat_le]
    omega
  rw [Malloc.memHeapsize, UInt64.toNat_sub_of_le _ _ hle]
  omega

theorem Chain.findFit_skip {size : UInt64} {pre post : List Tile}
    (hC : Chain h a m (pre ++ post)) (hpre : ∀ t ∈ pre, ¬ t.Fits size) :
    ∃ lines v fuel, findFit h size = (findFitLoop size (fuel + 2) (h.withOutput lines)
        (payload (a + 8 + extent pre)) v false >>= fun r =>
          .ok (if !r.2.1 then NULL else r.1, r.2.2)) ∧
      blockSize h (UInt64.ofNat (a + 8 + extent pre)) = .ok v := by
  have hC0 : Chain h a m ([] ++ pre ++ post) := hC
  have hC1 : Chain h a m ([] ++ (pre ++ post)) := hC
  obtain ⟨w, hw⟩ := hC1.nextSize
  have hlen := (headers_append.mp hC.headers).1.length_le
  have hsize := hC.memHeapsize
  rw [extent_append] at hsize
  obtain ⟨lines, v, hrun, hv⟩ := hC0.skip pre hpre hw
    ((Malloc.memHeapsize h).toNat - pre.length + 2)
  have hfuel : (Malloc.memHeapsize h).toNat - pre.length + 2 + pre.length =
      (Malloc.memHeapsize h).toNat + 2 := by omega
  rw [hfuel] at hrun
  refine ⟨lines, v, (Malloc.memHeapsize h).toNat - pre.length, ?_, hv⟩
  rw [extent_nil, Nat.add_zero] at hw hrun
  rw [Malloc.findFit, hC.listp, obtenerHeader_payload, hw, ok_bind, hrun]
  rfl

theorem Chain.findFit_some {size : UInt64} {pre post : List Tile} {t : Tile}
    (hC : Chain h a m (pre ++ t :: post)) (hpre : ∀ u ∈ pre, ¬ u.Fits size) (ht : t.Fits size) :
    ∃ lines, findFit h size = .ok (payload (a + 8 + extent pre), h.withOutput lines) := by
  obtain ⟨lines, v, fuel, hrun, hv⟩ := hC.findFit_skip hpre
  obtain ⟨htag, hin, hs⟩ := (hC.withOutput lines).tile
  have hlt := hin.lt
  obtain ⟨lines', hcheck⟩ := htag.checkHeap_lines hin hs
  have htag' := (sameWords_withOutput _ lines').tag htag
  have hyes := (htag.fits_iff size).mpr ht
  have hv' : v = UInt64.ofNat t.size := Except.ok.inj (hv.symm.trans hC.tile.1.blockSize)
  refine ⟨lines', ?_⟩
  rw [hrun, findFitLoop, hv']
  simp only [ofNat_pos hs (by omega), decide_true, Bool.not_false, Bool.and_self, if_true, hcheck,
    ok_bind, obtenerHeader_payload, htag'.isAllocated, htag'.blockSize, if_pos hyes, findFitLoop]
  rfl

theorem Chain.findFit_none {size : UInt64} {ts : List Tile} (hC : Chain h a m ts)
    (hno : ∀ t ∈ ts, ¬ t.Fits size) :
    ∃ lines, findFit h size = .ok (NULL, h.withOutput lines) := by
  have hC' : Chain h a m (ts ++ []) := by simpa using hC
  obtain ⟨lines, v, fuel, hrun, hv⟩ := hC'.findFit_skip hno
  have hv' : v = UInt64.ofNat 0 := Except.ok.inj (hv.symm.trans hC.epilogue.blockSize)
  refine ⟨lines, ?_⟩
  rw [hrun, hv', findFitLoop]
  rfl

end FindFit

section Place
variable {h : Heap} {a m : ℕ}

/-- The tiles after `pre` written as others; the footer before them may be lost. -/
theorem Chain.replace {pre old mid post : List Tile} (hC : Chain h a m (pre ++ old ++ post))
    {h' : Heap} (hw : OnlyWithin h h' (a + 8 + extent pre - 8) (a + 8 + extent pre + extent old))
    (hmid : Headers h' (a + 8 + extent pre) mid) (hext : extent mid = extent old)
    (hlast : ∃ ini u, mid = ini ++ [u] ∧
      Tag h' (a + 8 + extent pre + extent old - 8) u.size u.alloc) :
    Chain h' a m (pre ++ mid ++ post) := by
  obtain ⟨hfront, hpost⟩ := headers_append.mp hC.headers
  obtain ⟨hpre, -⟩ := headers_append.mp hfront
  have hmax : h'.memMaxAddr = h.memMaxAddr := by rw [hw.rest]
  have hbrk : h'.memBrk = h.memBrk := by rw [hw.rest]
  have hlistp : h'.heapListp = h.heapListp := by rw [hw.rest]
  have htotal : extent (pre ++ mid ++ post) = extent (pre ++ old ++ post) := by simp [hext]
  have hpos : extent (pre ++ old ++ post) = extent pre + extent old + extent post := by
    simp [Nat.add_assoc]
  rw [extent_append, ← Nat.add_assoc] at hpost
  constructor
  case start =>
    rw [hw.memStartBrk_eq]
    exact hC.start
  case maxAddr =>
    rw [hmax]
    exact hC.maxAddr
  case user => exact hC.user
  case small =>
    rw [hw.memStartBrk_eq]
    exact hC.small
  case listp =>
    rw [hlistp]
    exact hC.listp
  case headers =>
    refine headers_append.mpr ⟨headers_append.mpr ⟨hw.headers hpre (by omega), hmid⟩, ?_⟩
    rw [extent_append, hext, ← Nat.add_assoc]
    exact hw.headers hpost (Or.inr le_rfl)
  case epilogue =>
    rw [htotal]
    exact hw.tag hC.epilogue (by omega)
  case brk =>
    rw [hbrk, htotal]
    exact hC.brk
  case brk_le =>
    rw [hbrk]
    exact hC.brk_le
  case last =>
    rw [htotal]
    rcases List.eq_nil_or_concat' post with rfl | ⟨post', u, rfl⟩
    · obtain ⟨ini, u, rfl, hu⟩ := hlast
      refine ⟨pre ++ ini, u, by simp, ?_⟩
      rw [hpos, extent_nil, Nat.add_zero, ← Nat.add_assoc, ← Nat.add_assoc]
      exact hu
    · -- the last tile lies behind those that are rewritten
      obtain ⟨-, -, hsize, -⟩ := headers_append.mp hpost
      have hassoc : pre ++ old ++ (post' ++ [u]) = pre ++ old ++ post' ++ [u] := by simp
      rw [hassoc] at hC hpos ⊢
      refine ⟨pre ++ mid ++ post', u, by simp, hw.tag hC.lastFooter ?_⟩
      rw [hpos, extent_append, extent_cons, extent_nil]
      omega

/-- What `place` makes of a free tile of `s` bytes for a request of `n`. -/
def placed (s n : ℕ) : List Tile :=
  if s - n < 32 then [⟨s, true⟩] else if n = 0 then [⟨s, false⟩] else [⟨n, true⟩, ⟨s - n, false⟩]

/-- For a request that was rounded to 0 `place` writes an allocated header and a footer of size
0, then a free block over the header. -/
theorem Tag.place_zero {c s : ℕ} (ht : Tag h c s false) (hin : InHeap h c s)
    (hlo : h.memStartBrk.toNat + 8 ≤ c) (hs : 32 ≤ s) :
    ∃ h', place h (payload c) (UInt64.ofNat 0) = .ok h' ∧ Block h' c s false ∧
      OnlyWithin h h' (c - 8) (c + s) := by
  have hlt := hin.lt
  have h16 := ht.aligned
  have hyes : UInt64.ofNat (s - 0) ≥ DSIZE * 2 := by
    rw [ge_iff_le, UInt64.le_iff_toNat_le, toNat_ofNat_of_lt (by omega),
      show (DSIZE * 2).toNat = 32 from rfl]
    omega
  let h1 := h.setTag c 0 true
  have hw1 : escribirHeader h (UInt64.ofNat c) (packWord (UInt64.ofNat 0) 1) = .ok h1 :=
    escribirHeader_alloc ht.inHeap (by omega) (by omega)
  have hh1 : Tag h1 c 0 true := tag_setTag ht.inHeap (by omega) (by omega)
  let h2 := h1.setTag (c - 8) 0 true
  have hw2 : escribirHeader h1 (UInt64.ofNat (c - 8)) (packWord (UInt64.ofNat 0) 1) = .ok h2 :=
    escribirHeader_alloc (setTag_inHeap.mpr ⟨by omega, by have := hin.2; omega⟩) (by omega)
      (by omega)
  have hh2 : Tag h2 c 0 true := hh1.setTag (by omega)
  have hwithin2 : OnlyWithin h h2 (c - 8) (c + s) :=
    (OnlyWithin.setTag h 0 true (by omega) (by omega)).trans
      (.setTag h1 0 true le_rfl (by omega))
  have hin2 : InHeap h2 c s := hwithin2.inHeap.mpr hin
  let h3 := h2.setTag c s false
  have hw3 : escribirHeader h2 (UInt64.ofNat c) (packWord (UInt64.ofNat (s - 0)) 0) = .ok h3 :=
    escribirHeader_free (hwithin2.inHeap.mpr ht.inHeap) h16 (by omega)
  have hh3 : Tag h3 c s false := tag_setTag (hwithin2.inHeap.mpr ht.inHeap) h16 (by omega)
  let h4 := h3.setTag (c + s - 8) s false
  have hw4 : escribirHeader h3 (UInt64.ofNat (c + s - 8)) (packWord (UInt64.ofNat (s - 0)) 0) =
      .ok h4 :=
    escribirHeader_free (setTag_inHeap.mpr ⟨by have := hin2.1; omega, by have := hin2.2; omega⟩)
      h16 (by omega)
  obtain ⟨hb4, hwithin4⟩ :=
    block_of_setTags (k := h4) (b := false) hin2 h16 (by omega) (Or.inl rfl)
  refine ⟨h4, ?_, hb4, hwithin2.trans (hwithin4.mono (by omega) le_rfl)⟩
  simp only [place, ok_bind, obtenerHeader_payload, ht.blockSize, ofNat_sub_ofNat (Nat.zero_le s),
    hyes, if_true, UInt64.add_zero, UInt64.sub_zero, hw1,
    hh1.obtenerFooter_zero (show 8 ≤ c by omega), hw2, hh2.proximoBloque,
    Nat.add_zero, hw3, hh3.obtenerFooter (show 8 ≤ s by omega), hw4]

theorem Chain.place {pre post : List Tile} {s n : ℕ}
    (hC : Chain h a m (pre ++ ⟨s, false⟩ :: post)) (h16 : 16 ∣ n) (hn : n ≤ s) :
    ∃ h', Malloc.place h (payload (a + 8 + extent pre)) (UInt64.ofNat n) = .ok h' ∧
      Chain h' a m (pre ++ placed s n ++ post) := by
  obtain ⟨htag, hin, hs⟩ := hC.tile
  have hC' : Chain h a m (pre ++ [⟨s, false⟩] ++ post) := by simpa using hC
  dsimp only at htag hin hs
  unfold placed
  split_ifs with hwhole hzero
  · obtain ⟨h', hrun, hb, hw⟩ := htag.place_whole hin hs hn hwhole
    exact ⟨h', hrun, hC'.replace (hw.mono (by omega) le_rfl) ⟨hb.header, hs, trivial⟩ (by simp)
      ⟨[], _, rfl, hb.footer⟩⟩
  · subst hzero
    have hstart := hC.start
    obtain ⟨h', hrun, hb, hw⟩ := htag.place_zero hin (by omega) (by omega)
    exact ⟨h', hrun, hC'.replace hw ⟨hb.header, hs, trivial⟩ (by simp) ⟨[], _, rfl, hb.footer⟩⟩
  · obtain ⟨h', hrun, hb, hb', hw⟩ := htag.place_split hin h16 (by omega) (by omega)
    have hfoot := hb'.footer
    rw [show a + 8 + extent pre + n + (s - n) - 8 = a + 8 + extent pre + s - 8 by omega] at hfoot
    exact ⟨h', hrun, hC'.replace (hw.mono (by omega) le_rfl)
      ⟨hb.header, hb.size, hb'.header, hb'.size, trivial⟩ (by simp; omega)
      ⟨[_], _, rfl, hfoot⟩⟩

end Place

/-- The tiles before the last one, and its size, after the heap grew by `e` bytes. -/
def grown (pre : List Tile) (t : Tile) (e : ℕ) : List Tile × ℕ :=
  if t.alloc then (pre ++ [t], e) else (pre, t.size + e)

section Extend
variable {h : Heap} {a m : ℕ} {pre : List Tile} {t : Tile} (hC : Chain h a m (pre ++ [t]))
include hC

theorem Chain.lastBlock : Block h (a + 8 + extent pre) t.size t.alloc := by
  obtain ⟨htag, -, hs⟩ := hC.tile
  have hfoot := hC.lastFooter
  rw [extent_append, extent_cons, extent_nil, Nat.add_zero, ← Nat.add_assoc] at hfoot
  exact ⟨htag, hfoot, hs⟩

variable {e : Size} (hroom : a + 8 + extent (pre ++ [t]) + 8 + e.1 ≤ m)
include hroom

theorem Chain.extended {h4 : Heap} (hown : Block h4 (a + 8 + extent (pre ++ [t])) e.1 false)
    (hepi : Tag h4 (a + 8 + extent (pre ++ [t]) + e.1) 0 true)
    (hw : OnlyWithin (h.raise e.1) h4 (a + 8 + extent (pre ++ [t]))
      (a + 8 + extent (pre ++ [t]) + e.1 + 8)) :
    Chain h4 a m (pre ++ [t] ++ [⟨e.1, false⟩]) := by
  have hbrk := hC.brk
  have hmax := hC.maxAddr
  have hk : (h.raise e.1).memBrk.toNat = h.memBrk.toNat + e.1 :=
    raise_memBrk (by rw [hmax]; exact hC.user) (by omega)
  have hmem : h4.memBrk = (h.raise e.1).memBrk := by rw [hw.rest]
  have hext : extent (pre ++ [t] ++ [⟨e.1, false⟩]) = extent (pre ++ [t]) + e.1 := by
    simp [Nat.add_assoc]
  have hheaders : Headers (h.raise e.1) (a + 8) (pre ++ [t]) :=
    hC.headers.transfer fun _ _ _ _ _ ht => ht.raise hk
  constructor
  case start =>
    rw [hw.memStartBrk_eq]
    exact hC.start
  case maxAddr =>
    rw [hw.rest]
    exact hmax
  case user => exact hC.user
  case small =>
    rw [hw.memStartBrk_eq]
    exact hC.small
  case listp =>
    rw [hw.rest]
    exact hC.listp
  case headers =>
    exact headers_append.mpr ⟨hw.headers hheaders (by omega), hown.header, hown.size, trivial⟩
  case epilogue =>
    rw [hext, ← Nat.add_assoc]
    exact hepi
  case brk =>
    rw [hmem, hk, hext]
    omega
  case brk_le =>
    rw [hmem, hk]
    omega
  case last =>
    refine ⟨pre ++ [t], _, rfl, ?_⟩
    rw [hext, ← Nat.add_assoc]
    exact hown.footer

/-- With room, `extend_heap` adds a free tile or lengthens a free last one. -/
theorem Chain.extendHeap_room (he : e.1 < 2 ^ 31) :
    ∃ h', extendHeap h (UInt64.ofNat (e.1 / 8)) =
        .ok (payload (a + 8 + extent (grown pre t e.1).1), h') ∧
      Chain h' a m ((grown pre t e.1).1 ++ [⟨(grown pre t e.1).2, false⟩]) := by
  have hbrk := hC.brk
  have hmax := hC.maxAddr
  have hstart := hC.start
  obtain ⟨h4, hrun, hown, hepi, hw⟩ := extendHeap_raised hC.brk (by omega)
    (by rw [hmax]; exact hC.user) (by omega) he
  have hC4 := hC.extended hroom hown hepi hw
  obtain ⟨lines, hcheck⟩ := hown.checkHeap_lines
  have hsame := sameWords_withOutput h4 lines
  have hk : (h.raise e.1).memBrk.toNat = h.memBrk.toNat + e.1 :=
    raise_memBrk (by rw [hmax]; exact hC.user) (by omega)
  have hpos : a + 8 + extent (pre ++ [t]) = a + 8 + extent pre + t.size := by
    simp [Nat.add_assoc]
  have hprev : Block h4 (a + 8 + extent pre) t.size t.alloc :=
    hw.block (hC.lastBlock.raise hk) (by omega)
  rw [hrun, hcheck, ok_bind]
  rw [hpos] at hown hepi ⊢
  have hx : Around (h4.withOutput lines) (a + 8 + extent pre) t.size e.1 0 t.alloc true :=
    ⟨hsame.block hprev, hsame.block hown, hsame.tag hepi, by simp⟩
  obtain ⟨s, alloc⟩ := t
  cases alloc with
  | true =>
    obtain ⟨lines', hcheck'⟩ := (hsame.block hown).checkHeap_lines
    refine ⟨_, ?_, (hC4.withOutput lines).withOutput lines'⟩
    rw [hx.coalesce_none, ok_bind, hcheck', ok_bind, grown, if_pos rfl, hpos]
  | false =>
    obtain ⟨h5, hmerge, hb, hw5⟩ := hx.coalesce_prev
    obtain ⟨lines', hcheck'⟩ := hb.checkHeap_lines
    have hC5 : Chain (h4.withOutput lines) a m
        (pre ++ [⟨s, false⟩, ⟨e.1, false⟩] ++ []) := by simpa using hC4.withOutput lines
    have hC6 : Chain h5 a m (pre ++ [⟨s + e.1, false⟩] ++ []) :=
      hC5.replace (hw5.mono (by omega) (by simp)) ⟨hb.header, hb.size, trivial⟩ (by simp)
        ⟨[], _, rfl, by simpa using hb.footer⟩
    rw [List.append_nil] at hC6
    refine ⟨_, ?_, hC6.withOutput lines'⟩
    rw [hmerge, ok_bind, hcheck', ok_bind]
    rfl

end Extend

theorem placed_eq_cons (s n : ℕ) : ∃ t rest, placed s n = t :: rest := by
  unfold placed
  split_ifs
  · exact ⟨_, _, rfl⟩
  · exact ⟨_, _, rfl⟩
  · exact ⟨_, _, rfl⟩

section Malloc
variable {h : Heap} {a m : ℕ} {size : UInt64} (hsize : size ≠ 0)

theorem Chain.listp_ne_null {ts : List Tile} (hC : Chain h a m ts) : h.heapListp ≠ NULL := by
  have hbrk := hC.brk
  have hle := hC.brk_le
  have huser := hC.user
  rw [hC.listp]
  exact payload_ne_null (by omega)

theorem Chain.payload_ne_null {pre post : List Tile} (hC : Chain h a m (pre ++ post)) :
    payload (a + 8 + extent pre) ≠ NULL := by
  have hbrk := hC.brk
  have hle := hC.brk_le
  have huser := hC.user
  rw [extent_append] at hbrk
  exact Malloc.payload_ne_null (by omega)

include hsize

theorem Chain.mmMalloc_fit {pre post : List Tile} {s : ℕ}
    (hC : Chain h a m (pre ++ ⟨s, false⟩ :: post))
    (hpre : ∀ t ∈ pre, ¬ t.Fits (adjustedSize size)) (hfit : (adjustedSize size).toNat ≤ s) :
    ∃ h', mmMalloc h size = .ok (payload (a + 8 + extent pre), h') ∧
      Chain h' a m (pre ++ placed s (adjustedSize size).toNat ++ post) := by
  obtain ⟨lines, hfind⟩ := hC.findFit_some hpre ⟨rfl, hfit⟩
  obtain ⟨htag, hin, hs⟩ := (hC.withOutput lines).tile
  obtain ⟨lines', hcheck⟩ := htag.checkHeap_lines hin hs
  obtain ⟨h', hplace, hC'⟩ :=
    ((hC.withOutput lines).withOutput lines').place (dvd_adjustedSize size) hfit
  rw [UInt64.ofNat_toNat] at hplace
  refine ⟨h', ?_, hC'⟩
  rw [mmMalloc_listed hsize hC.listp_ne_null, hfind, ok_bind, if_pos hC.payload_ne_null, hcheck,
    ok_bind, hplace, ok_bind]

section Unfit
variable {ts : List Tile} (hno : ∀ t ∈ ts, ¬ t.Fits (adjustedSize size))
include hno

theorem Chain.mmMalloc_unfit (hC : Chain h a m ts) :
    ∃ lines, mmMalloc h size = (extendHeap (h.withOutput lines)
        (UInt64.ofNat ((extendsize size).toNat / 8)) >>= fun q =>
          if q.1 = NULL then .ok (NULL, q.2) else Malloc.place q.2 q.1 (adjustedSize size) >>=
            fun h => Malloc.checkHeap h q.1 >>= fun h => .ok (q.1, h)) := by
  obtain ⟨lines, hfind⟩ := hC.findFit_none hno
  refine ⟨lines, ?_⟩
  rw [mmMalloc_listed hsize hC.listp_ne_null, hfind, ok_bind, if_neg (not_not.mpr rfl),
    extendsize_words]

theorem Chain.mmMalloc_refused (hC : Chain h a m ts)
    (hn : 2 ^ 31 ≤ (extendsize size).toNat % 2 ^ 32 ∨
      m < a + 8 + extent ts + 8 + (extendsize size).toNat % 2 ^ 32) :
    ∃ h', mmMalloc h size = .ok (NULL, h') ∧ Chain h' a m ts := by
  obtain ⟨lines, hrun⟩ := hC.mmMalloc_unfit hsize hno
  have hC' := hC.withOutput lines
  have hmax := hC'.maxAddr
  have hsbrk := memSbrk_refused (h := h.withOutput lines) (by rw [hmax]; exact hC.user)
    (by rw [hmax]; exact hC'.brk_le) (by rw [hmax, hC'.brk]; exact hn)
  refine ⟨_, ?_, hC'⟩
  rw [hrun, extendHeap_refused (extendsize_bounds size).1 (extendsize size).toNat_lt hsbrk,
    ok_bind, if_pos rfl]

/-- The break moves by less than the header of the new block says. -/
theorem Chain.mmMalloc_fault (hC : Chain h a m ts) (hlong : 2 ^ 32 ≤ (extendsize size).toNat)
    (hlow : (extendsize size).toNat % 2 ^ 32 < 2 ^ 31)
    (hroom : a + 8 + extent ts + 8 + (extendsize size).toNat % 2 ^ 32 ≤ m) :
    ∃ f, mmMalloc h size = .error f := by
  obtain ⟨lines, hrun⟩ := hC.mmMalloc_unfit hsize hno
  have hC' := hC.withOutput lines
  have hmax := hC'.maxAddr
  have hbrk := hC'.brk
  have hstart := hC'.start
  have hharm : ¬ Harmless (h.withOutput lines) (extendsize size).toNat := by
    rw [hC'.harmless_iff]
    omega
  obtain ⟨p, hfault⟩ := extendHeap_truncated (extendsize_bounds size).1 (extendsize size).toNat_lt
    hharm (by omega) (by rw [hmax]; exact hC'.small) (by rw [hmax]; exact hC.user)
  refine ⟨.access p, ?_⟩
  rw [hrun, hfault]
  rfl

end Unfit

theorem Chain.mmMalloc_grow {pre : List Tile} {t : Tile} (hC : Chain h a m (pre ++ [t]))
    (hno : ∀ u ∈ pre ++ [t], ¬ u.Fits (adjustedSize size)) (he : (extendsize size).toNat < 2 ^ 31)
    (hroom : a + 8 + extent (pre ++ [t]) + 8 + (extendsize size).toNat ≤ m) :
    ∃ h', mmMalloc h size =
        .ok (payload (a + 8 + extent (grown pre t (extendsize size).toNat).1), h') ∧
      Chain h' a m ((grown pre t (extendsize size).toNat).1 ++
        placed (grown pre t (extendsize size).toNat).2 (adjustedSize size).toNat) := by
  obtain ⟨lines, hrun⟩ := hC.mmMalloc_unfit hsize hno
  obtain ⟨h16, hge, hadj⟩ := extendsize_bounds size
  have h32 : 32 ≤ (extendsize size).toNat := by omega
  obtain ⟨h1, hext, hC1⟩ := (hC.withOutput lines).extendHeap_room
    (e := ⟨(extendsize size).toNat, h16, h32⟩) hroom he
  have hle : (extendsize size).toNat ≤ (grown pre t (extendsize size).toNat).2 := by
    unfold grown
    split_ifs
    · exact le_rfl
    · exact Nat.le_add_left _ _
  dsimp only at hext hC1
  generalize (grown pre t (extendsize size).toNat) = g at hext hC1 hle ⊢
  obtain ⟨h2, hplace, hC2⟩ := hC1.place (dvd_adjustedSize size) (hadj.trans hle)
  rw [UInt64.ofNat_toNat] at hplace
  rw [List.append_nil] at hC2
  obtain ⟨u, rest, hu⟩ := placed_eq_cons g.2 (adjustedSize size).toNat
  rw [hu] at hC2 ⊢
  obtain ⟨htag, hin, hs⟩ := hC2.tile
  obtain ⟨lines', hcheck⟩ := htag.checkHeap_lines hin hs
  refine ⟨_, ?_, hC2.withOutput lines'⟩
  rw [hrun, hext, ok_bind, if_neg hC1.payload_ne_null, hplace, ok_bind, hcheck, ok_bind]

end Malloc

/-- What a request returns: an address, leaving the tiles `ts`, or nothing when it faults. -/
def Answers (h : Heap) (a m : ℕ) (size : UInt64) : Option (UInt64 × List Tile) → Prop
  | some (p, ts) => ∃ h', mmMalloc h size = .ok (p, h') ∧ Chain h' a m ts
  | none => ∃ f, mmMalloc h size = .error f

theorem exists_firstFit {size : UInt64} {ts : List Tile} (hts : ¬ ∀ t ∈ ts, ¬ t.Fits size) :
    ∃ pre s post, ts = pre ++ ⟨s, false⟩ :: post ∧ (∀ t ∈ pre, ¬ t.Fits size) ∧
      size.toNat ≤ s := by
  induction ts with
  | nil => simp at hts
  | cons t ts ih =>
    by_cases ht : t.Fits size
    · obtain ⟨s, alloc⟩ := t
      obtain ⟨hfree, hs⟩ := ht
      cases hfree
      exact ⟨[], s, ts, rfl, by simp, hs⟩
    · obtain ⟨pre, s, post, rfl, hpre, hs⟩ := ih fun hall =>
        hts (List.forall_mem_cons.mpr ⟨ht, hall⟩)
      exact ⟨t :: pre, s, post, rfl, List.forall_mem_cons.mpr ⟨ht, hpre⟩, hs⟩

/-- The tiles and the bounds of the arena decide what a request returns. -/
theorem exists_answer (a m : ℕ) (ts : List Tile) (size : UInt64) :
    ∃ r, ∀ h, Chain h a m ts → Answers h a m size r := by
  by_cases hsize : size = 0
  · subst hsize
    exact ⟨some (NULL, ts), fun h hC => ⟨h, rfl, hC⟩⟩
  by_cases hno : ∀ t ∈ ts, ¬ t.Fits (adjustedSize size)
  · by_cases hrefused : 2 ^ 31 ≤ (extendsize size).toNat % 2 ^ 32 ∨
      m < a + 8 + extent ts + 8 + (extendsize size).toNat % 2 ^ 32
    · exact ⟨some (NULL, ts), fun h hC => hC.mmMalloc_refused hsize hno hrefused⟩
    · by_cases he : (extendsize size).toNat < 2 ^ 31
      · rcases List.eq_nil_or_concat' ts with rfl | ⟨pre, t, rfl⟩
        · refine ⟨none, fun h hC => ?_⟩
          obtain ⟨pre, t, hts, -⟩ := hC.last
          simp at hts
        · exact ⟨some (_, _), fun h hC => hC.mmMalloc_grow hsize hno he (by omega)⟩
      · exact ⟨none, fun h hC =>
          hC.mmMalloc_fault hsize hno (by omega) (by omega) (by omega)⟩
  · obtain ⟨pre, s, post, rfl, hpre, hfit⟩ := exists_firstFit hno
    exact ⟨some (_, _), fun h hC => hC.mmMalloc_fit hsize hpre hfit⟩

/-- The addresses that requests return one after another, up to the first that faults. -/
def addresses : Heap → List UInt64 → List UInt64
  | _, [] => []
  | h, size :: sizes =>
    match mmMalloc h size with
    | .ok (p, h') => p :: addresses h' sizes
    | .error _ => []

/-- Two heaps with the same tiles return the same addresses for ever. -/
theorem Chain.addresses_eq {h k : Heap} {a m : ℕ} {ts : List Tile} (hh : Chain h a m ts)
    (hk : Chain k a m ts) (sizes : List UInt64) : addresses h sizes = addresses k sizes := by
  induction sizes generalizing h k ts with
  | nil => rfl
  | cons size sizes ih =>
    obtain ⟨r, hr⟩ := exists_answer a m ts size
    have hrunh := hr h hh
    have hrunk := hr k hk
    cases r with
    | none =>
      obtain ⟨f, hf⟩ := hrunh
      obtain ⟨g, hg⟩ := hrunk
      simp only [addresses, hf, hg]
    | some answer =>
      obtain ⟨p, ts'⟩ := answer
      obtain ⟨h', hrun, hC⟩ := hrunh
      obtain ⟨k', hrun', hC'⟩ := hrunk
      simp only [addresses, hrun, hrun', ih hC hC']

end Orga.Malloc
