import Mathlib.Tactic.Ring
import Orga.Malloc.Mm

/-! Boundary tags. A tag is a heap word that packs a size, a multiple of 16, with the
allocated bit. Each word operation of `mm.c` gets one equation on tags, and addresses
become natural numbers from here on. -/
namespace Orga.Malloc
open Orga.LittleEndian

/-- The word at `a` packs `size` and `alloc`. -/
structure Tag (h : Heap) (a size : ℕ) (alloc : Bool) : Prop where
  inHeap : InHeap h a 8
  word : readLE h.bytes a 8 = size + alloc.toNat
  aligned : 16 ∣ size

/-- The payload pointer of the block whose header is at `c`. -/
def payload (c : ℕ) : UInt64 := UInt64.ofNat (c + 8)

theorem ofNat_add_ofNat (a b : ℕ) : UInt64.ofNat a + UInt64.ofNat b = UInt64.ofNat (a + b) :=
  (UInt64.ofNat_add a b).symm

theorem ofNat_sub_ofNat {a b : ℕ} (h : b ≤ a) :
    UInt64.ofNat a - UInt64.ofNat b = UInt64.ofNat (a - b) := by
  have hab : UInt64.ofNat a = UInt64.ofNat (a - b) + UInt64.ofNat b := by
    rw [ofNat_add_ofNat, Nat.sub_add_cancel h]
  rw [hab, UInt64.add_sub_cancel]

theorem InHeap.lt {h : Heap} {a n : ℕ} (ha : InHeap h a n) : a + n < 2 ^ 64 :=
  lt_of_le_of_lt ha.2 h.memBrk.toNat_lt

theorem toNat_ofNat_of_lt {a : ℕ} (ha : a < 2 ^ 64) : (UInt64.ofNat a).toNat = a := by
  rw [UInt64.toNat_ofNat']
  exact Nat.mod_eq_of_lt ha

private theorem packed_and_mask {s : ℕ} (b : Bool) (hs : 16 ∣ s) (hlt : s < 2 ^ 64) :
    (s + b.toNat) &&& 18446744073709551600 = s := by
  have hb := Bool.toNat_le b
  have hdiv : ((s + b.toNat) &&& 18446744073709551600) / 2 ^ 4 = s / 16 := by
    rw [Nat.and_div_two_pow, show (18446744073709551600 : ℕ) / 2 ^ 4 = 2 ^ 60 - 1 by norm_num,
      Nat.and_two_pow_sub_one_eq_mod]
    omega
  have hmod : ((s + b.toNat) &&& 18446744073709551600) % 2 ^ 4 = 0 := by
    rw [Nat.and_mod_two_pow, show (18446744073709551600 : ℕ) % 2 ^ 4 = 0 by norm_num, Nat.and_zero]
  omega

theorem packWord_toNat {s : ℕ} (b : Bool) (hs : 16 ∣ s) (hlt : s < 2 ^ 64) :
    (packWord (UInt64.ofNat s) (if b then 1 else 0)).toNat = s + b.toNat := by
  have hor : s ||| b.toNat = s + b.toNat := by
    obtain ⟨q, rfl⟩ := hs
    exact (Nat.two_pow_add_eq_or_of_lt (i := 4) (by cases b <;> simp) q).symm
  rw [packWord, UInt64.toNat_or, toNat_ofNat_of_lt hlt]
  cases b <;> exact hor

section Words
variable {h : Heap} {a c s : ℕ} {b : Bool}

theorem Tag.lt (ht : Tag h a s b) : s + b.toNat < 2 ^ 64 := by
  have hw := readLE_lt h.bytes a 8
  rw [ht.word] at hw
  simpa using hw

theorem Tag.obtenerWord (ht : Tag h a s b) :
    obtenerWord h (UInt64.ofNat a) = .ok (UInt64.ofNat (s + b.toNat)) := by
  have ha := ht.inHeap.lt
  rw [Malloc.obtenerWord, toNat_ofNat_of_lt (by omega), if_pos ht.inHeap, ht.word]

theorem Tag.blockSize (ht : Tag h a s b) :
    blockSize h (UInt64.ofNat a) = .ok (UInt64.ofNat s) := by
  have hlt := ht.lt
  have hmask : UInt64.ofNat (s + b.toNat) &&& ~~~0xF = UInt64.ofNat s := by
    apply UInt64.toNat_inj.mp
    rw [UInt64.toNat_and, toNat_ofNat_of_lt hlt, toNat_ofNat_of_lt (by omega)]
    exact packed_and_mask b ht.aligned (by omega)
  rw [Malloc.blockSize, ht.obtenerWord]
  exact congrArg Except.ok hmask

theorem Tag.isAllocated (ht : Tag h a s b) :
    isAllocated h (UInt64.ofNat a) = .ok b := by
  have hlt := ht.lt
  have hbit : UInt64.ofNat (s + b.toNat) &&& 0x1 = UInt64.ofNat b.toNat := by
    apply UInt64.toNat_inj.mp
    have hb := Bool.toNat_le b
    have h16 := ht.aligned
    rw [UInt64.toNat_and, toNat_ofNat_of_lt hlt, toNat_ofNat_of_lt (by omega),
      show (1 : UInt64).toNat = 2 ^ 1 - 1 from rfl, Nat.and_two_pow_sub_one_eq_mod]
    omega
  rw [Malloc.isAllocated, ht.obtenerWord]
  apply congrArg Except.ok
  rw [hbit]
  cases b <;> rfl

@[simp] theorem obtenerHeader_payload (c : ℕ) : obtenerHeader (payload c) = UInt64.ofNat c := by
  rw [obtenerHeader, payload, show WSIZE = UInt64.ofNat 8 from rfl, ofNat_sub_ofNat (by omega)]
  rfl

theorem payload_sub_WSIZE (c : ℕ) : payload c - WSIZE = UInt64.ofNat c := obtenerHeader_payload c

theorem Tag.proximoBloque (ht : Tag h c s b) :
    proximoBloque h (payload c) = .ok (payload (c + s)) := by
  rw [Malloc.proximoBloque, payload_sub_WSIZE, ht.blockSize]
  apply congrArg Except.ok
  rw [payload, ofNat_add_ofNat, payload]
  congr 1
  omega

theorem Tag.obtenerFooter (ht : Tag h c s b) (hs : 8 ≤ s) :
    obtenerFooter h (payload c) = .ok (UInt64.ofNat (c + s - 8)) := by
  rw [Malloc.obtenerFooter, obtenerHeader_payload, ht.blockSize]
  apply congrArg Except.ok
  rw [payload, ofNat_add_ofNat, show DSIZE = UInt64.ofNat 16 from rfl, ofNat_sub_ofNat (by omega)]
  congr 1
  omega

/-- The footer of a size 0 is the word before the header. -/
theorem Tag.obtenerFooter_zero (ht : Tag h c 0 b) (hc : 8 ≤ c) :
    Malloc.obtenerFooter h (payload c) = .ok (UInt64.ofNat (c - 8)) := by
  rw [Malloc.obtenerFooter, obtenerHeader_payload, ht.blockSize]
  apply congrArg Except.ok
  rw [payload, ofNat_add_ofNat, show DSIZE = UInt64.ofNat 16 from rfl, ofNat_sub_ofNat (by omega)]
  congr 1

theorem Tag.bloqueAnterior (ht : Tag h (c + s - 8) s b) (hs : 8 ≤ s) :
    bloqueAnterior h (payload (c + s)) = .ok (payload c) := by
  have hp : payload (c + s) - DSIZE = UInt64.ofNat (c + s - 8) := by
    rw [payload, show DSIZE = UInt64.ofNat 16 from rfl, ofNat_sub_ofNat (by omega)]
    congr 1
  rw [Malloc.bloqueAnterior, hp, ht.blockSize]
  apply congrArg Except.ok
  rw [payload, ofNat_sub_ofNat (by omega), payload]
  congr 1
  omega

end Words

def Heap.setTag (h : Heap) (a size : ℕ) (alloc : Bool) : Heap :=
  { h with bytes := writeLE h.bytes a 8 (size + alloc.toNat) }

section SetTag
variable {h : Heap} {a s : ℕ} {b : Bool}

@[simp] theorem setTag_memStartBrk : (h.setTag a s b).memStartBrk = h.memStartBrk := rfl
@[simp] theorem setTag_memBrk : (h.setTag a s b).memBrk = h.memBrk := rfl
@[simp] theorem setTag_memMaxAddr : (h.setTag a s b).memMaxAddr = h.memMaxAddr := rfl
@[simp] theorem setTag_heapListp : (h.setTag a s b).heapListp = h.heapListp := rfl
@[simp] theorem setTag_output : (h.setTag a s b).output = h.output := rfl
@[simp] theorem setTag_inHeap {x n : ℕ} : InHeap (h.setTag a s b) x n ↔ InHeap h x n := Iff.rfl

theorem setTag_bytes {x : ℕ} (hx : x < a ∨ a + 8 ≤ x) : (h.setTag a s b).bytes x = h.bytes x :=
  writeLE_outside h.bytes _ hx

private theorem escribirHeader_tag (ha : InHeap h a 8) (hs : 16 ∣ s) (hlt : s < 2 ^ 64) :
    escribirHeader h (UInt64.ofNat a) (packWord (UInt64.ofNat s) (if b then 1 else 0)) =
      .ok (h.setTag a s b) := by
  have hal := ha.lt
  rw [escribirHeader, toNat_ofNat_of_lt (by omega), if_pos ha, packWord_toNat b hs hlt]
  rfl

theorem escribirHeader_free (ha : InHeap h a 8) (hs : 16 ∣ s) (hlt : s < 2 ^ 64) :
    escribirHeader h (UInt64.ofNat a) (packWord (UInt64.ofNat s) 0) = .ok (h.setTag a s false) :=
  escribirHeader_tag (b := false) ha hs hlt

theorem escribirHeader_alloc (ha : InHeap h a 8) (hs : 16 ∣ s) (hlt : s < 2 ^ 64) :
    escribirHeader h (UInt64.ofNat a) (packWord (UInt64.ofNat s) 1) = .ok (h.setTag a s true) :=
  escribirHeader_tag (b := true) ha hs hlt

theorem tag_setTag (ha : InHeap h a 8) (hs : 16 ∣ s) (hlt : s < 2 ^ 64) :
    Tag (h.setTag a s b) a s b where
  inHeap := ha
  word := by
    have hb := Bool.toNat_le b
    rw [Heap.setTag, readLE_writeLE]
    exact Nat.mod_eq_of_lt (by norm_num; omega)
  aligned := hs

theorem Tag.setTag {x t : ℕ} {d : Bool} (ht : Tag h x t d) (hd : x + 8 ≤ a ∨ a + 8 ≤ x) :
    Tag (h.setTag a s b) x t d where
  inHeap := ht.inHeap
  word := by
    rw [Heap.setTag, readLE_writeLE_of_disjoint _ _ hd]
    exact ht.word
  aligned := ht.aligned

end SetTag

/-- A block of `s` bytes at `c`: equal tags in its first and last word. -/
structure Block (h : Heap) (c s : ℕ) (alloc : Bool) : Prop where
  header : Tag h c s alloc
  footer : Tag h (c + s - 8) s alloc
  size : 16 ≤ s

namespace Block
variable {h : Heap} {c s : ℕ} {b : Bool}

theorem inHeap (hb : Block h c s b) : InHeap h c s :=
  ⟨hb.header.inHeap.1, by have := hb.footer.inHeap.2; have := hb.size; omega⟩

theorem obtenerFooter (hb : Block h c s b) :
    obtenerFooter h (payload c) = .ok (UInt64.ofNat (c + s - 8)) :=
  hb.header.obtenerFooter (by have := hb.size; omega)

theorem bloqueAnterior (hb : Block h c s b) :
    bloqueAnterior h (payload (c + s)) = .ok (payload c) :=
  hb.footer.bloqueAnterior (by have := hb.size; omega)

theorem setTag (hb : Block h c s b) {a t : ℕ} {d : Bool} (hd : c + s ≤ a ∨ a + 8 ≤ c) :
    Block (h.setTag a t d) c s b where
  header := hb.header.setTag (by have := hb.size; omega)
  footer := hb.footer.setTag (by have := hb.size; omega)
  size := hb.size

end Block

/-- `h'` differs from `h` at most in the bytes of `[lo, hi)`. -/
structure OnlyWithin (h h' : Heap) (lo hi : ℕ) : Prop where
  rest : h' = { h with bytes := h'.bytes }
  bytes : ∀ x, x < lo ∨ hi ≤ x → h'.bytes x = h.bytes x

namespace OnlyWithin
variable {h h' h'' : Heap} {lo hi lo' hi' : ℕ}

theorem refl (h : Heap) (lo hi : ℕ) : OnlyWithin h h lo hi := ⟨rfl, fun _ _ => rfl⟩

theorem trans (h1 : OnlyWithin h h' lo hi) (h2 : OnlyWithin h' h'' lo hi) :
    OnlyWithin h h'' lo hi where
  rest := by rw [h2.rest, h1.rest]
  bytes x hx := (h2.bytes x hx).trans (h1.bytes x hx)

theorem mono (hw : OnlyWithin h h' lo hi) (hlo : lo' ≤ lo) (hhi : hi ≤ hi') :
    OnlyWithin h h' lo' hi' where
  rest := hw.rest
  bytes x hx := hw.bytes x (by omega)

theorem setTag (h : Heap) (s : ℕ) (b : Bool) {a : ℕ} (hlo : lo ≤ a) (hhi : a + 8 ≤ hi) :
    OnlyWithin h (h.setTag a s b) lo hi where
  rest := rfl
  bytes x hx := setTag_bytes (by omega)

theorem inHeap (hw : OnlyWithin h h' lo hi) {x n : ℕ} : InHeap h' x n ↔ InHeap h x n := by
  rw [hw.rest]
  rfl

theorem tag (hw : OnlyWithin h h' lo hi) {x s : ℕ} {b : Bool} (ht : Tag h x s b)
    (hx : x + 8 ≤ lo ∨ hi ≤ x) : Tag h' x s b where
  inHeap := hw.inHeap.mpr ht.inHeap
  word := by
    rw [← ht.word]
    exact readLE_congr fun y h1 h2 => hw.bytes y (by omega)
  aligned := ht.aligned

theorem block (hw : OnlyWithin h h' lo hi) {x s : ℕ} {b : Bool} (hb : Block h x s b)
    (hx : x + s ≤ lo ∨ hi ≤ x) : Block h' x s b where
  header := hw.tag hb.header (by have := hb.size; omega)
  footer := hw.tag hb.footer (by have := hb.size; omega)
  size := hb.size

end OnlyWithin

theorem block_of_setTags {h k : Heap} {c s : ℕ} {b : Bool} (hc : InHeap h c s) (h16 : 16 ∣ s)
    (hs : 16 ≤ s)
    (hk : k = (h.setTag c s b).setTag (c + s - 8) s b ∨
      k = (h.setTag (c + s - 8) s b).setTag c s b) :
    Block k c s b ∧ OnlyWithin h k c (c + s) := by
  have hlt := hc.lt
  obtain ⟨hlo, hhi⟩ := hc
  have hfst : InHeap h c 8 := ⟨hlo, by omega⟩
  have hlst : InHeap h (c + s - 8) 8 := ⟨by omega, by omega⟩
  have hwfst : ∀ h : Heap, OnlyWithin h (h.setTag c s b) c (c + s) :=
    fun h => .setTag h s b le_rfl (by omega)
  have hwlst : ∀ h : Heap, OnlyWithin h (h.setTag (c + s - 8) s b) c (c + s) :=
    fun h => .setTag h s b (by omega) (by omega)
  rcases hk with rfl | rfl
  · have hfst' : Tag (h.setTag c s b) c s b := tag_setTag hfst h16 (by omega)
    exact ⟨⟨hfst'.setTag (by omega), tag_setTag (setTag_inHeap.mpr hlst) h16 (by omega), hs⟩,
      (hwfst h).trans (hwlst _)⟩
  · have hlst' : Tag (h.setTag (c + s - 8) s b) (c + s - 8) s b := tag_setTag hlst h16 (by omega)
    exact ⟨⟨tag_setTag (setTag_inHeap.mpr hfst) h16 (by omega), hlst'.setTag (by omega), hs⟩,
      (hwlst h).trans (hwfst _)⟩

end Orga.Malloc
