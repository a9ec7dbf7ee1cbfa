import Orga.Malloc.Tags

/-! `coalesce` and `place` on boundary tags: the block each leaves behind and the range
outside which it writes nothing. Each branch of the source is one lemma. -/
namespace Orga.Malloc

theorem ok_bind {ε α β : Type} (a : α) (f : α → Except ε β) : (Except.ok a >>= f) = f a := rfl

theorem bind_eq_ok {ε α β : Type} {x : Except ε α} {f : α → Except ε β} {b : β}
    (h : (x >>= f) = .ok b) : ∃ a, x = .ok a ∧ f a = .ok b := by
  cases x with
  | error e => exact absurd h (by simp [bind, Except.bind])
  | ok a => exact ⟨a, rfl, h⟩

/-- What `coalesce` finds around the free block of `t` bytes at `p + ps`: the block before
it and the header after it, which belongs to a whole block unless it is allocated. -/
structure Around (h : Heap) (p ps t ns : ℕ) (pa na : Bool) : Prop where
  prev : Block h p ps pa
  own : Block h (p + ps) t false
  nextHeader : Tag h (p + ps + t) ns na
  next : na = false → Block h (p + ps + t) ns false

namespace Around
variable {h : Heap} {p ps t ns : ℕ}

theorem coalesce_none (hx : Around h p ps t ns true true) :
    coalesce h (payload (p + ps)) = .ok (payload (p + ps), h) := by
  obtain ⟨hprev, hown, hnext, -⟩ := hx
  simp only [coalesce, ok_bind, hprev.bloqueAnterior, hprev.obtenerFooter,
    hprev.footer.isAllocated, hown.header.proximoBloque, obtenerHeader_payload,
    hnext.isAllocated, hown.header.blockSize, Bool.and_self, if_true]
  rfl

theorem coalesce_next (hx : Around h p ps t ns true false) :
    ∃ h', coalesce h (payload (p + ps)) = .ok (payload (p + ps), h') ∧
      Block h' (p + ps) (t + ns) false ∧ OnlyWithin h h' (p + ps) (p + ps + (t + ns)) := by
  obtain ⟨hprev, hown, hnext, hblock⟩ := hx
  have hnb := hblock rfl
  have hrange : InHeap h (p + ps) (t + ns) :=
    ⟨hown.inHeap.1, by have := hnb.inHeap.2; omega⟩
  have hlt := hrange.lt
  have h16 : 16 ∣ t + ns := Nat.dvd_add hown.header.aligned hnext.aligned
  have hs : 16 ≤ t + ns := by have := hown.size; omega
  let h1 := h.setTag (p + ps) (t + ns) false
  have hw1 : escribirHeader h (UInt64.ofNat (p + ps)) (packWord (UInt64.ofNat (t + ns)) 0) =
      .ok h1 := escribirHeader_free hown.header.inHeap h16 (by omega)
  have hh1 : Tag h1 (p + ps) (t + ns) false := tag_setTag hown.header.inHeap h16 (by omega)
  let h2 := h1.setTag (p + ps + (t + ns) - 8) (t + ns) false
  have hfoot : InHeap h1 (p + ps + (t + ns) - 8) 8 :=
    ⟨by have := hown.inHeap.1; dsimp [h1]; omega, by have := hrange.2; dsimp [h1]; omega⟩
  have hw2 : escribirHeader h1 (UInt64.ofNat (p + ps + (t + ns) - 8))
      (packWord (UInt64.ofNat (t + ns)) 0) = .ok h2 := escribirHeader_free hfoot h16 (by omega)
  refine ⟨h2, ?_, block_of_setTags hrange h16 hs (Or.inl rfl)⟩
  simp only [coalesce, ok_bind, hprev.bloqueAnterior, hprev.obtenerFooter,
    hprev.footer.isAllocated, hown.header.proximoBloque, obtenerHeader_payload,
    hnext.isAllocated, hown.header.blockSize, hnext.blockSize, ofNat_add_ofNat,
    Bool.and_false, Bool.false_eq_true, if_false, Bool.not_false, Bool.and_self, if_true, hw1,
    hh1.obtenerFooter (show 8 ≤ t + ns by omega), hw2]
  rfl

theorem coalesce_prev (hx : Around h p ps t ns false true) :
    ∃ h', coalesce h (payload (p + ps)) = .ok (payload p, h') ∧
      Block h' p (ps + t) false ∧ OnlyWithin h h' p (p + (ps + t)) := by
  obtain ⟨hprev, hown, hnext, -⟩ := hx
  have hrange : InHeap h p (ps + t) := ⟨hprev.inHeap.1, by have := hown.inHeap.2; omega⟩
  have hlt := hrange.lt
  have hps := hprev.size
  have ht := hown.size
  have h16 : 16 ∣ ps + t := Nat.dvd_add hprev.header.aligned hown.header.aligned
  let h1 := h.setTag (p + (ps + t) - 8) (ps + t) false
  have hw1 : escribirHeader h (UInt64.ofNat (p + ps + t - 8)) (packWord (UInt64.ofNat (ps + t)) 0) =
      .ok h1 := by
    rw [escribirHeader_free hown.footer.inHeap h16 (by omega), Nat.add_assoc]
  -- the footer of the previous block is still read after the first store
  have hprev1 : Block h1 p ps false := hprev.setTag (by omega)
  let h2 := h1.setTag p (ps + t) false
  have hw2 : escribirHeader h1 (UInt64.ofNat p) (packWord (UInt64.ofNat (ps + t)) 0) = .ok h2 :=
    escribirHeader_free hprev1.header.inHeap h16 (by omega)
  have hfoot2 : Tag h2 (p + ps - 8) ps false := hprev1.footer.setTag (by omega)
  refine ⟨h2, ?_, block_of_setTags hrange h16 (by omega) (Or.inr rfl)⟩
  simp only [coalesce, ok_bind, hprev.bloqueAnterior, hprev.obtenerFooter, hown.obtenerFooter,
    hprev.footer.isAllocated, hown.header.proximoBloque, obtenerHeader_payload,
    hnext.isAllocated, hown.header.blockSize, hprev.header.blockSize, ofNat_add_ofNat,
    Nat.add_comm t ps, Bool.and_true, Bool.false_eq_true, if_false, Bool.not_false,
    Bool.and_self, Bool.not_true, if_true, hw1, hprev1.bloqueAnterior, hw2,
    hfoot2.bloqueAnterior (show 8 ≤ ps by omega)]
  rfl

theorem coalesce_both (hx : Around h p ps t ns false false) :
    ∃ h', coalesce h (payload (p + ps)) = .ok (payload p, h') ∧
      Block h' p (ps + t + ns) false ∧ OnlyWithin h h' p (p + (ps + t + ns)) := by
  obtain ⟨hprev, hown, hnext, hblock⟩ := hx
  have hnb := hblock rfl
  have hrange : InHeap h p (ps + t + ns) := ⟨hprev.inHeap.1, by have := hnb.inHeap.2; omega⟩
  have hlt := hrange.lt
  have hps := hprev.size
  have ht := hown.size
  have hns := hnb.size
  have h16 : 16 ∣ ps + t + ns :=
    Nat.dvd_add (Nat.dvd_add hprev.header.aligned hown.header.aligned) hnext.aligned
  have hsum : t + (ps + ns) = ps + t + ns := by omega
  let h1 := h.setTag p (ps + t + ns) false
  have hw1 : escribirHeader h (UInt64.ofNat p) (packWord (UInt64.ofNat (ps + t + ns)) 0) =
      .ok h1 := escribirHeader_free hprev.header.inHeap h16 (by omega)
  have hown1 : Block h1 (p + ps) t false := hown.setTag (by omega)
  have hnb1 : Block h1 (p + ps + t) ns false := hnb.setTag (by omega)
  let h2 := h1.setTag (p + (ps + t + ns) - 8) (ps + t + ns) false
  have hw2 : escribirHeader h1 (UInt64.ofNat (p + ps + t + ns - 8))
      (packWord (UInt64.ofNat (ps + t + ns)) 0) = .ok h2 := by
    rw [escribirHeader_free hnb1.footer.inHeap h16 (by omega),
      show p + ps + t + ns - 8 = p + (ps + t + ns) - 8 by omega]
  have hfoot2 : Tag h2 (p + ps - 8) ps false :=
    (hprev.footer.setTag (by omega)).setTag (by omega)
  refine ⟨h2, ?_, block_of_setTags hrange h16 (by omega) (Or.inl rfl)⟩
  simp only [coalesce, ok_bind, hprev.bloqueAnterior, hprev.obtenerFooter, hnb.obtenerFooter,
    hprev.footer.isAllocated, hown.header.proximoBloque, obtenerHeader_payload,
    hnext.isAllocated, hown.header.blockSize, hprev.header.blockSize, hnb.footer.blockSize,
    ofNat_add_ofNat, hsum, Bool.and_false, Bool.false_eq_true, if_false, Bool.not_false,
    Bool.false_and, hw1, hown1.header.proximoBloque, hnb1.obtenerFooter, hw2,
    hfoot2.bloqueAnterior (show 8 ≤ ps by omega)]
  rfl

end Around

section Place
variable {h : Heap} {c s a : ℕ} (ht : Tag h c s false) (hin : InHeap h c s)
include ht hin

/-- The two writes of `place` on a block that is taken whole; only its header is read. -/
theorem Tag.place_whole (hs : 16 ≤ s) (ha : a ≤ s) (hsplit : s - a < 32) :
    ∃ h', place h (payload c) (UInt64.ofNat a) = .ok h' ∧
      Block h' c s true ∧ OnlyWithin h h' c (c + s) := by
  have hlt := hin.lt
  have h16 := ht.aligned
  have hno : ¬ UInt64.ofNat (s - a) ≥ DSIZE * 2 := by
    have hto := toNat_ofNat_of_lt (show s - a < 2 ^ 64 by omega)
    rw [ge_iff_le, UInt64.le_iff_toNat_le, hto, show (DSIZE * 2).toNat = 32 from rfl]
    omega
  let h1 := h.setTag c s true
  have hw1 : escribirHeader h (UInt64.ofNat c) (packWord (UInt64.ofNat s) 1) = .ok h1 :=
    escribirHeader_alloc ht.inHeap h16 (by omega)
  have hh1 : Tag h1 c s true := tag_setTag ht.inHeap h16 (by omega)
  let h2 := h1.setTag (c + s - 8) s true
  have hfoot : InHeap h (c + s - 8) 8 := ⟨by have := hin.1; omega, by have := hin.2; omega⟩
  have hw2 : escribirHeader h1 (UInt64.ofNat (c + s - 8)) (packWord (UInt64.ofNat s) 1) = .ok h2 :=
    escribirHeader_alloc (setTag_inHeap.mpr hfoot) h16 (by omega)
  refine ⟨h2, ?_, block_of_setTags hin h16 hs (Or.inl rfl)⟩
  simp only [place, ok_bind, obtenerHeader_payload, ht.blockSize, ofNat_sub_ofNat ha, hno,
    if_false, hw1, hh1.obtenerFooter (show 8 ≤ s by omega), hw2]

theorem Tag.place_split (h16 : 16 ∣ a) (ha : 16 ≤ a) (hsplit : a + 32 ≤ s) :
    ∃ h', place h (payload c) (UInt64.ofNat a) = .ok h' ∧
      Block h' c a true ∧ Block h' (c + a) (s - a) false ∧ OnlyWithin h h' c (c + s) := by
  have hlt := hin.lt
  have h16s := ht.aligned
  have h16r : 16 ∣ s - a := Nat.dvd_sub h16s h16
  have hyes : UInt64.ofNat (s - a) ≥ DSIZE * 2 := by
    have hto := toNat_ofNat_of_lt (show s - a < 2 ^ 64 by omega)
    rw [ge_iff_le, UInt64.le_iff_toNat_le, hto, show (DSIZE * 2).toNat = 32 from rfl]
    omega
  have hfst : InHeap h c a := ⟨hin.1, by have := hin.2; omega⟩
  have hsnd : InHeap h (c + a) (s - a) := ⟨by have := hin.1; omega, by have := hin.2; omega⟩
  let h1 := h.setTag c a true
  have hw1 : escribirHeader h (UInt64.ofNat c) (packWord (UInt64.ofNat a) 1) = .ok h1 :=
    escribirHeader_alloc ht.inHeap h16 (by omega)
  have hh1 : Tag h1 c a true := tag_setTag ht.inHeap h16 (by omega)
  let h2 := h1.setTag (c + a - 8) a true
  have hw2 : escribirHeader h1 (UInt64.ofNat (c + a - 8)) (packWord (UInt64.ofNat a) 1) = .ok h2 :=
    escribirHeader_alloc (setTag_inHeap.mpr ⟨by have := hfst.1; omega, by have := hfst.2; omega⟩)
      h16 (by omega)
  obtain ⟨hb2, hwithin2⟩ := block_of_setTags (k := h2) (b := true) hfst h16 ha (Or.inl rfl)
  have hsnd2 : InHeap h2 (c + a) (s - a) := hwithin2.inHeap.mpr hsnd
  let h3 := h2.setTag (c + a) (s - a) false
  have hw3 : escribirHeader h2 (UInt64.ofNat (c + a)) (packWord (UInt64.ofNat (s - a)) 0) =
      .ok h3 :=
    escribirHeader_free ⟨hsnd2.1, by have := hsnd2.2; omega⟩ h16r (by omega)
  have hh3 : Tag h3 (c + a) (s - a) false :=
    tag_setTag ⟨hsnd2.1, by have := hsnd2.2; omega⟩ h16r (by omega)
  let h4 := h3.setTag (c + a + (s - a) - 8) (s - a) false
  have hw4 : escribirHeader h3 (UInt64.ofNat (c + a + (s - a) - 8))
      (packWord (UInt64.ofNat (s - a)) 0) = .ok h4 :=
    escribirHeader_free (setTag_inHeap.mpr ⟨by have := hsnd2.1; omega, by have := hsnd2.2; omega⟩)
      h16r (by omega)
  obtain ⟨hb4, hwithin4⟩ :=
    block_of_setTags (k := h4) (b := false) hsnd2 h16r (by omega) (Or.inl rfl)
  refine ⟨h4, ?_, hwithin4.block hb2 (by omega), hb4,
    (hwithin2.mono le_rfl (by omega)).trans (hwithin4.mono (by omega) (by omega))⟩
  simp only [place, ok_bind, obtenerHeader_payload, ht.blockSize,
    ofNat_sub_ofNat (show a ≤ s by omega), hyes, if_true, UInt64.add_zero, UInt64.sub_zero, hw1,
    hh1.obtenerFooter (show 8 ≤ a by omega), hw2, hb2.header.proximoBloque, hw3,
    hh3.obtenerFooter (show 8 ≤ s - a by omega), hw4]

end Place

end Orga.Malloc
