import Orga.Malloc.Layout

/-! The internal operations on a laid-out heap. Each result gives the new block list, the
allocated blocks whose bytes are kept and what stays of the rest of the state. -/
namespace Orga.Malloc

/-- A call changed bytes only: no pointer, no bound, no printed line. -/
def OnlyBytes (h h' : Heap) : Prop := h' = { h with bytes := h'.bytes }

theorem OnlyBytes.trans {h h' h'' : Heap} (h1 : OnlyBytes h h') (h2 : OnlyBytes h' h'') :
    OnlyBytes h h'' := by
  unfold OnlyBytes at *
  rw [h2, h1]

theorem OnlyBytes.base_eq {h h' : Heap} (hb : OnlyBytes h h') : base h' = base h := by
  rw [hb]
  rfl

theorem payload_aligned {c : ℕ} (hc : c + 8 < 2 ^ 64) (h16 : 16 ∣ c + 8) :
    (payload c % DSIZE != 0) = false := by
  have hto : (payload c % DSIZE).toNat = (c + 8) % 16 := by
    rw [UInt64.toNat_mod, payload, toNat_ofNat_of_lt hc]
    rfl
  have hz : payload c % DSIZE = 0 := UInt64.toNat_inj.mp (by rw [hto, UInt64.toNat_zero]; omega)
  simp [hz]

theorem Block.checkHeap {h : Heap} {c s : ℕ} {b : Bool} (hb : Block h c s b)
    (h16 : 16 ∣ c + 8) : checkHeap h (payload c) = .ok h := by
  have hlt := hb.inHeap.lt
  have hs := hb.size
  simp only [Malloc.checkHeap, ok_bind, obtenerHeader_payload, hb.header.blockSize,
    hb.obtenerFooter, hb.footer.blockSize, hb.header.isAllocated, hb.footer.isAllocated,
    payload_aligned (by omega) h16, bne_self_eq_false, Bool.false_eq_true, if_false,
    List.append_nil, List.isEmpty_nil, if_true]
  rfl

/-- Free ranges may be cut differently without touching the allocated blocks. -/
theorem allocated_replace {c x s : ℕ} {pre mid mid' post : List Bloque}
    (hfree : ∀ b ∈ mid, b.alloc = false) (hfree' : ∀ b ∈ mid', b.alloc = false)
    (htot : total mid' = total mid) :
    Allocated c (pre ++ mid' ++ post) x s ↔ Allocated c (pre ++ mid ++ post) x s := by
  simp only [allocated_append, not_allocated_of_free hfree, not_allocated_of_free hfree',
    total_append, htot]

theorem Layout.before {h : Heap} {pre rest : List Bloque} (hL : Layout h (pre ++ rest)) :
    ∃ p ps pa, p + ps = base h + total pre ∧ Block h p ps pa ∧
      (pa = true → ∀ e, appendFree e pre = pre ++ [⟨e, false⟩]) ∧
      (pa = false → ∃ pre' sz, pre = pre' ++ [⟨sz, false⟩] ∧ p = base h + total pre' ∧
        ps = sz.1) := by
  rcases List.eq_nil_or_concat' pre with rfl | ⟨pre', ⟨sz, alloc⟩, rfl⟩
  · refine ⟨h.memStartBrk.toNat + 8, 16, true, by simp [base], hL.prologue, fun _ _ => rfl, ?_⟩
    simp
  · have hseg := (segment_append.mp (segment_append.mp hL.blocks).1).2.1
    refine ⟨base h + total pre', sz.1, alloc, by simp [Nat.add_assoc], hseg, ?_, ?_⟩
    · rintro rfl e
      simpa using appendFree_alloc pre' sz e
    · rintro rfl
      exact ⟨pre', sz, by simp, rfl, rfl⟩

theorem Layout.after {h : Heap} {pre post : List Bloque} (hL : Layout h (pre ++ post)) :
    ∃ ns na, Tag h (base h + total pre) ns na ∧
      (na = true → ∀ s, absorb s post = (s, post)) ∧
      (na = false → ∃ sz post', post = ⟨sz, false⟩ :: post' ∧ ns = sz.1 ∧
        Block h (base h + total pre) ns false) := by
  cases post with
  | nil =>
    exact ⟨0, true, by simpa using hL.epilogue, fun _ _ => rfl, by simp⟩
  | cons b post =>
    obtain ⟨sz, alloc⟩ := b
    have hb := (segment_append.mp hL.blocks).2.1
    refine ⟨sz.1, alloc, hb.header, ?_, ?_⟩
    · rintro rfl s
      rfl
    · rintro rfl
      exact ⟨sz, post, rfl, rfl, hb⟩

/-- The outcome of a merge: free blocks of `bs` are joined in `bs'`. -/
structure Merged (h h' : Heap) (bs bs' : List Bloque) : Prop where
  layout : Layout h' bs'
  bytes : OnlyBytes h h'
  keeps : Keeps h h' bs
  allocated : ∀ c x s, Allocated c bs' x s ↔ Allocated c bs x s

private theorem Merged.of_replace {h h' : Heap} {pre mid post : List Bloque} {m : Size}
    (hL : Layout h (pre ++ mid ++ post)) (hfree : ∀ b ∈ mid, b.alloc = false)
    (htot : m.1 = total mid) (hb : Block h' (base h + total pre) m.1 false)
    (hw : OnlyWithin h h' (base h + total pre) (base h + total pre + m.1)) :
    Merged h h' (pre ++ mid ++ post) (pre ++ [⟨m, false⟩] ++ post) where
  layout := hL.replace hw le_rfl (by omega) ⟨hb, trivial⟩ (by simp [htot])
  bytes := hw.rest
  keeps := hw.keeps le_rfl (by omega) hfree
  allocated c x s := allocated_replace hfree (by simp) (by simp [htot])

/-- `coalesce` does what `release` says and returns the merged block. -/
theorem Layout.coalesce {h : Heap} {pre post : List Bloque} {s : Size}
    (hL : Layout h (pre ++ ⟨s, false⟩ :: post)) :
    ∃ h' pre0 m, coalesce h (payload (base h + total pre)) =
        .ok (payload (base h + total pre0), h') ∧ s.1 ≤ m.1 ∧
      appendFree (absorb s post).1 pre = pre0 ++ [⟨m, false⟩] ∧
      Merged h h' (pre ++ ⟨s, false⟩ :: post) (release pre s post) := by
  have hown : Block h (base h + total pre) s.1 false := (segment_append.mp hL.blocks).2.1
  obtain ⟨p, ps, pa, hp, hprev, hpa, hpf⟩ := hL.before
  have hL' : Layout h ((pre ++ [⟨s, false⟩]) ++ post) := by simpa using hL
  obtain ⟨ns, na, hnext, hna, hnf⟩ := hL'.after
  have hnb : na = false → Block h (p + ps + s.1) ns false := by
    intro hn
    obtain ⟨-, -, -, -, hb⟩ := hnf hn
    simpa [hp, Nat.add_assoc] using hb
  have hx : Around h p ps s.1 ns pa na :=
    ⟨hprev, hp ▸ hown, by simpa [hp, Nat.add_assoc] using hnext, hnb⟩
  rw [← hp]
  cases pa <;> cases na
  · obtain ⟨pre', sz, rfl, rfl, rfl⟩ := hpf rfl
    obtain ⟨nz, post', rfl, rfl, -⟩ := hnf rfl
    obtain ⟨h', hrun, hb, hw⟩ := hx.coalesce_both
    refine ⟨h', pre', sz + (s + nz), hrun, by simp; omega, by simp [absorb, appendFree_free], ?_⟩
    have hsum : (sz + (s + nz)).1 = sz.1 + s.1 + nz.1 := by simp [Nat.add_assoc]
    have hL2 : Layout h (pre' ++ [⟨sz, false⟩, ⟨s, false⟩, ⟨nz, false⟩] ++ post') := by
      simpa using hL
    have hm := Merged.of_replace (m := sz + (s + nz)) hL2 (by simp) (by simp)
      (hsum ▸ hb) (hsum ▸ hw)
    simpa [release, absorb, appendFree_free] using hm
  · obtain ⟨pre', sz, rfl, rfl, rfl⟩ := hpf rfl
    obtain ⟨h', hrun, hb, hw⟩ := hx.coalesce_prev
    refine ⟨h', pre', sz + s, hrun, by simp, by simp [hna rfl, appendFree_free], ?_⟩
    have hL2 : Layout h (pre' ++ [⟨sz, false⟩, ⟨s, false⟩] ++ post) := by simpa using hL
    have hm := Merged.of_replace (m := sz + s) hL2 (by simp) (by simp) hb hw
    simpa [release, hna rfl, appendFree_free] using hm
  · obtain ⟨nz, post', rfl, rfl, -⟩ := hnf rfl
    obtain ⟨h', hrun, hb, hw⟩ := hx.coalesce_next
    rw [hp] at hb hw hrun ⊢
    refine ⟨h', pre, s + nz, hrun, by simp, by simp [absorb, hpa rfl], ?_⟩
    have hL2 : Layout h (pre ++ [⟨s, false⟩, ⟨nz, false⟩] ++ post') := by simpa using hL
    have hm := Merged.of_replace (m := s + nz) hL2 (by simp) (by simp) hb hw
    simpa [release, absorb, hpa rfl] using hm
  · rw [hp]
    refine ⟨h, pre, s, hp ▸ hx.coalesce_none, le_rfl, by simp [hna rfl, hpa rfl], ?_⟩
    have hL2 : Layout h (pre ++ [⟨s, false⟩] ++ post) := by simpa using hL
    have hm := Merged.of_replace (m := s) hL2 (by simp) (by simp) hown (.refl h _ _)
    simpa [release, hna rfl, hpa rfl] using hm

theorem Layout.place {h : Heap} {pre post : List Bloque} {s a : Size}
    (hL : Layout h (pre ++ ⟨s, false⟩ :: post)) (ha : a.1 ≤ s.1) :
    ∃ h', place h (payload (base h + total pre)) (UInt64.ofNat a.1) = .ok h' ∧
      Layout h' (pre ++ carve a ⟨s, false⟩ ++ post) ∧ OnlyBytes h h' ∧
      Keeps h h' (pre ++ ⟨s, false⟩ :: post) := by
  have hown : Block h (base h + total pre) s.1 false := (segment_append.mp hL.blocks).2.1
  have hL2 : Layout h (pre ++ [⟨s, false⟩] ++ post) := by simpa using hL
  have hkeeps : ∀ {h'}, OnlyWithin h h' (base h + total pre) (base h + total pre + s.1) →
      Keeps h h' (pre ++ ⟨s, false⟩ :: post) := by
    intro h' hw
    have hk : Keeps h h' (pre ++ [⟨s, false⟩] ++ post) := hw.keeps le_rfl (by simp) (by simp)
    simpa using hk
  have ha32 := a.2.2
  by_cases hsplit : a.1 + 32 ≤ s.1
  · obtain ⟨h', hrun, hb1, hb2, hw⟩ := hown.header.place_split hown.inHeap a.2.1 (by omega) hsplit
    have hcarve : carve a ⟨s, false⟩ = [⟨a, true⟩, ⟨s.rest a hsplit, false⟩] := dif_pos hsplit
    refine ⟨h', hrun, hL2.replace hw le_rfl (by simp) ?_ (total_carve a _), hw.rest, hkeeps hw⟩
    rw [hcarve]
    exact ⟨hb1, hb2, trivial⟩
  · obtain ⟨h', hrun, hb, hw⟩ := hown.header.place_whole hown.inHeap hown.size ha (by omega)
    have hcarve : carve a ⟨s, false⟩ = [⟨s, true⟩] := dif_neg hsplit
    refine ⟨h', hrun, hL2.replace hw le_rfl (by simp) ?_ (total_carve a _), hw.rest, hkeeps hw⟩
    rw [hcarve]
    exact ⟨hb, trivial⟩

theorem allocated_carve {a : Size} {b : Bloque} (hb : b.alloc = false) (ha : a.1 ≤ b.size.1) :
    ∃ t, a.1 ≤ t ∧ ∀ c pre post x s, Allocated c (pre ++ carve a b ++ post) x s ↔
      Allocated c (pre ++ b :: post) x s ∨ (x = c + total pre ∧ s = t) := by
  unfold carve
  split_ifs with hsplit
  · refine ⟨a.1, le_rfl, fun c pre post x s => ?_⟩
    have hrest : a.1 + (b.size.rest a hsplit).1 = b.size.1 := Nat.add_sub_cancel' ha
    simp only [allocated_append, allocated_cons, allocated_nil, hb, total_append, total_cons,
      total_nil, Nat.add_zero, true_and, or_false, Bool.false_eq_true, false_and, false_or,
      Nat.add_assoc, hrest]
    tauto
  · refine ⟨b.size.1, ha, fun c pre post x s => ?_⟩
    simp only [allocated_append, allocated_cons, allocated_nil, hb, total_append, total_cons,
      total_nil, Nat.add_zero, true_and, or_false, Bool.false_eq_true, false_and, false_or,
      Nat.add_assoc]
    tauto

def headSize : List Bloque → ℕ
  | [] => 0
  | b :: _ => b.size.1

theorem blockSize_head {h : Heap} {c : ℕ} {bs : List Bloque} (hseg : Segment h c bs)
    (hepi : Tag h (c + total bs) 0 true) :
    blockSize h (UInt64.ofNat c) = .ok (UInt64.ofNat (headSize bs)) := by
  cases bs with
  | nil => exact hepi.blockSize
  | cons b bs => exact hseg.1.header.blockSize

/-- The walk from the start of a suffix of the list: it visits the blocks in order, stops
at the first that fits, and otherwise ends at the epilogue. -/
theorem findFitLoop_segment {h : Heap} {a : Size} (haa : a.1 < 2 ^ 64) (bs : List Bloque) {c : ℕ}
    (hseg : Segment h c bs) (hepi : Tag h (c + total bs) 0 true) (h16 : 16 ∣ c + 8)
    {fuel : ℕ} (hfuel : bs.length + 2 ≤ fuel) :
    ∃ p, findFitLoop (UInt64.ofNat a.1) fuel h (payload c) (UInt64.ofNat (headSize bs)) false =
        .ok (p, (firstFit a bs).isSome, h) ∧
      ∀ r, firstFit a bs = some r → p = payload (c + r.1) := by
  induction bs generalizing c fuel with
  | nil =>
    obtain ⟨fuel, rfl⟩ : ∃ k, fuel = k + 1 := ⟨fuel - 1, by simp at hfuel; omega⟩
    exact ⟨payload c, rfl, by simp [firstFit]⟩
  | cons b bs ih =>
    obtain ⟨fuel, rfl⟩ : ∃ k, fuel = k + 2 := ⟨fuel - 2, by simp at hfuel; omega⟩
    obtain ⟨hb, hrest⟩ := hseg
    have hlt := hb.inHeap.lt
    have hs := b.size.2.2
    have hpos : UInt64.ofNat b.size.1 > 0 := by
      rw [gt_iff_lt, UInt64.lt_iff_toNat_lt, toNat_ofNat_of_lt (by omega)]
      simp only [UInt64.toNat_zero]
      omega
    have hge : (UInt64.ofNat b.size.1 ≥ UInt64.ofNat a.1) ↔ a.1 ≤ b.size.1 := by
      rw [ge_iff_le, UInt64.le_iff_toNat_le, toNat_ofNat_of_lt haa,
        toNat_ofNat_of_lt (show b.size.1 < 2 ^ 64 by omega)]
    rw [findFitLoop]
    simp only [headSize, hpos, decide_true, Bool.not_false, Bool.and_self, if_true,
      hb.checkHeap h16, ok_bind, obtenerHeader_payload, hb.header.isAllocated, hb.header.blockSize]
    by_cases hfit : b.alloc = false ∧ a.1 ≤ b.size.1
    · have hcond : (!b.alloc && decide (UInt64.ofNat b.size.1 ≥ UInt64.ofNat a.1)) = true := by
        simp [hfit.1, hge.mpr hfit.2]
      rw [if_pos hcond]
      exact ⟨payload c, by simp [findFitLoop, firstFit, hfit]; rfl, by simp [firstFit, hfit]⟩
    · have hcond : ¬ (!b.alloc && decide (UInt64.ofNat b.size.1 ≥ UInt64.ofNat a.1)) = true := by
        simpa [hge] using hfit
      have hepi' : Tag h (c + b.size.1 + total bs) 0 true := by simpa [Nat.add_assoc] using hepi
      have hhead := blockSize_head hrest hepi'
      have h16' : 16 ∣ c + b.size.1 + 8 := by have := b.size.2.1; omega
      have hfuel' : bs.length + 2 ≤ fuel + 1 := by rw [List.length_cons] at hfuel; omega
      obtain ⟨p, hrun, hp⟩ := ih hrest hepi' h16' hfuel'
      rw [if_neg hcond, hb.header.proximoBloque, ok_bind, obtenerHeader_payload, hhead,
        ok_bind, hrun]
      refine ⟨p, by rw [firstFit, if_neg hfit, Option.isSome_map], ?_⟩
      intro r hr
      simp only [firstFit, if_neg hfit] at hr
      obtain ⟨r', hr', rfl⟩ := Option.map_eq_some_iff.mp hr
      rw [hp r' hr', Nat.add_assoc]

end Orga.Malloc
