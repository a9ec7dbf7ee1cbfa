import Orga.Malloc.Invariant

/-! What a client may rely on: a live payload is aligned, inside the heap, apart from every
other one and from the words of the list, and calls on other pointers leave it alone. -/
namespace Orga.Malloc

/-- `a` is the header or the footer of a block on the walk from the prologue, which ends at
the epilogue. -/
def TagWord (h : Heap) (a : UInt64) : Prop :=
  ∃ ps p, Walk h h.heapListp ps p ∧ (a = obtenerHeader p ∨ obtenerFooter h p = .ok a)

def Apart (a n b m : ℕ) : Prop := a + n ≤ b ∨ b + m ≤ a

/-- Where the live payloads of a state lie. -/
structure Integrity (s : State) : Prop where
  aligned : ∀ p n, (p, n) ∈ s.live → 16 ∣ p.toNat
  inside : ∀ p n, (p, n) ∈ s.live → (memHeapLo s.heap).toNat ≤ p.toNat ∧
    p.toNat + n.toNat ≤ (memHeapHi s.heap).toNat + 1
  apart : s.live.Pairwise fun e f => Apart e.1.toNat e.2.toNat f.1.toNat f.2.toNat
  untagged : ∀ p n, (p, n) ∈ s.live → ∀ a, TagWord s.heap a → Apart a.toNat 8 p.toNat n.toNat

/-- Every call that the driver may make ends and leaves the payloads of other pointers alone. -/
structure Framed (s : State) : Prop where
  malloc : ∀ size, Fits size → ∃ p h', mmMalloc s.heap size = .ok (p, h') ∧
    ∀ q n, (q, n) ∈ s.live → Untouched s.heap h' q n
  free : ∀ p, Passable s p → ∃ h', mmFree s.heap p = .ok h' ∧
    ∀ q n, (q, n) ∈ s.live → q ≠ p → Untouched s.heap h' q n
  realloc : ∀ p size, Passable s p → Fits size → ∃ r h', mmRealloc s.heap p size = .ok (r, h') ∧
    ∀ q n, (q, n) ∈ s.live → q ≠ p → Untouched s.heap h' q n

/-- From a block of the list the walk stays on the list and its epilogue. -/
theorem Walk.placed {h : Heap} {c : ℕ} {bs : List Bloque} {p q : UInt64} {ps : List UInt64}
    (hw : Walk h p ps q) (hp : p = payload c) (hs : Segment h c bs)
    (hepi : Tag h (c + total bs) 0 true) :
    q = payload (c + total bs) ∨ ∃ x b, Placed c bs x b ∧ q = payload x := by
  induction hw generalizing c bs with
  | nil p =>
    subst hp
    cases bs with
    | nil => exact Or.inl rfl
    | cons b bs => exact Or.inr ⟨c, b, placed_cons.mpr (Or.inl ⟨rfl, rfl⟩), rfl⟩
  | cons hnext hwalk ih =>
    subst hp
    cases bs with
    | nil =>
      -- past the epilogue the walk stands still
      have hstay := hepi.proximoBloque
      rw [total_nil] at hstay
      cases hnext.symm.trans hstay
      exact ih rfl hs hepi
    | cons b bs =>
      cases hnext.symm.trans hs.1.header.proximoBloque
      rw [total_cons, ← Nat.add_assoc] at hepi ⊢
      rcases ih rfl hs.2 hepi with hq | ⟨x, d, hd, hq⟩
      · exact Or.inl hq
      · exact Or.inr ⟨x, d, placed_cons.mpr (Or.inr hd), hq⟩

theorem Walk.inv {h : Heap} {p q : UInt64} {ps : List UInt64} (hw : Walk h p ps q) :
    q = p ∨ ∃ p' ps', proximoBloque h p = .ok p' ∧ Walk h p' ps' q := by
  cases hw with
  | nil => exact Or.inl rfl
  | cons hnext hwalk => exact Or.inr ⟨_, _, hnext, hwalk⟩

theorem Layout.tagWord {h : Heap} {bs : List Bloque} (hL : Layout h bs) {a : UInt64}
    (ha : TagWord h a) :
    a.toNat + 8 ≤ base h ∨ a.toNat = base h + total bs ∨ a.toNat + 8 = base h + total bs ∨
      ∃ x b, Placed (base h) bs x b ∧ (a.toNat = x ∨ a.toNat + 8 = x + b.size.1) := by
  obtain ⟨ps, p, hw, ha⟩ := ha
  have hlt := hL.total_lt
  have hpro := hL.prologue
  have hbase : h.memStartBrk.toNat + 24 = base h := rfl
  rcases hw.inv with rfl | ⟨p', ps', hnext, hw'⟩
  · left
    rw [hL.listp, obtenerHeader_payload, hpro.obtenerFooter] at ha
    rcases ha with rfl | ha
    · rw [toNat_ofNat_of_lt (by omega)]
      omega
    · cases ha
      rw [toNat_ofNat_of_lt (by omega)]
      omega
  have hfirst : p' = payload (base h) := by
    rw [hL.listp, hpro.header.proximoBloque] at hnext
    exact (Except.ok.inj hnext).symm
  rcases hw'.placed hfirst hL.blocks hL.epilogue with rfl | ⟨x, b, hb, rfl⟩
  · right
    rw [obtenerHeader_payload] at ha
    rcases ha with rfl | ha
    · left
      rw [toNat_ofNat_of_lt (by omega)]
    · right
      left
      cases ha.symm.trans (hL.epilogue.obtenerFooter_zero (by omega))
      rw [toNat_ofNat_of_lt (by omega)]
      omega
  · right
    right
    right
    have hblock := hb.block hL.blocks
    have hbounds := hb.bounds
    have hsize := b.size.2.2
    rw [obtenerHeader_payload, hblock.obtenerFooter] at ha
    refine ⟨x, b, hb, ?_⟩
    rcases ha with rfl | ha
    · left
      rw [toNat_ofNat_of_lt (by omega)]
    · right
      cases ha
      rw [toNat_ofNat_of_lt (by omega)]
      omega

section Valid
variable {s : State} {bs : List Bloque}

theorem Valid.live_block (hv : Valid s bs) {p n : UInt64} (hp : (p, n) ∈ s.live) :
    ∃ x t, Allocated (base s.heap) bs x t ∧ p = payload x ∧ p.toNat = x + 8 ∧
      n.toNat + 16 ≤ t ∧ base s.heap ≤ x ∧ x + t ≤ base s.heap + total bs := by
  obtain ⟨x, t, ha, rfl, hn⟩ := hv.ledger.backed p n hp
  obtain ⟨hlo, hhi, -, -⟩ := ha.bounds
  exact ⟨x, t, ha, rfl, toNat_ofNat_of_lt (hv.ledger.small x t ha), hn, hlo, hhi⟩

theorem Valid.apart (hv : Valid s bs) {p n q m : UInt64} (hp : (p, n) ∈ s.live)
    (hq : (q, m) ∈ s.live) (hne : p ≠ q) : Apart p.toNat n.toNat q.toNat m.toNat := by
  obtain ⟨x, t, hx, rfl, hpx, hn, -, -⟩ := hv.live_block hp
  obtain ⟨y, u, hy, rfl, hqy, hm, -, -⟩ := hv.live_block hq
  unfold Apart
  rcases hx.disjoint hy with ⟨rfl, -⟩ | hd
  · exact absurd rfl hne
  · omega

theorem Valid.untagged (hv : Valid s bs) {p n : UInt64} (hp : (p, n) ∈ s.live) {a : UInt64}
    (ha : TagWord s.heap a) : Apart a.toNat 8 p.toNat n.toNat := by
  obtain ⟨x, t, hx, rfl, hpx, hn, hlo, hhi⟩ := hv.live_block hp
  unfold Apart
  rcases hv.layout.tagWord ha with h | h | h | ⟨y, b, hy, h⟩
  · omega
  · omega
  · omega
  · obtain ⟨d, hd, -, rfl⟩ := allocated_iff.mp hx
    have hsize := b.size.2.2
    rcases hd.disjoint hy with ⟨rfl, rfl⟩ | hsep
    · omega
    · omega

theorem Valid.toIntegrity (hv : Valid s bs) : Integrity s where
  aligned p n hp := by
    obtain ⟨x, t, ha, -, hpx, -⟩ := hv.live_block hp
    obtain ⟨pre, size, post, -, rfl, -⟩ := ha
    have hbase := hv.layout.base_aligned
    have hpre := dvd_total pre
    omega
  inside p n hp := by
    obtain ⟨x, t, -, -, hpx, hn, hlo, hhi⟩ := hv.live_block hp
    have hbrk := hv.layout.brk
    have hhi' : (memHeapHi s.heap).toNat + 1 = s.heap.memBrk.toNat := by
      have hone : (1 : UInt64) ≤ s.heap.memBrk := by
        rw [UInt64.le_iff_toNat_le, hbrk]
        show 1 ≤ _
        omega
      rw [memHeapHi, UInt64.toNat_sub_of_le _ _ hone, hbrk]
      rfl
    refine ⟨?_, by omega⟩
    show s.heap.memStartBrk.toNat ≤ _
    unfold base at hlo
    omega
  apart := by
    have hnodup := hv.ledger.nodup
    rw [List.Nodup, List.pairwise_map] at hnodup
    refine List.Pairwise.imp_of_mem ?_ hnodup
    rintro ⟨p, n⟩ ⟨q, m⟩ hp hq hne
    exact hv.apart hp hq hne
  untagged p n hp a ha := hv.untagged hp ha

theorem Valid.framed (hv : Valid s bs) : Framed s where
  malloc size hfit := by
    obtain ⟨p, h', -, hrun, -, hu⟩ := hv.mmMalloc hfit
    exact ⟨p, h', hrun, hu⟩
  free p hp := by
    obtain ⟨h', -, hrun, -, hu⟩ := hv.mmFree hp
    exact ⟨h', hrun, hu⟩
  realloc p size hp hfit := by
    obtain ⟨r, h', -, hrun, -, hu⟩ := hv.mmRealloc hp hfit
    exact ⟨r, h', hrun, hu⟩

end Valid

/-- Live data is safe at every moment of a run. -/
theorem Reachable.integrity {s : State} (hs : Reachable s) : Integrity s ∧ Framed s := by
  obtain ⟨bs, hv⟩ := hs.valid
  exact ⟨hv.toIntegrity, hv.framed⟩

theorem integrity_sampleState : Integrity sampleState ∧ Framed sampleState :=
  reachable_sampleState.integrity

end Orga.Malloc
