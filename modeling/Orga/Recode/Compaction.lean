import Orga.Recode.Iterations

/-! The `memcpy` that moves the bytes left over to the front of `inbuf`. It is undefined in C
when its ranges meet without being the same. -/
namespace Orga.Recode

/-- `memcpy` copies `left` bytes from index `inbytes - left` on to index 0 on, if there are any:
the two ranges are disjoint or the same. -/
def Iteration.Apart (it : Iteration) : Prop :=
  0 < it.left → 2 * it.left ≤ it.inbytes ∨ it.inbytes = it.left

instance (it : Iteration) : Decidable it.Apart := inferInstanceAs (Decidable (_ → _))

/-- Five bytes: a unit that is a code point, and three bytes of a surrogate pair. -/
def tornPair (enc : Encoding) : List UInt8 → Bool
  | [b0, b1, b2, b3, _] => wideLength enc b0 b1 = 2 ∧ wideLength enc b2 b3 = 4
  | _ => false

theorem tornPair_eq_true {enc : Encoding} {bytes : List UInt8} :
    tornPair enc bytes = true ↔ ∃ b0 b1 b2 b3 b4, bytes = [b0, b1, b2, b3, b4] ∧
      wideLength enc b0 b1 = 2 ∧ wideLength enc b2 b3 = 4 := by
  constructor
  · intro h
    match bytes, h with
    | [b0, b1, b2, b3, b4], h => exact ⟨b0, b1, b2, b3, b4, rfl, of_decide_eq_true h⟩
  · rintro ⟨b0, b1, b2, b3, b4, rfl, h⟩
    exact decide_eq_true h

section Torn
variable {orig : Encoding} (hw : orig.wide = true) {bytes : List UInt8} {i left : ℕ}
  {cs : List Call}
include hw

theorem read_five (b0 b1 b2 b3 b4 : UInt8) :
    ∃ cp cp', readCodepoint orig [b0, b1, b2, b3, b4] 5 = some (cp, wideLength orig b0 b1) ∧
      readCodepoint orig [b2, b3, b4] 3 =
        some (cp', if wideLength orig b2 b3 = 4 then 0 else 2) := by
  have hsize := wideLength_cases orig b0 b1
  have hfive : wideLength orig b0 b1 ≤ [b2, b3, b4].length + 2 := by
    show _ ≤ 5
    omega
  obtain ⟨cp, hread⟩ := read_whole hw b0 b1 hfive
  rcases wideLength_cases orig b2 b3 with h | h
  · have hthree : wideLength orig b2 b3 ≤ [b4].length + 2 := by
      show _ ≤ 3
      omega
    obtain ⟨cp', hread'⟩ := read_whole hw b2 b3 hthree
    rw [h] at hread' ⊢
    exact ⟨cp, cp', hread 5 (by omega), hread' 3 (by omega)⟩
  · rw [h]
    exact ⟨cp, 0, hread 5 (by omega), read_cut hw (by omega)⟩

theorem left_of_tornPair (h : Calls orig bytes bytes.length i cs left)
    (htorn : tornPair orig bytes = true) : left = 3 ∧ bytes.length = 5 := by
  obtain ⟨b0, b1, b2, b3, b4, rfl, hunit, hpair⟩ := tornPair_eq_true.mp htorn
  obtain ⟨cp, cp', hread, hread'⟩ := read_five hw b0 b1 b2 b3 b4
  rw [hunit] at hread
  rw [hpair, if_pos rfl] at hread'
  have hcalls : Calls orig [b0, b1, b2, b3, b4] 5 i [⟨i, cp, 5, 2⟩, ⟨i + 1, cp', 3, 0⟩] 3 :=
    .next hread (by omega) (.stop hread')
  exact ⟨(h.unique hcalls).2, rfl⟩

theorem tornPair_of_left (h : Calls orig bytes bytes.length i cs left)
    (hmeet : bytes.length < 2 * left) (hne : bytes.length ≠ left) :
    tornPair orig bytes = true := by
  obtain ⟨hthree, -⟩ := h.left_wide hw (Nat.le_refl _)
  cases h with
  | stop => exact absurd rfl hne
  | @next _ _ _ b _ cp cs hread hb hrest =>
    obtain ⟨cp', k, hread', hle, htwo, -⟩ := read_wide hw (Nat.le_refl bytes.length)
    obtain rfl : b = k := congrArg Prod.snd (Option.some.inj (hread.symm.trans hread'))
    have hdrop : (bytes.drop b).length = bytes.length - b := List.length_drop
    rw [sizeSub_of_le hle] at hrest
    obtain ⟨-, hleft⟩ := hrest.left_wide hw (Nat.le_of_eq hdrop.symm)
    -- the ranges meet only when two bytes are taken and three are left
    obtain ⟨rfl, rfl, hfive⟩ : b = 2 ∧ left = 3 ∧ bytes.length = 5 := by omega
    obtain ⟨b0, b1, b2, b3, b4, rfl⟩ : ∃ b0 b1 b2 b3 b4, bytes = [b0, b1, b2, b3, b4] := by
      match bytes, hfive with
      | [b0, b1, b2, b3, b4], _ => exact ⟨b0, b1, b2, b3, b4, rfl⟩
    obtain ⟨cp₀, cp₁, hfirst, hsecond⟩ := read_five hw b0 b1 b2 b3 b4
    have hunit : 2 = wideLength orig b0 b1 :=
      congrArg Prod.snd (Option.some.inj (hread.symm.trans hfirst))
    refine tornPair_eq_true.mpr ⟨b0, b1, b2, b3, b4, rfl, hunit.symm, ?_⟩
    rcases wideLength_cases orig b2 b3 with hpair | hpair
    · -- a second code point would leave one byte
      rw [if_neg (by omega)] at hsecond
      cases hrest with
      | stop hstop => cases hstop.symm.trans hsecond
      | next hnext _ hlast =>
        cases hnext.symm.trans hsecond
        obtain ⟨-, hone⟩ := hlast.left_wide hw (show 1 ≤ 1 from Nat.le_refl 1)
        exact absurd (show 3 ≤ 1 from hone) (by omega)
    · exact hpair

end Torn

/-- The ranges of one iteration meet exactly when its buffer holds a torn pair. -/
theorem Iteration.Sound.apart_iff {orig : Encoding} {it : Iteration} (h : it.Sound orig)
    (hw : orig.wide = true) : it.Apart ↔ tornPair orig it.bytes = false := by
  have hn : it.inbytes ≤ it.inbuf.length := by rw [h.inbuf]; exact h.inbytes
  have hlen : it.bytes.length = it.inbytes := by rw [Iteration.bytes, List.length_take]; omega
  have hcalls : Calls orig it.bytes it.bytes.length 0 it.calls it.left := by
    rw [hlen]
    exact (Calls.take_iff hw hn).mpr h.calls
  unfold Iteration.Apart
  rw [← hlen]
  constructor
  · intro hapart
    by_contra htorn
    obtain ⟨hleft, hfive⟩ := left_of_tornPair hw hcalls (Bool.of_not_eq_false htorn)
    have := hapart (by omega)
    omega
  · intro htorn hpos
    by_contra hmeet
    have := tornPair_of_left hw hcalls (by omega) (by omega)
    rw [htorn] at this
    exact absurd this (by decide)

/-- On UTF-16 and UTF-32 input the ranges of `memcpy` are disjoint or the same, except when the
buffer holds a torn pair. -/
theorem mainRun_apart_iff (wishes : ℕ → ℕ) (u : Uninitialised) (stdin : List UInt8)
    {orig : Encoding} (hw : orig.wide = true) (dest : Encoding)
    (hsource : Detects wishes u stdin orig) :
    (∃ its last, MainRun dest wishes u stdin orig its last) ∧
      ∀ its last, MainRun dest wishes u stdin orig its last →
        ∀ it ∈ its, (it.Apart ↔ tornPair orig it.bytes = false) := by
  refine ⟨exists_mainRun dest hw hsource, fun its last h it hit => ?_⟩
  exact ((h.sound hw).2 it hit).apart_iff hw

/-- The letter A and a surrogate pair in UTF-16BE, read in pieces of four, three and one byte. -/
theorem mainRun_apart_iff_sample :
    (∃ its last, MainRun .utf8 (fun i => if i = 1 then 3 else 4) ⟨fun _ => 0, fun _ => 0⟩
      [0xFE, 0xFF, 0, 0x41, 0xD8, 0x3D, 0xDE, 0] .utf16be its last) ∧
    ∀ its last, MainRun .utf8 (fun i => if i = 1 then 3 else 4) ⟨fun _ => 0, fun _ => 0⟩
      [0xFE, 0xFF, 0, 0x41, 0xD8, 0x3D, 0xDE, 0] .utf16be its last →
      ∀ it ∈ its, (it.Apart ↔ tornPair .utf16be it.bytes = false) :=
  mainRun_apart_iff _ _ _ rfl _ ⟨0xFE, 0xFF, 0, 0x41, rfl, rfl⟩

/-- The second read of that input brings three bytes behind the letter, and `memcpy` is to move
the bytes 2, 3, 4 to 0, 1, 2. -/
theorem memcpy_meets :
    ∃ its last, MainRun .utf8 (fun i => if i = 1 then 3 else 4) ⟨fun _ => 0, fun _ => 0⟩
      [0xFE, 0xFF, 0, 0x41, 0xD8, 0x3D, 0xDE, 0] .utf16be its last ∧ ∃ it ∈ its, ¬ it.Apart := by
  have hw : Encoding.utf16be.wide = true := rfl
  have hsource : Detects (fun i => if i = 1 then 3 else 4) ⟨fun _ => 0, fun _ => 0⟩
      [0xFE, 0xFF, 0, 0x41, 0xD8, 0x3D, 0xDE, 0] .utf16be := ⟨0xFE, 0xFF, 0, 0x41, rfl, rfl⟩
  obtain ⟨its, last, h⟩ := exists_mainRun .utf8 hw hsource
  refine ⟨its, last, h, ?_⟩
  obtain ⟨hlen, htake, hprev⟩ := firstBuffer_carried .utf16be ⟨fun _ => 0, fun _ => 0⟩
    (show [0xFE, 0xFF, 0, 0x41].length = 4 from rfl)
  have hloop := h.loop
  change Iterations _ _ (firstBuffer .utf16be _ [0xFE, 0xFF, 0, 0x41]).1
    (firstBuffer .utf16be _ [0xFE, 0xFF, 0, 0x41]).2 _ [0xD8, 0x3D, 0xDE, 0] its last at hloop
  rw [hprev] at hloop
  obtain ⟨it, hit, hbytes⟩ := hloop.first
    (show read 3 (sizeSub INBUF_SIZE 2) [0xD8, 0x3D, 0xDE, 0] = ([0xD8, 0x3D, 0xDE], [0]) from rfl)
    (by decide) (by rw [hlen]; decide)
  refine ⟨it, hit, fun hapart => ?_⟩
  have htorn := (((h.sound hw).2 it hit).apart_iff hw).mp hapart
  have htake' : (firstBuffer .utf16be ⟨fun _ => 0, fun _ => 0⟩ [0xFE, 0xFF, 0, 0x41]).1.take 2 =
      [0, 0x41] := htake
  change it.bytes = List.take 2 _ ++ _ at hbytes
  rw [htake'] at hbytes
  rw [hbytes] at htorn
  exact absurd htorn (by decide)

end Orga.Recode
