import Orga.Recode.WholeText

/-! Which of the 2³² values an encoding can hold. What `read_codepoint` gives, it can hold, and
`write_codepoint` loses everything else. -/
namespace Orga.Recode

section Read
variable {buf : List UInt8} {n k : ℕ} {cp : UInt32}

theorem faithful_of_read_utf16be (hread : readCodepoint .utf16be buf n = some (cp, k))
    (hk : 0 < k) : Faithful .utf16be cp := by
  simp only [readCodepoint, reduceCtorEq, or_self, or_true, false_and, if_true, if_false,
    Option.bind_eq_bind, Option.pure_def] at hread
  by_cases h2 : n ≥ 2
  · rw [if_pos h2] at hread
    obtain ⟨b0, -, hread⟩ := Option.bind_eq_some_iff.mp hread
    by_cases h0 : b0 >>> 2 ≠ 0x36
    · rw [if_pos h0] at hread
      obtain ⟨b1, -, hread⟩ := Option.bind_eq_some_iff.mp hread
      obtain ⟨rfl, -⟩ := Prod.mk.inj (Option.some.inj hread)
      have hlt0 := b0.toNat_lt
      have hlt1 := b1.toNat_lt
      rw [ne_eq, isSurrogate] at h0
      unfold Faithful
      rw [toNat_be16]
      omega
    · rw [if_neg h0] at hread
      split_ifs at hread
      · obtain ⟨b1, -, hread⟩ := Option.bind_eq_some_iff.mp hread
        obtain ⟨b2, -, hread⟩ := Option.bind_eq_some_iff.mp hread
        obtain ⟨b3, -, hread⟩ := Option.bind_eq_some_iff.mp hread
        obtain ⟨rfl, -⟩ := Prod.mk.inj (Option.some.inj hread)
        have hlt1 := b1.toNat_lt
        have hlt3 := b3.toNat_lt
        unfold Faithful
        rw [toNat_surrogates_be]
        omega
      · cases hread
        omega
  · rw [if_neg h2] at hread
    cases hread
    omega

theorem faithful_of_read_utf16le (hread : readCodepoint .utf16le buf n = some (cp, k))
    (hk : 0 < k) : Faithful .utf16le cp := by
  simp only [readCodepoint, reduceCtorEq, or_false, false_and, if_true, if_false,
    Option.bind_eq_bind, Option.pure_def] at hread
  by_cases h2 : n ≥ 2
  · rw [if_pos h2] at hread
    obtain ⟨b1, -, hread⟩ := Option.bind_eq_some_iff.mp hread
    by_cases h1 : b1 >>> 2 ≠ 0x36
    · rw [if_pos h1] at hread
      obtain ⟨b0, -, hread⟩ := Option.bind_eq_some_iff.mp hread
      obtain ⟨rfl, -⟩ := Prod.mk.inj (Option.some.inj hread)
      have hlt0 := b0.toNat_lt
      have hlt1 := b1.toNat_lt
      rw [ne_eq, isSurrogate] at h1
      unfold Faithful
      rw [toNat_le16]
      omega
    · rw [if_neg h1] at hread
      split_ifs at hread
      · obtain ⟨b0, -, hread⟩ := Option.bind_eq_some_iff.mp hread
        obtain ⟨b2, -, hread⟩ := Option.bind_eq_some_iff.mp hread
        obtain ⟨b3, -, hread⟩ := Option.bind_eq_some_iff.mp hread
        obtain ⟨rfl, -⟩ := Prod.mk.inj (Option.some.inj hread)
        have hlt0 := b0.toNat_lt
        have hlt2 := b2.toNat_lt
        unfold Faithful
        rw [toNat_surrogates_le]
        omega
      · cases hread
        omega
  · rw [if_neg h2] at hread
    cases hread
    omega

theorem faithful_of_read_utf8 (hread : readCodepoint .utf8 buf n = some (cp, k))
    (hk : 0 < k) : Faithful .utf8 cp := by
  simp only [readCodepoint, reduceCtorEq, or_self, false_and, if_true, if_false,
    Option.bind_eq_bind, Option.pure_def] at hread
  show cp.toNat < 2 ^ 21
  by_cases hn : n > 0
  · rw [if_pos hn] at hread
    obtain ⟨b0, -, hread⟩ := Option.bind_eq_some_iff.mp hread
    have hlt0 := b0.toNat_lt
    split_ifs at hread
    · obtain ⟨rfl, -⟩ := Prod.mk.inj (Option.some.inj hread)
      rw [UInt8.toNat_toUInt32]
      omega
    · obtain ⟨b1, -, hread⟩ := Option.bind_eq_some_iff.mp hread
      obtain ⟨rfl, -⟩ := Prod.mk.inj (Option.some.inj hread)
      rw [toNat_utf8_2]
      omega
    · obtain ⟨b1, -, hread⟩ := Option.bind_eq_some_iff.mp hread
      obtain ⟨b2, -, hread⟩ := Option.bind_eq_some_iff.mp hread
      obtain ⟨rfl, -⟩ := Prod.mk.inj (Option.some.inj hread)
      rw [toNat_utf8_3]
      omega
    · obtain ⟨b1, -, hread⟩ := Option.bind_eq_some_iff.mp hread
      obtain ⟨b2, -, hread⟩ := Option.bind_eq_some_iff.mp hread
      obtain ⟨b3, -, hread⟩ := Option.bind_eq_some_iff.mp hread
      obtain ⟨rfl, -⟩ := Prod.mk.inj (Option.some.inj hread)
      rw [toNat_utf8_4]
      omega
  · rw [if_neg hn] at hread
    cases hread
    omega

/-- A value that was read has a place in its encoding. -/
theorem faithful_of_read {enc : Encoding} (hread : readCodepoint enc buf n = some (cp, k))
    (hk : 0 < k) : Faithful enc cp := by
  cases enc with
  | utf8 => exact faithful_of_read_utf8 hread hk
  | utf16be => exact faithful_of_read_utf16be hread hk
  | utf16le => exact faithful_of_read_utf16le hread hk
  | utf32be => trivial
  | utf32le => trivial
  | unknown =>
    simp only [readCodepoint, reduceCtorEq, or_self, false_and, if_false] at hread
    cases hread
    omega

end Read

/-- `write_codepoint` loses a value exactly when no bytes at all decode to it: each encoding holds
what it can read, also outside the Unicode scalar values. -/
theorem faithful_iff {enc : Encoding} (henc : enc ≠ .unknown) (cp : UInt32) :
    ((∀ rest, readCodepoint enc (writeCodepoint enc cp ++ rest)
        (writeCodepoint enc cp ++ rest).length = some (cp, (writeCodepoint enc cp).length)) ↔
      Faithful enc cp) ∧
    ((∃ buf n k, 0 < k ∧ readCodepoint enc buf n = some (cp, k)) ↔ Faithful enc cp) := by
  have hpos := writeCodepoint_length_pos henc cp
  have hback : Faithful enc cp → ∀ rest, readCodepoint enc (writeCodepoint enc cp ++ rest)
      (writeCodepoint enc cp ++ rest).length = some (cp, (writeCodepoint enc cp).length) :=
    fun h rest => readCodepoint_faithful rest h (by rw [List.length_append]; omega)
  refine ⟨⟨fun h => ?_, hback⟩, ⟨?_, fun h => ?_⟩⟩
  · exact faithful_of_read (h []) hpos
  · rintro ⟨buf, n, k, hk, hread⟩
    exact faithful_of_read hread hk
  · exact ⟨_, _, _, hpos, hback h []⟩

/-- The unit of a high surrogate alone is not read back. -/
theorem faithful_iff_surrogate :
    ((∀ rest, readCodepoint .utf16le (writeCodepoint .utf16le 0xD83D ++ rest)
        (writeCodepoint .utf16le 0xD83D ++ rest).length =
          some (0xD83D, (writeCodepoint .utf16le 0xD83D).length)) ↔ Faithful .utf16le 0xD83D) ∧
    ((∃ buf n k, 0 < k ∧ readCodepoint .utf16le buf n = some (0xD83D, k)) ↔
      Faithful .utf16le 0xD83D) :=
  faithful_iff (by decide) 0xD83D

end Orga.Recode
