import Orga.Recode.Streaming

/-! Which encoding `bom_to_encoding` finds in an encoded text. The mark of UTF-16LE is the
beginning of that of UTF-32LE, so the order of the tests matters there. -/
namespace Orga.Recode

/-- A text as a file: the mark of its encoding and its code points. -/
def textFile (src : Encoding) (points : List UInt32) : List UInt8 :=
  writeBom src ++ ucs4ToDest src points

theorem utf8_mem_lt {points : List UInt32} (hpoints : ∀ cp ∈ points, Scalar cp) {b : UInt8}
    (hb : b ∈ ucs4ToDest .utf8 points) : b.toNat < 248 := by
  rw [ucs4ToDest_eq_flatMap] at hb
  obtain ⟨cp, hcp, hb⟩ := List.mem_flatMap.mp hb
  exact utf8_bytes_lt (hpoints cp hcp) hb

/-- The first unit of UTF-16LE is zero only for U+0000. -/
theorem utf16le_head_ne_zero {points : List UInt32} (hpoints : ∀ cp ∈ points, Scalar cp)
    (hhead : points.head? ≠ some 0) {rest : List UInt8} :
    ucs4ToDest .utf16le points ≠ 0 :: 0 :: rest := by
  intro heq
  cases points with
  | nil => simp [ucs4ToDest] at heq
  | cons cp points =>
    have hread := readCodepoint_writeCodepoint (n := (0 :: 0 :: rest).length)
      (ucs4ToDest .utf16le points) (show Encoding.utf16le ≠ .unknown by decide)
      (hpoints cp (by simp))
      (by rw [← heq, ucs4ToDest, List.length_append]; omega)
    rw [← ucs4ToDest, heq, read_utf16le (by simp) (by decide)] at hread
    have hzero : (0 : UInt32) = cp := congrArg Prod.fst (Option.some.inj hread)
    exact hhead (by rw [← hzero]; rfl)

theorem textFile_split {src : Encoding} (hsrc : src ≠ .unknown) {points : List UInt32}
    (hpoints : ∀ cp ∈ points, Scalar cp) (h4 : 4 ≤ (textFile src points).length)
    (hmark : ¬ (src = .utf16le ∧ points.head? = some 0)) :
    ∃ b0 b1 b2 b3 stream, textFile src points = b0 :: b1 :: b2 :: b3 :: stream ∧
      bomToEncoding b0 b1 b2 b3 = src ∧
      carried src [b0, b1, b2, b3] ++ stream = ucs4ToDest src points := by
  cases src with
  | unknown => exact absurd rfl hsrc
  | utf32be => exact ⟨0, 0, 0xFE, 0xFF, _, rfl, by decide, rfl⟩
  | utf32le => exact ⟨0xFF, 0xFE, 0, 0, _, rfl, by decide, rfl⟩
  | utf16be =>
    have hbytes : 2 ≤ (ucs4ToDest .utf16be points).length := by
      rw [textFile, List.length_append] at h4
      change 4 ≤ 2 + _ at h4
      omega
    obtain ⟨b2, b3, stream, hbody⟩ := exists_two hbytes
    refine ⟨0xFE, 0xFF, b2, b3, stream, ?_, by simp [bomToEncoding], ?_⟩
    · rw [textFile, hbody]
      rfl
    · rw [hbody]
      rfl
  | utf16le =>
    have hbytes : 2 ≤ (ucs4ToDest .utf16le points).length := by
      rw [textFile, List.length_append] at h4
      change 4 ≤ 2 + _ at h4
      omega
    obtain ⟨b2, b3, stream, hbody⟩ := exists_two hbytes
    refine ⟨0xFF, 0xFE, b2, b3, stream, ?_, ?_, ?_⟩
    · rw [textFile, hbody]
      rfl
    · have hne : ¬ (b2 = 0 ∧ b3 = 0) := by
        rintro ⟨rfl, rfl⟩
        exact utf16le_head_ne_zero hpoints (fun h => hmark ⟨rfl, h⟩) hbody
      simp [bomToEncoding, hne]
    · rw [hbody]
      rfl
  | utf8 =>
    change 4 ≤ (ucs4ToDest .utf8 points).length at h4
    obtain ⟨b0, b1, rest, hbody⟩ := exists_two (show 2 ≤ (ucs4ToDest .utf8 points).length by omega)
    rw [hbody] at h4
    obtain ⟨b2, b3, stream, rfl⟩ := exists_two (show 2 ≤ rest.length by simpa using h4)
    have hlt : ∀ b ∈ [b0, b1, b2, b3], b.toNat < 248 := by
      intro b hb
      refine utf8_mem_lt hpoints (hbody ▸ ?_)
      exact List.mem_append_left stream hb
    have h0 := hlt b0 (by simp)
    have h2 := hlt b2 (by simp)
    have hb0 : b0 ≠ 254 ∧ b0 ≠ 255 := by
      constructor <;> rintro rfl <;> exact absurd h0 (by decide)
    have hb2 : b2 ≠ 254 := by
      rintro rfl
      exact absurd h2 (by decide)
    exact ⟨b0, b1, b2, b3, stream, hbody, by simp [bomToEncoding, hb0, hb2], hbody.symm⟩

/-- The first four bytes of every text tell its encoding, unless it is UTF-16LE and begins with
U+0000. -/
theorem bomToEncoding_textFile {src : Encoding} (hsrc : src ≠ .unknown) {points : List UInt32}
    (hpoints : ∀ cp ∈ points, Scalar cp) (h4 : 4 ≤ (textFile src points).length) :
    ∃ b0 b1 b2 b3, (textFile src points).take 4 = [b0, b1, b2, b3] ∧
      bomToEncoding b0 b1 b2 b3 =
        if src = .utf16le ∧ points.head? = some 0 then .utf32le else src := by
  by_cases hmark : src = .utf16le ∧ points.head? = some 0
  · obtain ⟨rfl, hhead⟩ := hmark
    obtain ⟨tail, rfl⟩ := List.head?_eq_some_iff.mp hhead
    refine ⟨0xFF, 0xFE, 0, 0, rfl, ?_⟩
    rw [if_pos ⟨rfl, hhead⟩]
    decide
  · obtain ⟨b0, b1, b2, b3, stream, hfile, hbom, -⟩ := textFile_split hsrc hpoints h4 hmark
    refine ⟨b0, b1, b2, b3, ?_, ?_⟩
    · rw [hfile]
      rfl
    · rw [if_neg hmark, hbom]

/-- A text of UTF-8 that ends with its fourth byte. -/
theorem bomToEncoding_textFile_four :
    ∃ b0 b1 b2 b3, (textFile .utf8 [0x1F600]).take 4 = [b0, b1, b2, b3] ∧
      bomToEncoding b0 b1 b2 b3 =
        if Encoding.utf8 = .utf16le ∧ [(0x1F600 : UInt32)].head? = some 0 then .utf32le
        else .utf8 :=
  bomToEncoding_textFile (by decide) (by simp [Scalar]) (by decide)

end Orga.Recode
