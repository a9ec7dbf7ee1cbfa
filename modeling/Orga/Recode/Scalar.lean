import Orga.Lib.BitFields
import Orga.Recode.Codec

/-! One code point, encoded and decoded. The decoder's words are read as sums of fields,
the encoder's bytes as quotients and remainders. -/
namespace Orga.Recode
open Orga.BitFields

def Scalar (cp : UInt32) : Prop :=
  cp.toNat ≤ 0x10FFFF ∧ ¬ (0xD800 ≤ cp.toNat ∧ cp.toNat ≤ 0xDFFF)

instance (cp : UInt32) : Decidable (Scalar cp) := inferInstanceAs (Decidable (_ ∧ _))

/-- The values that an encoding has a place for. UTF-8 takes 21 bits as they are, and UTF-16 the
surrogates that do not begin a pair. -/
def Faithful (enc : Encoding) (cp : UInt32) : Prop :=
  match enc with
  | .utf8 => cp.toNat < 2 ^ 21
  | .utf16be | .utf16le => cp.toNat ≤ 0x10FFFF ∧ ¬ (0xD800 ≤ cp.toNat ∧ cp.toNat ≤ 0xDBFF)
  | .utf32be | .utf32le => True
  | .unknown => False

theorem Scalar.faithful {enc : Encoding} (henc : enc ≠ .unknown) {cp : UInt32} (h : Scalar cp) :
    Faithful enc cp := by
  obtain ⟨hmax, hsurr⟩ := h
  cases enc with
  | utf8 => exact lt_of_le_of_lt hmax (by decide)
  | utf16be => exact ⟨hmax, fun hhigh => hsurr ⟨hhigh.1, by omega⟩⟩
  | utf16le => exact ⟨hmax, fun hhigh => hsurr ⟨hhigh.1, by omega⟩⟩
  | utf32be => trivial
  | utf32le => trivial
  | unknown => exact henc rfl

section Fields
variable {b0 b1 b2 b3 : UInt8}

private theorem shifted (b : UInt8) (k : ℕ) {s : UInt32} (hs : s.toNat = k) (hk : k ≤ 24) :
    (b.toUInt32 <<< s).toNat = b.toNat * 2 ^ k := by
  have hb := b.toNat_lt
  have hpow : 2 ^ k ≤ 2 ^ 24 := Nat.pow_le_pow_right (by omega) hk
  rw [toNat_shiftLeft k hs (by omega), UInt8.toNat_toUInt32]
  rw [UInt8.toNat_toUInt32]
  calc b.toNat * 2 ^ k ≤ b.toNat * 2 ^ 24 := Nat.mul_le_mul_left _ hpow
    _ < 2 ^ 32 := by omega

theorem toNat_be16 : (b0.toUInt32 <<< 8 ||| b1.toUInt32).toNat = b0.toNat * 256 + b1.toNat := by
  have h1 := b1.toNat_lt
  have h0 := shifted b0 8 (s := 8) rfl (by omega)
  rw [toNat_join 8 (by rw [h0]; exact Nat.dvd_mul_left _ _) (by simpa using h1), h0]
  rfl

theorem toNat_be32 :
    (b0.toUInt32 <<< 24 ||| b1.toUInt32 <<< 16 ||| b2.toUInt32 <<< 8 ||| b3.toUInt32).toNat =
      b0.toNat * 2 ^ 24 + b1.toNat * 2 ^ 16 + b2.toNat * 2 ^ 8 + b3.toNat := by
  have h1 := b1.toNat_lt
  have h2 := b2.toNat_lt
  have h3 := b3.toNat_lt
  have e0 := shifted b0 24 (s := 24) rfl (by omega)
  have e1 := shifted b1 16 (s := 16) rfl (by omega)
  have e2 := shifted b2 8 (s := 8) rfl (by omega)
  have e3 : b3.toUInt32.toNat = b3.toNat := UInt8.toNat_toUInt32 b3
  have s1 := toNat_join (x := b0.toUInt32 <<< 24) (y := b1.toUInt32 <<< 16) 24 (by omega) (by omega)
  have s2 := toNat_join (x := b0.toUInt32 <<< 24 ||| b1.toUInt32 <<< 16) (y := b2.toUInt32 <<< 8) 16
    (by omega) (by omega)
  rw [toNat_join 8 (by omega) (by omega)]
  omega

theorem toNat_le16 : (b0.toUInt32 ||| b1.toUInt32 <<< 8).toNat = b0.toNat + b1.toNat * 2 ^ 8 := by
  have h0 := b0.toNat_lt
  have e0 : b0.toUInt32.toNat = b0.toNat := UInt8.toNat_toUInt32 b0
  have e1 := shifted b1 8 (s := 8) rfl (by omega)
  rw [toNat_join' 8 (by omega) (by omega)]
  omega

theorem toNat_le32 :
    (b0.toUInt32 ||| b1.toUInt32 <<< 8 ||| b2.toUInt32 <<< 16 ||| b3.toUInt32 <<< 24).toNat =
      b0.toNat + b1.toNat * 2 ^ 8 + b2.toNat * 2 ^ 16 + b3.toNat * 2 ^ 24 := by
  have h0 := b0.toNat_lt
  have h1 := b1.toNat_lt
  have h2 := b2.toNat_lt
  have e0 : b0.toUInt32.toNat = b0.toNat := UInt8.toNat_toUInt32 b0
  have e1 := shifted b1 8 (s := 8) rfl (by omega)
  have e2 := shifted b2 16 (s := 16) rfl (by omega)
  have e3 := shifted b3 24 (s := 24) rfl (by omega)
  have s1 := toNat_join' (x := b0.toUInt32) (y := b1.toUInt32 <<< 8) 8 (by omega) (by omega)
  have s2 := toNat_join' (x := b0.toUInt32 ||| b1.toUInt32 <<< 8) (y := b2.toUInt32 <<< 16) 16
    (by omega) (by omega)
  rw [toNat_join' 24 (by omega) (by omega)]
  omega

private theorem low8 (b m : UInt8) (k : ℕ) (hm : m.toNat = 2 ^ k - 1) :
    (b &&& m).toUInt32.toNat = b.toNat % 2 ^ k := by
  rw [UInt8.toNat_toUInt32, toNat_mask8 k hm]

private theorem shiftedLow (b m : UInt8) (j k : ℕ) {s : UInt32} (hm : m.toNat = 2 ^ j - 1)
    (hs : s.toNat = k) (hk : k ≤ 24) :
    ((b &&& m).toUInt32 <<< s).toNat = b.toNat % 2 ^ j * 2 ^ k := by
  rw [shifted (b &&& m) k hs hk, toNat_mask8 j hm]

private theorem surrogateOffset {x : UInt32} (hx : x.toNat < 2 ^ 20) :
    (x + 65536).toNat = x.toNat + 65536 := by
  rw [UInt32.toNat_add]
  exact Nat.mod_eq_of_lt (by show x.toNat + 65536 < _; omega)

theorem toNat_surrogates_be :
    (((b0 &&& 3).toUInt32 <<< 18 ||| b1.toUInt32 <<< 10 ||| (b2 &&& 3).toUInt32 <<< 8 |||
      b3.toUInt32) + 65536).toNat =
      b0.toNat % 4 * 2 ^ 18 + b1.toNat * 2 ^ 10 + b2.toNat % 4 * 2 ^ 8 + b3.toNat + 65536 := by
  have h1 := b1.toNat_lt
  have h3 := b3.toNat_lt
  have e0 := shiftedLow b0 3 2 18 (s := 18) rfl rfl (by omega)
  have e1 := shifted b1 10 (s := 10) rfl (by omega)
  have e2 := shiftedLow b2 3 2 8 (s := 8) rfl rfl (by omega)
  have e3 : b3.toUInt32.toNat = b3.toNat := UInt8.toNat_toUInt32 b3
  have s1 := toNat_join (x := (b0 &&& 3).toUInt32 <<< 18) (y := b1.toUInt32 <<< 10) 18
    (by omega) (by omega)
  have s2 := toNat_join (x := (b0 &&& 3).toUInt32 <<< 18 ||| b1.toUInt32 <<< 10)
    (y := (b2 &&& 3).toUInt32 <<< 8) 10 (by omega) (by omega)
  have s3 := toNat_join (x := (b0 &&& 3).toUInt32 <<< 18 ||| b1.toUInt32 <<< 10 |||
    (b2 &&& 3).toUInt32 <<< 8) (y := b3.toUInt32) 8 (by omega) (by omega)
  rw [surrogateOffset (by omega)]
  omega

theorem toNat_surrogates_le :
    ((b0.toUInt32 <<< 10 ||| (b1 &&& 3).toUInt32 <<< 18 ||| b2.toUInt32 |||
      (b3 &&& 3).toUInt32 <<< 8) + 65536).toNat =
      b1.toNat % 4 * 2 ^ 18 + b0.toNat * 2 ^ 10 + b3.toNat % 4 * 2 ^ 8 + b2.toNat + 65536 := by
  have h0 := b0.toNat_lt
  have h2 := b2.toNat_lt
  have e0 := shifted b0 10 (s := 10) rfl (by omega)
  have e1 := shiftedLow b1 3 2 18 (s := 18) rfl rfl (by omega)
  have e2 : b2.toUInt32.toNat = b2.toNat := UInt8.toNat_toUInt32 b2
  have e3 := shiftedLow b3 3 2 8 (s := 8) rfl rfl (by omega)
  have s1 := toNat_join' (x := b0.toUInt32 <<< 10) (y := (b1 &&& 3).toUInt32 <<< 18) 18
    (by omega) (by omega)
  have s2 := toNat_join' (x := b2.toUInt32) (y := (b3 &&& 3).toUInt32 <<< 8) 8 (by omega) (by omega)
  rw [UInt32.or_assoc (b0.toUInt32 <<< 10 ||| (b1 &&& 3).toUInt32 <<< 18)]
  have s3 := toNat_join (x := b0.toUInt32 <<< 10 ||| (b1 &&& 3).toUInt32 <<< 18)
    (y := b2.toUInt32 ||| (b3 &&& 3).toUInt32 <<< 8) 10 (by omega) (by omega)
  rw [surrogateOffset (by omega)]
  omega

theorem toNat_utf8_2 : ((b0 &&& 31).toUInt32 <<< 6 ||| (b1 &&& 63).toUInt32).toNat =
    b0.toNat % 32 * 2 ^ 6 + b1.toNat % 64 := by
  have e0 := shiftedLow b0 31 5 6 (s := 6) rfl rfl (by omega)
  have e1 := low8 b1 63 6 rfl
  rw [toNat_join 6 (by omega) (by omega)]
  omega

theorem toNat_utf8_3 : ((b0 &&& 15).toUInt32 <<< 12 ||| (b1 &&& 63).toUInt32 <<< 6 |||
    (b2 &&& 63).toUInt32).toNat =
    b0.toNat % 16 * 2 ^ 12 + b1.toNat % 64 * 2 ^ 6 + b2.toNat % 64 := by
  have e0 := shiftedLow b0 15 4 12 (s := 12) rfl rfl (by omega)
  have e1 := shiftedLow b1 63 6 6 (s := 6) rfl rfl (by omega)
  have e2 := low8 b2 63 6 rfl
  have s1 := toNat_join (x := (b0 &&& 15).toUInt32 <<< 12) (y := (b1 &&& 63).toUInt32 <<< 6) 12
    (by omega) (by omega)
  rw [toNat_join 6 (by omega) (by omega)]
  omega

theorem toNat_utf8_4 : ((b0 &&& 7).toUInt32 <<< 18 ||| (b1 &&& 63).toUInt32 <<< 12 |||
    (b2 &&& 63).toUInt32 <<< 6 ||| (b3 &&& 63).toUInt32).toNat =
    b0.toNat % 8 * 2 ^ 18 + b1.toNat % 64 * 2 ^ 12 + b2.toNat % 64 * 2 ^ 6 + b3.toNat % 64 := by
  have e0 := shiftedLow b0 7 3 18 (s := 18) rfl rfl (by omega)
  have e1 := shiftedLow b1 63 6 12 (s := 12) rfl rfl (by omega)
  have e2 := shiftedLow b2 63 6 6 (s := 6) rfl rfl (by omega)
  have e3 := low8 b3 63 6 rfl
  have s1 := toNat_join (x := (b0 &&& 7).toUInt32 <<< 18) (y := (b1 &&& 63).toUInt32 <<< 12) 18
    (by omega) (by omega)
  have s2 := toNat_join (x := (b0 &&& 7).toUInt32 <<< 18 ||| (b1 &&& 63).toUInt32 <<< 12)
    (y := (b2 &&& 63).toUInt32 <<< 6) 12 (by omega) (by omega)
  rw [toNat_join 6 (by omega) (by omega)]
  omega

end Fields

section Read
variable {b0 b1 b2 b3 : UInt8} {rest : List UInt8} {n : ℕ}

theorem read_utf32be (hn : 4 ≤ n) : readCodepoint .utf32be (b0 :: b1 :: b2 :: b3 :: rest) n =
    some (b0.toUInt32 <<< 24 ||| b1.toUInt32 <<< 16 ||| b2.toUInt32 <<< 8 ||| b3.toUInt32, 4) := by
  simp [readCodepoint, hn]

theorem read_utf32le (hn : 4 ≤ n) : readCodepoint .utf32le (b0 :: b1 :: b2 :: b3 :: rest) n =
    some (b0.toUInt32 ||| b1.toUInt32 <<< 8 ||| b2.toUInt32 <<< 16 ||| b3.toUInt32 <<< 24, 4) := by
  simp [readCodepoint, hn]

theorem read_utf16be (hn : 2 ≤ n) (h0 : b0 >>> 2 ≠ 0x36) :
    readCodepoint .utf16be (b0 :: b1 :: rest) n =
      some (b0.toUInt32 <<< 8 ||| b1.toUInt32, 2) := by
  simp [readCodepoint, hn, h0]

theorem read_utf16be_pair (hn : 4 ≤ n) (h0 : b0 >>> 2 = 0x36) :
    readCodepoint .utf16be (b0 :: b1 :: b2 :: b3 :: rest) n =
      some (((b0 &&& 3).toUInt32 <<< 18 ||| b1.toUInt32 <<< 10 ||| (b2 &&& 3).toUInt32 <<< 8 |||
        b3.toUInt32) + 65536, 4) := by
  simp [readCodepoint, hn, h0, show 2 ≤ n by omega]

theorem read_utf16le (hn : 2 ≤ n) (h1 : b1 >>> 2 ≠ 0x36) :
    readCodepoint .utf16le (b0 :: b1 :: rest) n =
      some (b0.toUInt32 ||| b1.toUInt32 <<< 8, 2) := by
  simp [readCodepoint, hn, h1]

theorem read_utf16le_pair (hn : 4 ≤ n) (h1 : b1 >>> 2 = 0x36) :
    readCodepoint .utf16le (b0 :: b1 :: b2 :: b3 :: rest) n =
      some ((b0.toUInt32 <<< 10 ||| (b1 &&& 3).toUInt32 <<< 18 ||| b2.toUInt32 |||
        (b3 &&& 3).toUInt32 <<< 8) + 65536, 4) := by
  simp [readCodepoint, hn, h1, show 2 ≤ n by omega]

theorem read_utf8_1 (hn : 0 < n) (h0 : b0 < 0x80) :
    readCodepoint .utf8 (b0 :: rest) n = some (b0.toUInt32, 1) := by
  simp [readCodepoint, hn, h0]

theorem read_utf8_2 (hn : 0 < n) (hlo : ¬ b0 < 0x80) (hhi : b0 < 0xE0) :
    readCodepoint .utf8 (b0 :: b1 :: rest) n =
      some ((b0 &&& 31).toUInt32 <<< 6 ||| (b1 &&& 63).toUInt32, 2) := by
  simp [readCodepoint, hn, hlo, hhi]

theorem read_utf8_3 (hn : 0 < n) (h1 : ¬ b0 < 0x80) (hlo : ¬ b0 < 0xE0) (hhi : b0 < 0xF0) :
    readCodepoint .utf8 (b0 :: b1 :: b2 :: rest) n =
      some ((b0 &&& 15).toUInt32 <<< 12 ||| (b1 &&& 63).toUInt32 <<< 6 |||
        (b2 &&& 63).toUInt32, 3) := by
  simp [readCodepoint, hn, h1, hlo, hhi]

theorem read_utf8_4 (hn : 0 < n) (h1 : ¬ b0 < 0x80) (h2 : ¬ b0 < 0xE0) (hlo : ¬ b0 < 0xF0) :
    readCodepoint .utf8 (b0 :: b1 :: b2 :: b3 :: rest) n =
      some ((b0 &&& 7).toUInt32 <<< 18 ||| (b1 &&& 63).toUInt32 <<< 12 |||
        (b2 &&& 63).toUInt32 <<< 6 ||| (b3 &&& 63).toUInt32, 4) := by
  simp [readCodepoint, hn, h1, h2, hlo]

end Read

section Bytes
variable {cp : UInt32}

private theorem byte_low : (cp &&& 255).toUInt8.toNat = cp.toNat % 2 ^ 8 := by
  have hm := toNat_mask (x := cp) (m := 255) 8 rfl
  rw [UInt32.toNat_toUInt8, hm, Nat.mod_mod]

private theorem byte_at {s : UInt32} (k : ℕ) (hs : s.toNat = k) (hk : k < 32) :
    (cp >>> s &&& 255).toUInt8.toNat = cp.toNat / 2 ^ k % 2 ^ 8 := by
  rw [byte_low, toNat_shiftRight k hs hk]

private theorem tail_low :
    ((128 : UInt32) ||| (cp &&& 63)).toUInt8.toNat = 128 + cp.toNat % 64 := by
  have hm := toNat_mask (x := cp) (m := 63) 6 rfl
  rw [toNat_marked 6 (by decide) (by omega) (by decide), hm]
  rfl

private theorem tail_at {s : UInt32} (k : ℕ) (hs : s.toNat = k) (hk : k < 32) :
    ((128 : UInt32) ||| (cp >>> s &&& 63)).toUInt8.toNat = 128 + cp.toNat / 2 ^ k % 64 := by
  rw [tail_low, toNat_shiftRight k hs hk]

private theorem lead_at {m s : UInt32} (j k : ℕ) (hs : s.toNat = k) (hk : k < 32)
    (hm : 2 ^ j ∣ m.toNat) (hfit : m.toNat + 2 ^ j ≤ 256) (hcp : cp.toNat / 2 ^ k < 2 ^ j) :
    (m ||| cp >>> s).toUInt8.toNat = m.toNat + cp.toNat / 2 ^ k := by
  have hr := toNat_shiftRight (x := cp) k hs hk
  rw [toNat_marked j hm (by omega) hfit, hr]

end Bytes

section RoundTrip
variable {cp : UInt32} {n : ℕ} (rest : List UInt8)

private theorem decoded {x : UInt32} {k : ℕ} (h : x.toNat = cp.toNat) :
    some (x, k) = some (cp, k) := by
  rw [UInt32.toNat_inj.mp h]

private theorem utf32be_roundTrip (hn : 4 ≤ n) :
    readCodepoint .utf32be (writeCodepoint .utf32be cp ++ rest) n = some (cp, 4) := by
  have hcp := cp.toNat_lt
  have hw : writeCodepoint .utf32be cp = [(cp >>> 24 &&& 255).toUInt8,
      (cp >>> 16 &&& 255).toUInt8, (cp >>> 8 &&& 255).toUInt8, (cp &&& 255).toUInt8] := rfl
  rw [hw]
  refine (read_utf32be hn).trans (decoded ?_)
  rw [toNat_be32, byte_at (s := 24) 24 rfl (by omega), byte_at (s := 16) 16 rfl (by omega),
    byte_at (s := 8) 8 rfl (by omega), byte_low]
  omega

private theorem utf32le_roundTrip (hn : 4 ≤ n) :
    readCodepoint .utf32le (writeCodepoint .utf32le cp ++ rest) n = some (cp, 4) := by
  have hcp := cp.toNat_lt
  have hw : writeCodepoint .utf32le cp = [(cp &&& 255).toUInt8, (cp >>> 8 &&& 255).toUInt8,
      (cp >>> 16 &&& 255).toUInt8, (cp >>> 24 &&& 255).toUInt8] := rfl
  rw [hw]
  refine (read_utf32le hn).trans (decoded ?_)
  rw [toNat_le32, byte_at (s := 24) 24 rfl (by omega), byte_at (s := 16) 16 rfl (by omega),
    byte_at (s := 8) 8 rfl (by omega), byte_low]
  omega

theorem isSurrogate {b : UInt8} : b >>> 2 = 0x36 ↔ b.toNat / 4 = 0x36 := by
  rw [← UInt8.toNat_inj, toNat_shiftRight8 2 rfl (by omega)]
  rfl

private theorem write_utf16be (h : cp.toNat ≤ 0xFFFF) : writeCodepoint .utf16be cp =
    [(cp >>> 8 &&& 255).toUInt8, (cp &&& 255).toUInt8] := by
  have hle : cp ≤ 0xFFFF := UInt32.le_iff_toNat_le.mpr h
  simp [writeCodepoint, hle]

private theorem write_utf16le (h : cp.toNat ≤ 0xFFFF) : writeCodepoint .utf16le cp =
    [(cp &&& 255).toUInt8, (cp >>> 8 &&& 255).toUInt8] := by
  have hle : cp ≤ 0xFFFF := UInt32.le_iff_toNat_le.mpr h
  simp [writeCodepoint, hle]

private theorem write_utf16be_pair (h : ¬ cp.toNat ≤ 0xFFFF) : writeCodepoint .utf16be cp =
    [((216 : UInt32) ||| (cp - 65536) >>> 18).toUInt8, ((cp - 65536) >>> 10 &&& 255).toUInt8,
      ((220 : UInt32) ||| ((cp - 65536) >>> 8 &&& 3)).toUInt8, ((cp - 65536) &&& 255).toUInt8] := by
  have hle : ¬ cp ≤ 0xFFFF := fun hc => h (UInt32.le_iff_toNat_le.mp hc)
  simp [writeCodepoint, hle]

private theorem write_utf16le_pair (h : ¬ cp.toNat ≤ 0xFFFF) : writeCodepoint .utf16le cp =
    [((cp - 65536) >>> 10 &&& 255).toUInt8, ((216 : UInt32) ||| (cp - 65536) >>> 18).toUInt8,
      ((cp - 65536) &&& 255).toUInt8, ((220 : UInt32) ||| ((cp - 65536) >>> 8 &&& 3)).toUInt8] := by
  have hle : ¬ cp ≤ 0xFFFF := fun hc => h (UInt32.le_iff_toNat_le.mp hc)
  simp [writeCodepoint, hle]

private theorem trail_surrogate {aux : UInt32} :
    ((220 : UInt32) ||| (aux >>> 8 &&& 3)).toUInt8.toNat = 220 + aux.toNat / 256 % 4 := by
  have hm := toNat_mask (x := aux >>> 8) (m := 3) 2 rfl
  have hs := toNat_shiftRight (x := aux) (s := 8) 8 rfl (by omega)
  rw [toNat_marked 2 (by decide) (by omega) (by decide), hm, hs]
  rfl

private theorem lead_surrogate (aux : UInt32) (h : aux.toNat < 2 ^ 20) :
    ((216 : UInt32) ||| aux >>> 18).toUInt8.toNat = 216 + aux.toNat / 2 ^ 18 :=
  lead_at 2 18 rfl (by omega) (by decide) (by decide) (by omega)

private theorem minusOffset (hlo : ¬ cp.toNat ≤ 0xFFFF) :
    (cp - 65536).toNat = cp.toNat - 65536 := by
  have hle : (65536 : UInt32) ≤ cp := by
    rw [UInt32.le_iff_toNat_le]
    show 65536 ≤ _
    omega
  rw [UInt32.toNat_sub_of_le _ _ hle]
  rfl

private theorem utf16be_roundTrip (hcp : Faithful .utf16be cp)
    (hn : (writeCodepoint .utf16be cp).length ≤ n) :
    readCodepoint .utf16be (writeCodepoint .utf16be cp ++ rest) n =
      some (cp, (writeCodepoint .utf16be cp).length) := by
  obtain ⟨hmax, hsurr⟩ := hcp
  by_cases hle : cp.toNat ≤ 0xFFFF
  · rw [write_utf16be hle] at hn ⊢
    have h0 : (cp >>> 8 &&& 255).toUInt8.toNat = cp.toNat / 2 ^ 8 % 2 ^ 8 :=
      byte_at 8 rfl (by omega)
    refine (read_utf16be hn ?_).trans (decoded ?_)
    · rw [ne_eq, isSurrogate]
      omega
    · rw [toNat_be16, h0, byte_low]
      omega
  · have haux := minusOffset hle
    rw [write_utf16be_pair hle] at hn ⊢
    have h0 := lead_surrogate (cp - 65536) (by omega)
    refine (read_utf16be_pair hn ?_).trans (decoded ?_)
    · rw [isSurrogate]
      omega
    · rw [toNat_surrogates_be, h0, byte_at 10 rfl (by omega), trail_surrogate, byte_low]
      omega

private theorem utf16le_roundTrip (hcp : Faithful .utf16le cp)
    (hn : (writeCodepoint .utf16le cp).length ≤ n) :
    readCodepoint .utf16le (writeCodepoint .utf16le cp ++ rest) n =
      some (cp, (writeCodepoint .utf16le cp).length) := by
  obtain ⟨hmax, hsurr⟩ := hcp
  by_cases hle : cp.toNat ≤ 0xFFFF
  · rw [write_utf16le hle] at hn ⊢
    have h1 : (cp >>> 8 &&& 255).toUInt8.toNat = cp.toNat / 2 ^ 8 % 2 ^ 8 :=
      byte_at 8 rfl (by omega)
    refine (read_utf16le hn ?_).trans (decoded ?_)
    · rw [ne_eq, isSurrogate]
      omega
    · rw [toNat_le16, h1, byte_low]
      omega
  · have haux := minusOffset hle
    rw [write_utf16le_pair hle] at hn ⊢
    have h1 := lead_surrogate (cp - 65536) (by omega)
    refine (read_utf16le_pair hn ?_).trans (decoded ?_)
    · rw [isSurrogate]
      omega
    · rw [toNat_surrogates_le, h1, byte_at 10 rfl (by omega), trail_surrogate, byte_low]
      omega

private theorem write_utf8_1 (h : cp.toNat < 0x80) :
    writeCodepoint .utf8 cp = [cp.toUInt8] := by
  have h1 : cp < 0x80 := UInt32.lt_iff_toNat_lt.mpr h
  simp [writeCodepoint, h1]

private theorem write_utf8_2 (hlo : ¬ cp.toNat < 0x80) (h : cp.toNat < 0x800) :
    writeCodepoint .utf8 cp =
      [((192 : UInt32) ||| cp >>> 6).toUInt8, ((128 : UInt32) ||| (cp &&& 63)).toUInt8] := by
  have h1 : ¬ cp < 0x80 := fun hc => hlo (UInt32.lt_iff_toNat_lt.mp hc)
  have h2 : cp < 0x800 := UInt32.lt_iff_toNat_lt.mpr h
  simp [writeCodepoint, h1, h2]

private theorem write_utf8_3 (hlo : ¬ cp.toNat < 0x800) (h : cp.toNat < 0x10000) :
    writeCodepoint .utf8 cp = [((224 : UInt32) ||| cp >>> 12).toUInt8,
      ((128 : UInt32) ||| (cp >>> 6 &&& 63)).toUInt8,
      ((128 : UInt32) ||| (cp &&& 63)).toUInt8] := by
  have h1 : ¬ cp < 0x80 := fun hc =>
    hlo (lt_trans (UInt32.lt_iff_toNat_lt.mp hc) (by decide))
  have h2 : ¬ cp < 0x800 := fun hc => hlo (UInt32.lt_iff_toNat_lt.mp hc)
  have h3 : cp < 0x10000 := UInt32.lt_iff_toNat_lt.mpr h
  simp [writeCodepoint, h1, h2, h3]

private theorem write_utf8_4 (hlo : ¬ cp.toNat < 0x10000) :
    writeCodepoint .utf8 cp = [((240 : UInt32) ||| cp >>> 18).toUInt8,
      ((128 : UInt32) ||| (cp >>> 12 &&& 63)).toUInt8,
      ((128 : UInt32) ||| (cp >>> 6 &&& 63)).toUInt8,
      ((128 : UInt32) ||| (cp &&& 63)).toUInt8] := by
  have h1 : ¬ cp < 0x80 := fun hc =>
    hlo (lt_trans (UInt32.lt_iff_toNat_lt.mp hc) (by decide))
  have h2 : ¬ cp < 0x800 := fun hc =>
    hlo (lt_trans (UInt32.lt_iff_toNat_lt.mp hc) (by decide))
  have h3 : ¬ cp < 0x10000 := fun hc => hlo (UInt32.lt_iff_toNat_lt.mp hc)
  simp [writeCodepoint, h1, h2, h3]

private theorem not_lt8 {b c : UInt8} (h : c.toNat ≤ b.toNat) : ¬ b < c := by
  rw [UInt8.lt_iff_toNat_lt]
  omega

private theorem utf8_roundTrip (hcp : Faithful .utf8 cp) (hn : 0 < n) :
    readCodepoint .utf8 (writeCodepoint .utf8 cp ++ rest) n =
      some (cp, (writeCodepoint .utf8 cp).length) := by
  have hmax : cp.toNat < 2 ^ 21 := hcp
  have e80 : (0x80 : UInt8).toNat = 0x80 := rfl
  have eE0 : (0xE0 : UInt8).toNat = 0xE0 := rfl
  have eF0 : (0xF0 : UInt8).toNat = 0xF0 := rfl
  by_cases h1 : cp.toNat < 0x80
  · have h0 : cp.toUInt8.toNat = cp.toNat := by
      rw [UInt32.toNat_toUInt8, Nat.mod_eq_of_lt (by omega)]
    rw [write_utf8_1 h1]
    refine (read_utf8_1 hn (UInt8.lt_iff_toNat_lt.mpr (by omega))).trans (decoded ?_)
    rw [UInt8.toNat_toUInt32, h0]
  by_cases h2 : cp.toNat < 0x800
  · have h0 : ((192 : UInt32) ||| cp >>> 6).toUInt8.toNat = 192 + cp.toNat / 2 ^ 6 :=
      lead_at 6 6 rfl (by omega) (by decide) (by decide) (by omega)
    rw [write_utf8_2 h1 h2]
    refine (read_utf8_2 hn (not_lt8 (by omega)) (UInt8.lt_iff_toNat_lt.mpr (by omega))).trans
      (decoded ?_)
    rw [toNat_utf8_2, h0, tail_low]
    omega
  by_cases h3 : cp.toNat < 0x10000
  · have h0 : ((224 : UInt32) ||| cp >>> 12).toUInt8.toNat = 224 + cp.toNat / 2 ^ 12 :=
      lead_at 5 12 rfl (by omega) (by decide) (by decide) (by omega)
    rw [write_utf8_3 h2 h3]
    refine (read_utf8_3 hn (not_lt8 (by omega)) (not_lt8 (by omega))
      (UInt8.lt_iff_toNat_lt.mpr (by omega))).trans (decoded ?_)
    rw [toNat_utf8_3, h0, tail_at (s := 6) 6 rfl (by omega), tail_low]
    omega
  · have h0 : ((240 : UInt32) ||| cp >>> 18).toUInt8.toNat = 240 + cp.toNat / 2 ^ 18 :=
      lead_at 3 18 rfl (by omega) (by decide) (by decide) (by omega)
    rw [write_utf8_4 h3]
    refine (read_utf8_4 hn (not_lt8 (by omega)) (not_lt8 (by omega)) (not_lt8 (by omega))).trans
      (decoded ?_)
    rw [toNat_utf8_4, h0, tail_at (s := 12) 12 rfl (by omega), tail_at (s := 6) 6 rfl (by omega),
      tail_low]
    omega

/-- No byte of a UTF-8 sequence looks like one of a mark. -/
theorem utf8_bytes_lt (hcp : Scalar cp) {b : UInt8} (hb : b ∈ writeCodepoint .utf8 cp) :
    b.toNat < 248 := by
  obtain ⟨hmax, -⟩ := hcp
  by_cases h1 : cp.toNat < 0x80
  · rw [write_utf8_1 h1] at hb
    obtain rfl := List.mem_singleton.mp hb
    rw [UInt32.toNat_toUInt8]
    omega
  by_cases h2 : cp.toNat < 0x800
  · have h0 : ((192 : UInt32) ||| cp >>> 6).toUInt8.toNat = 192 + cp.toNat / 2 ^ 6 :=
      lead_at 6 6 rfl (by omega) (by decide) (by decide) (by omega)
    rw [write_utf8_2 h1 h2] at hb
    simp only [List.mem_cons, List.not_mem_nil, or_false] at hb
    rcases hb with rfl | rfl
    · omega
    · rw [tail_low]
      omega
  by_cases h3 : cp.toNat < 0x10000
  · have h0 : ((224 : UInt32) ||| cp >>> 12).toUInt8.toNat = 224 + cp.toNat / 2 ^ 12 :=
      lead_at 5 12 rfl (by omega) (by decide) (by decide) (by omega)
    rw [write_utf8_3 h2 h3] at hb
    simp only [List.mem_cons, List.not_mem_nil, or_false] at hb
    rcases hb with rfl | rfl | rfl
    · omega
    · rw [tail_at 6 rfl (by omega)]
      omega
    · rw [tail_low]
      omega
  · have h0 : ((240 : UInt32) ||| cp >>> 18).toUInt8.toNat = 240 + cp.toNat / 2 ^ 18 :=
      lead_at 3 18 rfl (by omega) (by decide) (by decide) (by omega)
    rw [write_utf8_4 h3] at hb
    simp only [List.mem_cons, List.not_mem_nil, or_false] at hb
    rcases hb with rfl | rfl | rfl | rfl
    · omega
    · rw [tail_at 12 rfl (by omega)]
      omega
    · rw [tail_at 6 rfl (by omega)]
      omega
    · rw [tail_low]
      omega

theorem readCodepoint_faithful {enc : Encoding} (hcp : Faithful enc cp)
    (hn : (writeCodepoint enc cp).length ≤ n) :
    readCodepoint enc (writeCodepoint enc cp ++ rest) n =
      some (cp, (writeCodepoint enc cp).length) := by
  cases enc with
  | utf8 =>
    refine utf8_roundTrip rest hcp (lt_of_lt_of_le ?_ hn)
    unfold writeCodepoint
    simp only [reduceCtorEq, or_self, if_false, if_true]
    split_ifs <;> simp
  | utf16be => exact utf16be_roundTrip rest hcp hn
  | utf16le => exact utf16le_roundTrip rest hcp hn
  | utf32be => exact utf32be_roundTrip rest hn
  | utf32le => exact utf32le_roundTrip rest hn
  | unknown => exact hcp.elim

/-- Decoding what was encoded gives the code point back and consumes exactly its bytes. -/
theorem readCodepoint_writeCodepoint {enc : Encoding} (henc : enc ≠ .unknown) (hcp : Scalar cp)
    (hn : (writeCodepoint enc cp).length ≤ n) :
    readCodepoint enc (writeCodepoint enc cp ++ rest) n =
      some (cp, (writeCodepoint enc cp).length) :=
  readCodepoint_faithful rest (hcp.faithful henc) hn

end RoundTrip

end Orga.Recode
