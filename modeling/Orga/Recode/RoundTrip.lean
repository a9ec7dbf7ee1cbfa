import Orga.Recode.Program
import Orga.Recode.Scalar

/-! Whole texts: what `ucs4_to_dest` writes, `orig_to_ucs4` reads back. -/
namespace Orga.Recode

/-- The text converted in one buffer with room for `room` code points. -/
def convert (orig dest : Encoding) (room : ℕ) (text : List UInt8) : Option (List UInt8) := do
  let (points, _) ← origToUcs4 orig text text.length room
  return ucs4ToDest dest points

theorem ucs4ToDest_eq_flatMap (enc : Encoding) (points : List UInt32) :
    ucs4ToDest enc points = points.flatMap (writeCodepoint enc) := by
  induction points with
  | nil => rfl
  | cons cp points ih => rw [ucs4ToDest, ih, List.flatMap_cons]

theorem ucs4ToDest_append (enc : Encoding) (xs ys : List UInt32) :
    ucs4ToDest enc (xs ++ ys) = ucs4ToDest enc xs ++ ucs4ToDest enc ys := by
  simp only [ucs4ToDest_eq_flatMap, List.flatMap_append]

section Lengths
variable {enc : Encoding}

theorem writeCodepoint_length_pos (henc : enc ≠ .unknown) (cp : UInt32) :
    0 < (writeCodepoint enc cp).length := by
  cases enc with
  | unknown => exact absurd rfl henc
  | utf32be => exact Nat.succ_pos _
  | utf32le => exact Nat.succ_pos _
  | utf16be => by_cases h : cp ≤ 0xFFFF <;> simp [writeCodepoint, h]
  | utf16le => by_cases h : cp ≤ 0xFFFF <;> simp [writeCodepoint, h]
  | utf8 =>
    simp only [writeCodepoint, reduceCtorEq, or_self, if_false, if_true]
    split_ifs <;> simp

theorem writeCodepoint_length_le (enc : Encoding) (cp : UInt32) :
    (writeCodepoint enc cp).length ≤ 4 := by
  unfold writeCodepoint
  split_ifs <;> simp

theorem ucs4ToDest_length_le (enc : Encoding) (points : List UInt32) :
    (ucs4ToDest enc points).length ≤ 4 * points.length := by
  induction points with
  | nil => simp [ucs4ToDest]
  | cons cp points ih =>
    have hcp := writeCodepoint_length_le enc cp
    rw [ucs4ToDest, List.length_append, List.length_cons]
    omega

theorem le_ucs4ToDest_length (henc : enc ≠ .unknown) (points : List UInt32) :
    points.length ≤ (ucs4ToDest enc points).length := by
  induction points with
  | nil => simp
  | cons cp points ih =>
    have hcp := writeCodepoint_length_pos henc cp
    rw [ucs4ToDest, List.length_append, List.length_cons]
    omega

end Lengths

theorem readCodepoint_zero (enc : Encoding) (buf : List UInt8) :
    readCodepoint enc buf 0 = some (0, 0) := by
  cases enc <;> simp [readCodepoint]

theorem sizeSub_of_le {a b : ℕ} (h : b ≤ a) : sizeSub a b = a - b := if_pos h

theorem origToUcs4_append {enc : Encoding} (henc : enc ≠ .unknown) {points : List UInt32}
    (hpoints : ∀ cp ∈ points, Scalar cp) (rest : List UInt8) (n room : ℕ) :
    origToUcs4 enc (ucs4ToDest enc points ++ rest) ((ucs4ToDest enc points).length + n)
        (room + points.length) =
      (origToUcs4 enc rest n room).map fun r => (points ++ r.1, r.2) := by
  induction points with
  | nil => simp [ucs4ToDest]
  | cons cp points ih =>
    have hread := readCodepoint_writeCodepoint (n := (ucs4ToDest enc (cp :: points)).length + n)
      (ucs4ToDest enc points ++ rest) henc (hpoints cp (by simp))
      (by rw [ucs4ToDest, List.length_append]; omega)
    have hpos := writeCodepoint_length_pos henc cp
    have hsub : sizeSub ((ucs4ToDest enc (cp :: points)).length + n)
        (writeCodepoint enc cp).length = (ucs4ToDest enc points).length + n := by
      rw [ucs4ToDest, List.length_append, sizeSub_of_le (by omega)]
      omega
    rw [List.length_cons, ← Nat.add_assoc, origToUcs4]
    rw [show ucs4ToDest enc (cp :: points) ++ rest =
      writeCodepoint enc cp ++ (ucs4ToDest enc points ++ rest) by simp [ucs4ToDest], hread]
    simp only [Option.bind_eq_bind, Option.bind_some, gt_iff_lt, hpos, if_true, hsub,
      List.drop_left, ih fun c hc => hpoints c (by simp [hc])]
    cases origToUcs4 enc rest n room <;> rfl

/-- Every text survives: decoded after encoding it is the same, and so are its bytes after
a conversion to another encoding and back. -/
theorem roundTrip {enc : Encoding} (henc : enc ≠ .unknown) {points : List UInt32}
    (hpoints : ∀ cp ∈ points, Scalar cp) {room : ℕ} (hroom : points.length < room) :
    (∀ rest, origToUcs4 enc (ucs4ToDest enc points ++ rest) (ucs4ToDest enc points).length room =
      some (points, 0)) ∧
    ∀ other, other ≠ .unknown →
      (convert enc other room (ucs4ToDest enc points) >>= convert other enc room) =
        some (ucs4ToDest enc points) := by
  obtain ⟨k, rfl⟩ := Nat.exists_eq_add_of_lt hroom
  have hread : ∀ e, e ≠ .unknown → ∀ rest, origToUcs4 e (ucs4ToDest e points ++ rest)
      (ucs4ToDest e points).length (points.length + k + 1) = some (points, 0) := by
    intro e he rest
    have h := origToUcs4_append he hpoints rest 0 (k + 1)
    rw [Nat.add_zero, show k + 1 + points.length = points.length + k + 1 by omega] at h
    rw [h, origToUcs4, readCodepoint_zero]
    simp
  refine ⟨hread enc henc, fun other hother => ?_⟩
  have h1 := hread enc henc []
  have h2 := hread other hother []
  rw [List.append_nil] at h1 h2
  simp only [convert, h1, h2, Option.bind_eq_bind, Option.bind_some, Option.pure_def]

def samplePoints : List UInt32 := [0, 0x41, 0xE9, 0xD7FF, 0xE000, 0xFFFF, 0x10000, 0x10FFFF]

theorem roundTrip_samplePoints :
    (∀ rest, origToUcs4 .utf16le (ucs4ToDest .utf16le samplePoints ++ rest)
      (ucs4ToDest .utf16le samplePoints).length 9 = some (samplePoints, 0)) ∧
    ∀ other, other ≠ .unknown →
      (convert .utf16le other 9 (ucs4ToDest .utf16le samplePoints) >>= convert other .utf16le 9) =
        some (ucs4ToDest .utf16le samplePoints) :=
  roundTrip (by decide) (by simp [samplePoints, Scalar]) (by decide)

end Orga.Recode
