import Mathlib.Algebra.Order.Ring.Nat
import Mathlib.Tactic.Ring

/-! Little-endian integers in a byte-addressed memory. The width is a parameter;
addresses are unbounded, so a caller adds its own bounds. -/
namespace Orga.LittleEndian

abbrev Memory := ℕ → UInt8

/-- The `k`-byte integer whose least significant byte is at address `a`. -/
def readLE (m : Memory) (a : ℕ) : ℕ → ℕ
  | 0 => 0
  | k + 1 => (m a).toNat + 256 * readLE m (a + 1) k

/-- Store the low `k` bytes of `v` from address `a` on. -/
def writeLE (m : Memory) (a k v : ℕ) : Memory := fun x =>
  if a ≤ x ∧ x < a + k then UInt8.ofNat (v / 256 ^ (x - a)) else m x

theorem writeLE_outside (m : Memory) {a k x : ℕ} (v : ℕ) (hx : x < a ∨ a + k ≤ x) :
    writeLE m a k v x = m x := by
  unfold writeLE
  rw [if_neg (by omega)]

theorem readLE_congr {m m' : Memory} {a k : ℕ} (h : ∀ x, a ≤ x → x < a + k → m x = m' x) :
    readLE m a k = readLE m' a k := by
  induction k generalizing a with
  | zero => rfl
  | succ k ih =>
    have hhead : m a = m' a := h a le_rfl (by omega)
    have htail := ih (a := a + 1) (fun x h1 h2 => h x (by omega) (by omega))
    simp only [readLE, hhead, htail]

theorem readLE_lt (m : Memory) (a k : ℕ) : readLE m a k < 256 ^ k := by
  induction k generalizing a with
  | zero => simp [readLE]
  | succ k ih =>
    have htail := ih (a + 1)
    have hbyte := (m a).toNat_lt
    rw [readLE, pow_succ]
    omega

private theorem readLE_digits {m : Memory} {a k v : ℕ}
    (h : ∀ i < k, m (a + i) = UInt8.ofNat (v / 256 ^ i)) : readLE m a k = v % 256 ^ k := by
  induction k generalizing a v with
  | zero => simp [readLE, Nat.mod_one]
  | succ k ih =>
    have hhead : (m a).toNat = v % 256 := by
      have := h 0 (by omega)
      simp only [Nat.add_zero, pow_zero, Nat.div_one] at this
      simp [this]
    have htail : readLE m (a + 1) k = v / 256 % 256 ^ k := by
      apply ih
      intro i hi
      rw [show a + 1 + i = a + (i + 1) by omega, h (i + 1) (by omega), pow_succ',
        Nat.div_div_eq_div_mul]
    rw [readLE, hhead, htail, pow_succ', Nat.mod_mul]

theorem readLE_writeLE (m : Memory) (a k v : ℕ) :
    readLE (writeLE m a k v) a k = v % 256 ^ k := by
  apply readLE_digits
  intro i hi
  unfold writeLE
  rw [if_pos (by omega), Nat.add_sub_cancel_left]

theorem readLE_writeLE_of_disjoint (m : Memory) {a k b l : ℕ} (v : ℕ)
    (hd : b + l ≤ a ∨ a + k ≤ b) : readLE (writeLE m a k v) b l = readLE m b l :=
  readLE_congr fun _ h1 h2 => writeLE_outside m v (by omega)

end Orga.LittleEndian
