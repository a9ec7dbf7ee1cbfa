import Mathlib.Algebra.BigOperators.Group.List.Basic
import Mathlib.Data.List.Basic
import Mathlib.Tactic.Ring

/-! The purpose of the allocator, without memory: a list of adjacent blocks, served
first fit, split when the remainder can stand alone and merged on release. A block is
named by its offset, the sum of the sizes before it. -/
namespace Orga.Malloc

/-- A block size: a multiple of 16 with room for two words of user data. -/
abbrev Size := {n : ℕ // 16 ∣ n ∧ 32 ≤ n}

namespace Size

instance : Add Size where
  add s t := ⟨s.1 + t.1, Nat.dvd_add s.2.1 t.2.1, by have := s.2.2; omega⟩

@[simp] theorem val_add (s t : Size) : (s + t).1 = s.1 + t.1 := rfl

def rest (s a : Size) (h : a.1 + 32 ≤ s.1) : Size :=
  ⟨s.1 - a.1, Nat.dvd_sub s.2.1 a.2.1, by omega⟩

end Size

structure Bloque where
  size : Size
  alloc : Bool
  deriving DecidableEq

/-- The bytes that a list of blocks tiles. -/
def total (bs : List Bloque) : ℕ := (bs.map fun b => b.size.1).sum

@[simp] theorem total_nil : total [] = 0 := rfl
@[simp] theorem total_cons (b : Bloque) (bs : List Bloque) :
    total (b :: bs) = b.size.1 + total bs := rfl
@[simp] theorem total_append (bs cs : List Bloque) : total (bs ++ cs) = total bs + total cs := by
  simp [total]

theorem length_le_total (bs : List Bloque) : 32 * bs.length ≤ total bs := by
  induction bs with
  | nil => simp
  | cons b bs ih =>
    have hb := b.size.2.2
    rw [total_cons, List.length_cons]
    omega

theorem dvd_total (bs : List Bloque) : 16 ∣ total bs := by
  induction bs with
  | nil => simp
  | cons b bs ih => exact Nat.dvd_add b.size.2.1 ih

/-- Take `a` bytes of a free block, whole when fewer than 32 bytes would remain. -/
def carve (a : Size) (b : Bloque) : List Bloque :=
  if h : a.1 + 32 ≤ b.size.1 then [⟨a, true⟩, ⟨b.size.rest a h, false⟩] else [⟨b.size, true⟩]

theorem total_carve (a : Size) (b : Bloque) : total (carve a b) = b.size.1 := by
  unfold carve
  split_ifs with h
  · simp [Size.rest]
    omega
  · simp

theorem carve_eq_cons (a : Size) (b : Bloque) : ∃ t rest, carve a b = ⟨t, true⟩ :: rest := by
  unfold carve
  split_ifs
  · exact ⟨_, _, rfl⟩
  · exact ⟨_, _, rfl⟩

/-- The offset of the first free block of at least `a` bytes, and the list after it is
carved. -/
def firstFit (a : Size) : List Bloque → Option (ℕ × List Bloque)
  | [] => none
  | b :: bs =>
    if b.alloc = false ∧ a.1 ≤ b.size.1 then some (0, carve a b ++ bs)
    else (firstFit a bs).map fun r => (b.size.1 + r.1, b :: r.2)

/-- Free bytes appended at the end, merged with a free last block. -/
def appendFree (e : Size) : List Bloque → List Bloque
  | [] => [⟨e, false⟩]
  | [b] => if b.alloc then [b, ⟨e, false⟩] else [⟨b.size + e, false⟩]
  | b :: c :: bs => b :: appendFree e (c :: bs)

def absorb (s : Size) : List Bloque → Size × List Bloque
  | [] => (s, [])
  | b :: bs => if b.alloc then (s, b :: bs) else (s + b.size, bs)

/-- The block between `pre` and `post` becomes free and merges with its free neighbours. -/
def release (pre : List Bloque) (s : Size) (post : List Bloque) : List Bloque :=
  appendFree (absorb s post).1 pre ++ (absorb s post).2

def locate : ℕ → List Bloque → Option (List Bloque × Bloque × List Bloque)
  | _, [] => none
  | o, b :: bs =>
    if o = 0 then some ([], b, bs)
    else if b.size.1 ≤ o then (locate (o - b.size.1) bs).map fun r => (b :: r.1, r.2)
    else none

/-- The block size for `n` bytes: 32, or `n + 16` rounded up to a multiple of 16. -/
def requestSize (n : ℕ) : Size :=
  if h : n ≤ 16 then ⟨32, by decide⟩ else ⟨16 * ((n + 16 + 15) / 16), by omega⟩

theorem le_requestSize (n : ℕ) : n + 16 ≤ (requestSize n).1 := by
  unfold requestSize
  split_ifs <;> dsimp only <;> omega

def Size.growth (a : Size) : Size := if a.1 < 4096 then ⟨4096, by decide⟩ else a

/-- First-fit `malloc` with `room` bytes for blocks: the offset granted and the new list. -/
def abstractMalloc (room : ℕ) (a : Size) (bs : List Bloque) : Option ℕ × List Bloque :=
  match firstFit a bs with
  | some (o, bs') => (some o, bs')
  | none =>
    if total bs + a.growth.1 ≤ room then
      match firstFit a (appendFree a.growth bs) with
      | some (o, bs') => (some o, bs')
      | none => (none, bs)
    else (none, bs)

def abstractFree (o : ℕ) (bs : List Bloque) : List Bloque :=
  match locate o bs with
  | some (pre, b, post) => release pre b.size post
  | none => bs

theorem firstFit_eq_some {a : Size} {bs bs' : List Bloque} {o : ℕ}
    (h : firstFit a bs = some (o, bs')) :
    ∃ pre b post, bs = pre ++ b :: post ∧ o = total pre ∧ bs' = pre ++ carve a b ++ post ∧
      b.alloc = false ∧ a.1 ≤ b.size.1 ∧ ∀ c ∈ pre, ¬ (c.alloc = false ∧ a.1 ≤ c.size.1) := by
  induction bs generalizing o bs' with
  | nil => simp [firstFit] at h
  | cons b bs ih =>
    simp only [firstFit] at h
    split_ifs at h with hb
    · cases Option.some.inj h
      exact ⟨[], b, bs, rfl, rfl, rfl, hb.1, hb.2, by simp⟩
    · obtain ⟨⟨o', cs⟩, hr, heq⟩ := Option.map_eq_some_iff.mp h
      cases heq
      obtain ⟨pre, c, post, rfl, rfl, rfl, hc, ha, hpre⟩ := ih hr
      refine ⟨b :: pre, c, post, rfl, rfl, rfl, hc, ha, ?_⟩
      intro d hd
      rcases List.mem_cons.mp hd with rfl | hd
      · exact hb
      · exact hpre d hd

theorem firstFit_eq_none {a : Size} {bs : List Bloque} :
    firstFit a bs = none ↔ ∀ b ∈ bs, ¬ (b.alloc = false ∧ a.1 ≤ b.size.1) := by
  induction bs with
  | nil => simp [firstFit]
  | cons b bs ih =>
    simp only [firstFit, List.forall_mem_cons, ← ih]
    split_ifs with hb
    · simp [hb]
    · simp only [Option.map_eq_none_iff, hb, not_false_iff, true_and]

theorem firstFit_append_of_none {a : Size} {pre : List Bloque} (post : List Bloque)
    (h : firstFit a pre = none) :
    firstFit a (pre ++ post) = (firstFit a post).map fun r => (total pre + r.1, pre ++ r.2) := by
  induction pre with
  | nil => simp
  | cons b pre ih =>
    have hb := (firstFit_eq_none.mp h) b (by simp)
    have hpre : firstFit a pre = none :=
      firstFit_eq_none.mpr fun c hc => firstFit_eq_none.mp h c (by simp [hc])
    rw [List.cons_append, firstFit, if_neg hb, ih hpre, Option.map_map]
    congr 1
    funext r
    simp [Nat.add_assoc]

theorem appendFree_free (pre : List Bloque) (s e : Size) :
    appendFree e (pre ++ [⟨s, false⟩]) = pre ++ [⟨s + e, false⟩] := by
  induction pre with
  | nil => rfl
  | cons b pre ih =>
    cases pre with
    | nil => rfl
    | cons c pre => simpa [appendFree] using ih

theorem appendFree_alloc (pre : List Bloque) (s e : Size) :
    appendFree e (pre ++ [⟨s, true⟩]) = pre ++ [⟨s, true⟩, ⟨e, false⟩] := by
  induction pre with
  | nil => rfl
  | cons b pre ih =>
    cases pre with
    | nil => rfl
    | cons c pre => simpa [appendFree] using ih

theorem appendFree_prefix (e : Size) (bs : List Bloque) :
    ∃ pre m, appendFree e bs = pre ++ [⟨m, false⟩] ∧ pre <+: bs := by
  rcases List.eq_nil_or_concat' bs with rfl | ⟨pre, ⟨s, alloc⟩, rfl⟩
  · exact ⟨[], e, rfl, List.nil_prefix⟩
  · cases alloc with
    | false => exact ⟨pre, s + e, appendFree_free pre s e, List.prefix_append _ _⟩
    | true =>
      refine ⟨pre ++ [⟨s, true⟩], e, ?_, List.prefix_rfl⟩
      rw [appendFree_alloc, List.append_assoc]
      rfl

theorem total_appendFree (e : Size) (bs : List Bloque) :
    total (appendFree e bs) = total bs + e.1 := by
  rcases List.eq_nil_or_concat' bs with rfl | ⟨pre, ⟨s, alloc⟩, rfl⟩
  · simp [appendFree]
  · cases alloc with
    | false => simp [appendFree_free, Nat.add_assoc]
    | true => simp [appendFree_alloc, Nat.add_assoc]

/-- When nothing fits, the grown list serves the request from its last block. -/
theorem firstFit_appendFree {a e m : Size} {bs pre : List Bloque} (hnone : firstFit a bs = none)
    (hfound : appendFree e bs = pre ++ [⟨m, false⟩]) (ha : a.1 ≤ m.1) :
    firstFit a (appendFree e bs) = some (total pre, pre ++ carve a ⟨m, false⟩) := by
  obtain ⟨pre', m', heq, hpre⟩ := appendFree_prefix e bs
  rw [heq] at hfound
  obtain ⟨rfl, -⟩ := List.append_inj' hfound rfl
  have hpre : firstFit a pre' = none :=
    firstFit_eq_none.mpr fun b hb => firstFit_eq_none.mp hnone b (hpre.subset hb)
  rw [heq, hfound, firstFit_append_of_none _ hpre]
  simp [firstFit, ha]

theorem locate_total (pre : List Bloque) (b : Bloque) (post : List Bloque) :
    locate (total pre) (pre ++ b :: post) = some (pre, b, post) := by
  induction pre with
  | nil => rfl
  | cons c pre ih =>
    have hc := c.size.2.2
    rw [List.cons_append, locate, total_cons, if_neg (by omega), if_pos (by omega),
      Nat.add_sub_cancel_left, ih]
    rfl

theorem locate_eq_some {o : ℕ} {bs pre post : List Bloque} {b : Bloque}
    (h : locate o bs = some (pre, b, post)) : bs = pre ++ b :: post := by
  induction bs generalizing o pre with
  | nil => simp [locate] at h
  | cons c bs ih =>
    simp only [locate] at h
    split_ifs at h
    · cases h
      rfl
    · obtain ⟨⟨pre', d, post'⟩, hr, heq⟩ := Option.map_eq_some_iff.mp h
      cases heq
      rw [ih hr]
      rfl

end Orga.Malloc
