import Mathlib.Algebra.Group.Int.Defs
import Mathlib.Algebra.Group.Nat.Defs
import Mathlib.Data.List.TakeDrop
import Orga.Lib.Loop

/-! `writeall` of `cp57.c`, a loop around `write`. -/
namespace Orga.Cp
open Orga.Loop

def eintr : ℕ := 4

/-- What a call of `write` does: it accepts some bytes, or fails with an error number. -/
inductive WriteResult where
  | accepts (n : ℕ)
  | fails (errno : ℕ)
  deriving DecidableEq

def WriteResult.value : WriteResult → ℤ
  | .accepts n => n
  | .fails _ => -1

def WriteResult.errnoAfter (errno : ℕ) : WriteResult → ℕ
  | .accepts _ => errno
  | .fails e => e

def WriteResult.accepted : WriteResult → ℕ
  | .accepts n => n
  | .fails _ => 0

/-- The file written to: the result of each call, given the number of bytes requested. -/
structure Output where
  write : ℕ → ℕ → WriteResult
  accepts_le : ∀ call count n, 0 < count → write call count = .accepts n → 0 < n ∧ n ≤ count

structure WriteCall where
  pos : ℕ
  count : ℕ
  result : WriteResult
  deriving DecidableEq

/-- The variables of `writeall` at the head of its loop, and the calls made so far. -/
structure WriteLoop where
  pos : ℕ
  errno : ℕ
  calls : List WriteCall

structure WriteReturn where
  value : ℕ
  calls : List WriteCall
  deriving DecidableEq

/-- The body of the loop and its condition. -/
def writeallStep (out : Output) (count : ℕ) (s : WriteLoop) : WriteLoop ⊕ WriteReturn :=
  let result := out.write s.calls.length count
  let bytesWritten := result.value
  let errno := result.errnoAfter s.errno
  let calls := s.calls ++ [⟨s.pos, count, result⟩]
  if bytesWritten = -1 ∧ errno ≠ eintr then
    .inr ⟨s.pos, calls⟩
  else
    let pos := if bytesWritten ≠ -1 then s.pos + bytesWritten.toNat else s.pos
    if pos < count ∧ bytesWritten < 0 then .inl ⟨pos, errno, calls⟩ else .inr ⟨0, calls⟩

def Writeall (out : Output) (errno count : ℕ) (r : WriteReturn) : Prop :=
  Returns (writeallStep out count) ⟨0, errno, []⟩ r

def delivered (buf : List UInt8) (calls : List WriteCall) : List UInt8 :=
  calls.flatMap fun call => (buf.drop call.pos).take call.result.accepted

/-- What `writeall` promises of its value and its calls. -/
structure WriteReturn.Kept (buf : List UInt8) (r : WriteReturn) : Prop where
  zero_iff : r.value = 0 ↔ delivered buf r.calls = buf
  length_eq : delivered buf r.calls ≠ buf → r.value = (delivered buf r.calls).length ∧
    delivered buf r.calls <+: buf
  inside : ∀ call ∈ r.calls, call.pos + call.count ≤ buf.length

section Interrupted
variable {out : Output} {count i k : ℕ}

def interruptedCalls (count i : ℕ) : List WriteCall :=
  List.replicate i ⟨0, count, .fails eintr⟩

theorem delivered_interrupted (buf : List UInt8) (calls : List WriteCall) :
    delivered buf (interruptedCalls count i ++ calls) = delivered buf calls := by
  rw [delivered, List.flatMap_append, interruptedCalls, List.flatMap_replicate]
  simp [WriteResult.accepted, delivered]

theorem writeallStep_interrupted {errno : ℕ} (hcount : 0 < count)
    (hwrite : out.write i count = .fails eintr) :
    writeallStep out count ⟨0, errno, interruptedCalls count i⟩ =
      .inl ⟨0, eintr, interruptedCalls count (i + 1)⟩ := by
  have hlen : (interruptedCalls count i).length = i := List.length_replicate
  have hcalls : interruptedCalls count (i + 1) =
      interruptedCalls count i ++ [⟨0, count, .fails eintr⟩] := List.replicate_succ'
  simp [writeallStep, hlen, hwrite, hcalls, hcount, WriteResult.value, WriteResult.errnoAfter]

theorem writeallStep_accepts {errno : ℕ} (hwrite : out.write i count = .accepts k) :
    writeallStep out count ⟨0, errno, interruptedCalls count i⟩ =
      .inr ⟨0, interruptedCalls count i ++ [⟨0, count, .accepts k⟩]⟩ := by
  have hlen : (interruptedCalls count i).length = i := List.length_replicate
  have hvalue : ¬ (k : ℤ) = -1 := by omega
  simp [writeallStep, hlen, hwrite, WriteResult.value, hvalue]

/-- Whatever the number of interruptions, `writeall` returns `0` after the first call that
accepts bytes. -/
theorem writeall_returns (errno : ℕ) (hcount : 0 < count)
    (hfirst : out.write i count = .accepts k) (hint : ∀ j < i, out.write j count = .fails eintr) :
    Writeall out errno count ⟨0, interruptedCalls count i ++ [⟨0, count, .accepts k⟩]⟩ := by
  have hfrom : ∀ m j errno, j + m = i → Returns (writeallStep out count)
      ⟨0, errno, interruptedCalls count j⟩
      ⟨0, interruptedCalls count i ++ [⟨0, count, .accepts k⟩]⟩ := by
    intro m
    induction m with
    | zero =>
      rintro j errno rfl
      exact .done (writeallStep_accepts hfirst)
    | succ m ih =>
      intro j errno hj
      exact .next (writeallStep_interrupted hcount (hint j (by omega))) (ih (j + 1) eintr (by omega))
  exact hfrom i 0 errno (by omega)

end Interrupted

/-- `writeall` keeps its promise exactly when the first call that is not interrupted accepts
the whole buffer: it takes any other number of bytes for all of them. -/
theorem writeall_kept (out : Output) {buf : List UInt8} {errno i k : ℕ} (hbuf : buf ≠ [])
    (hfirst : out.write i buf.length = .accepts k)
    (hint : ∀ j < i, out.write j buf.length = .fails eintr) :
    (∃ r, Writeall out errno buf.length r ∧ r.Kept buf) ↔ k = buf.length := by
  have hpos : 0 < buf.length := List.length_pos_iff.mpr hbuf
  have hreturns := writeall_returns errno hpos hfirst hint
  have hdelivered : delivered buf (interruptedCalls buf.length i ++
      [⟨0, buf.length, .accepts k⟩]) = buf.take k := by
    rw [delivered_interrupted]
    simp [delivered, WriteResult.accepted]
  constructor
  · rintro ⟨r, hr, hkept⟩
    obtain rfl := hr.unique hreturns
    have hall := hkept.zero_iff.mp rfl
    rw [hdelivered, List.take_eq_self_iff] at hall
    have hle := (out.accepts_le i buf.length k hpos hfirst).2
    omega
  · rintro rfl
    refine ⟨_, hreturns, ?_, ?_, ?_⟩
    · simp [hdelivered]
    · intro hne
      rw [hdelivered, List.take_length] at hne
      exact absurd rfl hne
    · intro call hcall
      simp only [interruptedCalls, List.mem_append, List.mem_replicate, List.mem_singleton] at hcall
      obtain ⟨-, rfl⟩ | rfl := hcall
      · exact Nat.le_of_eq (Nat.zero_add _)
      · exact Nat.le_of_eq (Nat.zero_add _)

def WriteResult.limit (most : ℕ) : WriteResult → WriteResult
  | .accepts n => .accepts (max 1 (min n most))
  | .fails e => .fails e

theorem limit_le {result : WriteResult} {most n : ℕ} (hmost : 0 < most)
    (h : result.limit most = .accepts n) : 0 < n ∧ n ≤ most := by
  cases result with
  | accepts m =>
    cases h
    omega
  | fails e => cases h

def Output.ofScript (script : ℕ → WriteResult) : Output where
  write call count := (script call).limit count
  accepts_le _ _ _ hcount h := limit_le hcount h

/-- One byte of two is written, and `0` returned. -/
theorem writeall_short :
    ¬ ∃ r, Writeall (.ofScript fun _ => .accepts 1) 0 2 r ∧ r.Kept [7, 8] := by
  rintro ⟨r, hr, hkept⟩
  have hreturns : Writeall (.ofScript fun _ => .accepts 1) 0 2 ⟨0, [⟨0, 2, .accepts 1⟩]⟩ :=
    .done rfl
  obtain rfl := hr.unique hreturns
  exact absurd (hkept.zero_iff.mp rfl) (by decide)

/-- Two bytes written at the second attempt. -/
theorem writeall_kept_two :
    ∃ r, Writeall (.ofScript fun call => if call = 0 then .fails eintr else .accepts 2) 0 2 r ∧
      r.Kept [7, 8] :=
  (writeall_kept (.ofScript fun call => if call = 0 then .fails eintr else .accepts 2)
    (List.cons_ne_nil 7 [8]) (i := 1) rfl (fun j hj => by
      obtain rfl : j = 0 := by omega
      rfl)).mpr rfl

end Orga.Cp
