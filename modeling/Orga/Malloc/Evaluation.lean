import Orga.Lib.Replay
import Orga.Malloc.Mm
import Orga.Malloc.Ranges

/-! The three evaluations of `mdriver.c` of the package that it is linked with. What the driver
prints besides `malloc_error` is left out, and so is the quotient of doubles that
`eval_mm_util` returns: its two integers are kept. -/
namespace Orga.Malloc
open Orga.Replay

/-- The functions of `mm.h`. -/
structure Package where
  mmInit : Heap → Except Fault (Int32 × Heap)
  mmMalloc : Heap → UInt64 → Except Fault (UInt64 × Heap)
  mmFree : Heap → UInt64 → Except Fault Heap
  mmRealloc : Heap → UInt64 → UInt64 → Except Fault (UInt64 × Heap)

def mm : Package where
  mmInit h := (mmInit h).map fun r => (Int32.ofNat r.1, r.2)
  mmMalloc := mmMalloc
  mmFree := mmFree
  mmRealloc := mmRealloc

inductive OpType where
  | alloc
  | free
  | realloc
  deriving DecidableEq, Repr

structure TraceOp where
  type : OpType
  index : Int32
  size : Int32
  deriving DecidableEq, Repr

/-- `num_ops` is the length of `ops`; the arrays of pointers and sizes are in the driver. -/
structure Trace where
  numIds : Int32
  ops : List TraceOp
  deriving DecidableEq, Repr

/-- `LINENUM` -/
def lineNum (i : ℕ) : ℕ := i + 5

/-- One call of `malloc_error`. -/
structure Report where
  tracenum : ℕ
  line : ℕ
  error : MallocError
  deriving DecidableEq, Repr

/-- The heap, the range list, the errors so far, and the arrays `blocks` and `block_sizes` of the
trace, whose slots hold nothing at first. -/
structure Mdriver where
  heap : Heap
  ranges : List Range
  errors : List Report
  blocks : ℕ → Option UInt64
  blockSizes : ℕ → Option UInt64

/-- A call that may be undefined. -/
def call {β : Type} : Except Fault β → Except Stop β := Except.mapError .fault

theorem map_eq_ok {ε β γ : Type} {x : Except ε β} {f : β → γ} {c : γ} (h : x.map f = .ok c) :
    ∃ b, x = .ok b ∧ f b = c := by
  cases x with
  | error e => cases h
  | ok b =>
    cases h
    exact ⟨b, rfl, rfl⟩

def slot (trace : Trace) (index : Int32) : Except Stop ℕ :=
  if 0 ≤ index ∧ index < trace.numIds then .ok index.toInt.toNat else .error (.slot index)

def load (a : ℕ → Option UInt64) (k : ℕ) : Except Stop UInt64 :=
  match a k with
  | some v => .ok v
  | none => .error (.unset k)

def Mdriver.mallocError (d : Mdriver) (tracenum opnum : ℕ) (e : MallocError) : Mdriver :=
  { d with errors := d.errors ++ [⟨tracenum, lineNum opnum, e⟩] }

def Mdriver.remember (d : Mdriver) (k : ℕ) (p : UInt64) (size : Int32) : Mdriver :=
  { d with
    blocks := Function.update d.blocks k (some p)
    blockSizes := Function.update d.blockSizes k (some (sizeT size)) }

/-- `index & 0xFF` as the byte that `memset` writes. -/
def lowByte (index : Int32) : UInt8 := (index &&& 0xFF).toUInt32.toUInt8

def memset (h : Heap) (p : UInt64) (c : UInt8) (n : UInt64) : Except Fault Heap :=
  if InHeap h p.toNat n.toNat then
    .ok { h with bytes := fun x => if p.toNat ≤ x ∧ x < p.toNat + n.toNat then c else h.bytes x }
  else .error (.access p)

/-- The loop that looks for the old data from byte `j` on, for `n` bytes. A `char` is signed, and
it is compared with an `int` from 0 to 255. -/
def preserved (h : Heap) (newp : UInt64) (index : Int32) (j : ℕ) : ℕ → Except Fault Bool
  | 0 => .ok true
  | n + 1 =>
    if ¬ InHeap h (newp.toNat + j) 1 then .error (.access newp)
    else if (h.bytes (newp.toNat + j)).toInt8.toInt32 != (index &&& 0xFF) then .ok false
    else preserved h newp index (j + 1) n

section Evaluation
variable (pkg : Package) (trace : Trace) (tracenum : ℕ)

/-- One request of `eval_mm_valid`; the result `false` is its `return 0`. -/
def validOp (i : ℕ) (op : TraceOp) (d : Mdriver) : Except Stop (Bool × Mdriver) := do
  match op.type with
  | .alloc =>
    let (p, heap) ← call (pkg.mmMalloc d.heap (sizeT op.size))
    let d := { d with heap := heap }
    if p = NULL then
      return (false, d.mallocError tracenum i .mallocFailed)
    match ← addRange d.heap d.ranges p op.size with
    | .error e => return (false, d.mallocError tracenum i e)
    | .ok ranges =>
      let d := { d with ranges := ranges }
      let heap ← call (memset d.heap p (lowByte op.index) (sizeT op.size))
      let d := { d with heap := heap }
      let k ← slot trace op.index
      return (true, d.remember k p op.size)
  | .realloc =>
    let k ← slot trace op.index
    let oldp ← load d.blocks k
    let (newp, heap) ← call (pkg.mmRealloc d.heap oldp (sizeT op.size))
    let d := { d with heap := heap }
    if newp = NULL then
      return (false, d.mallocError tracenum i .reallocFailed)
    let d := { d with ranges := removeRange d.ranges oldp }
    match ← addRange d.heap d.ranges newp op.size with
    | .error e => return (false, d.mallocError tracenum i e)
    | .ok ranges =>
      let d := { d with ranges := ranges }
      let oldsize := (← load d.blockSizes k).toUInt32.toInt32
      let oldsize := if op.size < oldsize then op.size else oldsize
      if ← call (preserved d.heap newp op.index 0 oldsize.toInt.toNat) then
        let heap ← call (memset d.heap newp (lowByte op.index) (sizeT op.size))
        let d := { d with heap := heap }
        return (true, d.remember k newp op.size)
      else
        return (false, d.mallocError tracenum i .notPreserved)
  | .free =>
    let k ← slot trace op.index
    let p ← load d.blocks k
    let d := { d with ranges := removeRange d.ranges p }
    let heap ← call (pkg.mmFree d.heap p)
    return (true, { d with heap := heap })

def validOps : ℕ → List TraceOp → Mdriver → Except Stop (Bool × Mdriver)
  | _, [], d => .ok (true, d)
  | i, op :: ops, d => do
    let (ok, d) ← validOp pkg trace tracenum i op d
    if ok then validOps (i + 1) ops d else return (false, d)

def evalMmValid (d : Mdriver) : Except Stop (Bool × Mdriver) := do
  let d := { d with heap := memResetBrk d.heap, ranges := clearRanges d.ranges }
  let (r, heap) ← call (pkg.mmInit d.heap)
  let d := { d with heap := heap }
  if r < 0 then
    return (false, d.mallocError tracenum 0 .initFailed)
  validOps pkg trace tracenum 0 trace.ops d

/-- The driver with the two counters of `eval_mm_util`. -/
structure Tally where
  driver : Mdriver
  totalSize : Int32
  maxTotalSize : Int32

def Tally.add (t : Tally) (d : Mdriver) (bytes : Int32) : Tally :=
  let totalSize := t.totalSize + bytes
  ⟨d, totalSize, if totalSize > t.maxTotalSize then totalSize else t.maxTotalSize⟩

def utilOp (op : TraceOp) (t : Tally) : Except Stop Tally := do
  let d := t.driver
  match op.type with
  | .alloc =>
    let (p, heap) ← call (pkg.mmMalloc d.heap (sizeT op.size))
    let d := { d with heap := heap }
    if p = NULL then
      throw (.appError "mm_malloc failed in eval_mm_util")
    let k ← slot trace op.index
    return t.add (d.remember k p op.size) op.size
  | .realloc =>
    let k ← slot trace op.index
    let oldsize := (← load d.blockSizes k).toUInt32.toInt32
    let oldp ← load d.blocks k
    let (newp, heap) ← call (pkg.mmRealloc d.heap oldp (sizeT op.size))
    let d := { d with heap := heap }
    if newp = NULL then
      throw (.appError "mm_realloc failed in eval_mm_util")
    return t.add (d.remember k newp op.size) (op.size - oldsize)
  | .free =>
    let k ← slot trace op.index
    let size := (← load d.blockSizes k).toUInt32.toInt32
    let p ← load d.blocks k
    let heap ← call (pkg.mmFree d.heap p)
    return { t with driver := { d with heap := heap }, totalSize := t.totalSize - size }

def utilOps : List TraceOp → Tally → Except Stop Tally
  | [], t => .ok t
  | op :: ops, t => do utilOps ops (← utilOp pkg trace op t)

/-- `(double)max_total_size / (double)mem_heapsize()` -/
structure Utilization where
  maxTotalSize : Int32
  heapsize : UInt64
  deriving DecidableEq, Repr

def evalMmUtil (d : Mdriver) : Except Stop (Utilization × Mdriver) := do
  let d := { d with heap := memResetBrk d.heap }
  let (r, heap) ← call (pkg.mmInit d.heap)
  let d := { d with heap := heap }
  if r < 0 then
    throw (.appError "mm_init failed in eval_mm_util")
  let t ← utilOps pkg trace trace.ops ⟨d, 0, 0⟩
  return (⟨t.maxTotalSize, memHeapsize t.driver.heap⟩, t.driver)

def speedOp (op : TraceOp) (d : Mdriver) : Except Stop Mdriver := do
  match op.type with
  | .alloc =>
    let (p, heap) ← call (pkg.mmMalloc d.heap (sizeT op.size))
    let d := { d with heap := heap }
    if p = NULL then
      throw (.appError "mm_malloc error in eval_mm_speed")
    let k ← slot trace op.index
    return { d with blocks := Function.update d.blocks k (some p) }
  | .realloc =>
    let k ← slot trace op.index
    let oldp ← load d.blocks k
    let (newp, heap) ← call (pkg.mmRealloc d.heap oldp (sizeT op.size))
    let d := { d with heap := heap }
    if newp = NULL then
      throw (.appError "mm_realloc error in eval_mm_speed")
    return { d with blocks := Function.update d.blocks k (some newp) }
  | .free =>
    let k ← slot trace op.index
    let block ← load d.blocks k
    let heap ← call (pkg.mmFree d.heap block)
    return { d with heap := heap }

def speedOps : List TraceOp → Mdriver → Except Stop Mdriver
  | [], d => .ok d
  | op :: ops, d => do speedOps ops (← speedOp pkg trace op d)

def evalMmSpeed (d : Mdriver) : Except Stop Mdriver := do
  let d := { d with heap := memResetBrk d.heap }
  let (r, heap) ← call (pkg.mmInit d.heap)
  let d := { d with heap := heap }
  if r < 0 then
    throw (.appError "mm_init failed in eval_mm_speed")
  speedOps pkg trace trace.ops d

/-- The loop of `ftimer_gettod` around the function that is timed. -/
def timedSpeed : ℕ → Mdriver → Except Stop Mdriver
  | 0, d => .ok d
  | n + 1, d => do timedSpeed n (← evalMmSpeed pkg trace d)

end Evaluation

def TraceOp.request (op : TraceOp) : Request ℕ UInt64 :=
  match op.type with
  | .alloc => .alloc op.index.toInt.toNat (sizeT op.size)
  | .realloc => .realloc op.index.toInt.toNat (sizeT op.size)
  | .free => .free op.index.toInt.toNat

def TraceOp.Proper (numIds : Int32) (op : TraceOp) : Prop :=
  0 ≤ op.index ∧ op.index < numIds ∧ (op.type ≠ .free → 0 < op.size)

instance (numIds : Int32) (op : TraceOp) : Decidable (op.Proper numIds) :=
  inferInstanceAs (Decidable (_ ∧ _ ∧ _))

/-- Indices and sizes are in range, and only blocks that are allocated are resized or freed. -/
def Trace.WellFormed (trace : Trace) : Prop :=
  (∀ op ∈ trace.ops, op.Proper trace.numIds) ∧
    admissible (fun _ => false) (trace.ops.map TraceOp.request) = true

instance (trace : Trace) : Decidable trace.WellFormed := inferInstanceAs (Decidable (_ ∧ _))

end Orga.Malloc
