import Orga.Lib.LittleEndian

/-! The memory system of `memlib.c` and the words of the heap. Pointers and
`uint64_t` are 64-bit words with wrapping arithmetic. A load or store outside
`[mem_start_brk, mem_brk)` is a fault, so a call that ends normally touched the
heap only. `errno` and the message on standard error are left out. -/
namespace Orga.Malloc
open Orga.LittleEndian

/-- What C leaves undefined in a call of the package. -/
inductive Fault where
  | access (p : UInt64)
  | overlap
  | diverges
  deriving DecidableEq, Repr

/-- One line printed by `check_heap`. -/
inductive Notice where
  | bloque (line : UInt64)
  | alineado (resto : UInt64)
  | tamanioHeader (size : UInt64)
  | tamanioFooter (size : UInt64)
  | bitHeader (alloc : Bool)
  | bitFooter (alloc : Bool)
  deriving DecidableEq, Repr

/-- The static variables of `memlib.c` and `mm.c`, the bytes they point into and the
lines printed so far. -/
structure Heap where
  memStartBrk : UInt64
  memBrk : UInt64
  memMaxAddr : UInt64
  heapListp : UInt64
  bytes : Memory
  output : List Notice

def WSIZE : UInt64 := 8
def DSIZE : UInt64 := 16
def CHUNKSIZE : UInt64 := 4096
def MAX_HEAP : UInt64 := 20 * 1048576
def NULL : UInt64 := 0
/-- `(void *)-1` -/
def SBRK_FAILED : UInt64 := 0xFFFFFFFFFFFFFFFF

/-- `start` is what the C library's `malloc` returned; its failure ends the program. -/
def memInit (h : Heap) (start : UInt64) : Heap :=
  { h with memStartBrk := start, memMaxAddr := start + MAX_HEAP, memBrk := start }

def memResetBrk (h : Heap) : Heap := { h with memBrk := h.memStartBrk }

def memSbrk (h : Heap) (incr : Int32) : UInt64 × Heap :=
  if incr < 0 ∨ h.memBrk + incr.toInt64.toUInt64 > h.memMaxAddr then (SBRK_FAILED, h)
  else (h.memBrk, { h with memBrk := h.memBrk + incr.toInt64.toUInt64 })

def memHeapLo (h : Heap) : UInt64 := h.memStartBrk
def memHeapHi (h : Heap) : UInt64 := h.memBrk - 1
def memHeapsize (h : Heap) : UInt64 := h.memBrk - h.memStartBrk

def InHeap (h : Heap) (a n : ℕ) : Prop := h.memStartBrk.toNat ≤ a ∧ a + n ≤ h.memBrk.toNat

instance (h : Heap) (a n : ℕ) : Decidable (InHeap h a n) := inferInstanceAs (Decidable (_ ∧ _))

/-- `*(uint64_t *)header` -/
def obtenerWord (h : Heap) (header : UInt64) : Except Fault UInt64 :=
  if InHeap h header.toNat 8 then .ok (UInt64.ofNat (readLE h.bytes header.toNat 8))
  else .error (.access header)

/-- `*(uint64_t *)header = val` -/
def escribirHeader (h : Heap) (header val : UInt64) : Except Fault Heap :=
  if InHeap h header.toNat 8 then .ok { h with bytes := writeLE h.bytes header.toNat 8 val.toNat }
  else .error (.access header)

def copyBytes (m : Memory) (dest src n : ℕ) : Memory := fun x =>
  if dest ≤ x ∧ x < dest + n then m (src + (x - dest)) else m x

def memcpy (h : Heap) (dest src n : UInt64) : Except Fault Heap :=
  if ¬ InHeap h dest.toNat n.toNat then .error (.access dest)
  else if ¬ InHeap h src.toNat n.toNat then .error (.access src)
  else if dest.toNat < src.toNat + n.toNat ∧ src.toNat < dest.toNat + n.toNat then .error .overlap
  else .ok { h with bytes := copyBytes h.bytes dest.toNat src.toNat n.toNat }

end Orga.Malloc
