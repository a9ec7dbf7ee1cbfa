import Orga.Malloc.Memlib

/-! The implicit-list allocator of `mm.c`, function by function. State is threaded
explicitly; `static` functions keep their names. -/
namespace Orga.Malloc

def max (x y : UInt64) : UInt64 := if x > y then x else y

def packWord (size alloc : UInt64) : UInt64 := size ||| alloc

def blockSize (h : Heap) (p : UInt64) : Except Fault UInt64 := do
  let w ← obtenerWord h p
  return w &&& ~~~0xF

def isAllocated (h : Heap) (p : UInt64) : Except Fault Bool := do
  let w ← obtenerWord h p
  return w &&& 0x1 != 0

def obtenerHeader (block : UInt64) : UInt64 := block - WSIZE

def obtenerFooter (h : Heap) (block : UInt64) : Except Fault UInt64 := do
  let size ← blockSize h (obtenerHeader block)
  return block + size - DSIZE

def proximoBloque (h : Heap) (block : UInt64) : Except Fault UInt64 := do
  let size ← blockSize h (block - WSIZE)
  return block + size

def bloqueAnterior (h : Heap) (block : UInt64) : Except Fault UInt64 := do
  let size ← blockSize h (block - DSIZE)
  return block - size

/-- The printed lines of one call; the first complaint is preceded by the block. -/
def checkHeap (h : Heap) (line : UInt64) : Except Fault Heap := do
  let headerSize ← blockSize h (obtenerHeader line)
  let footerSize ← blockSize h (← obtenerFooter h line)
  let headerAlloc ← isAllocated h (obtenerHeader line)
  let footerAlloc ← isAllocated h (← obtenerFooter h line)
  let alineado := if line % DSIZE != 0 then [.alineado (line % DSIZE)] else []
  let tamanio := if headerSize != footerSize then
    [.tamanioHeader headerSize, .tamanioFooter footerSize] else []
  let bit := if headerAlloc != footerAlloc then
    [.bitHeader headerAlloc, .bitFooter footerAlloc] else []
  let lines := alineado ++ tamanio ++ bit
  return { h with output := h.output ++ if lines.isEmpty then [] else .bloque line :: lines }

def coalesce (h : Heap) (block : UInt64) : Except Fault (UInt64 × Heap) := do
  let prevAlloc ← isAllocated h (← obtenerFooter h (← bloqueAnterior h block))
  let nextAlloc ← isAllocated h (obtenerHeader (← proximoBloque h block))
  let size ← blockSize h (obtenerHeader block)
  if prevAlloc && nextAlloc then
    return (block, h)
  else if prevAlloc && !nextAlloc then
    let newSize := size + (← blockSize h (obtenerHeader (← proximoBloque h block)))
    let h ← escribirHeader h (obtenerHeader block) (packWord newSize 0)
    let h ← escribirHeader h (← obtenerFooter h block) (packWord newSize 0)
    return (block, h)
  else if !prevAlloc && nextAlloc then
    let newSize := size + (← blockSize h (obtenerHeader (← bloqueAnterior h block)))
    let h ← escribirHeader h (← obtenerFooter h block) (packWord newSize 0)
    let h ← escribirHeader h (obtenerHeader (← bloqueAnterior h block)) (packWord newSize 0)
    let block ← bloqueAnterior h block
    return (block, h)
  else
    let newSize := size + ((← blockSize h (obtenerHeader (← bloqueAnterior h block))) +
      (← blockSize h (← obtenerFooter h (← proximoBloque h block))))
    let h ← escribirHeader h (obtenerHeader (← bloqueAnterior h block)) (packWord newSize 0)
    let h ← escribirHeader h (← obtenerFooter h (← proximoBloque h block)) (packWord newSize 0)
    let block ← bloqueAnterior h block
    return (block, h)

def extendHeap (h : Heap) (words : UInt64) : Except Fault (UInt64 × Heap) := do
  let size := if words % 2 != 0 then (words + 1) * WSIZE else words * WSIZE
  -- the argument of `mem_sbrk` is an `int`
  let (blockPointer, h) := memSbrk h size.toUInt32.toInt32
  if blockPointer = SBRK_FAILED then
    return (NULL, h)
  let h ← escribirHeader h (obtenerHeader blockPointer) (packWord size 0)
  let h ← escribirHeader h (← obtenerFooter h blockPointer) (packWord size 0)
  let h ← escribirHeader h (obtenerHeader (← proximoBloque h blockPointer)) (packWord 0 1)
  let h ← checkHeap h blockPointer
  let (blockPointer, h) ← coalesce h blockPointer
  let h ← checkHeap h blockPointer
  return (blockPointer, h)

/-- The result is the C `int`: 1 on success and 0 on failure. -/
def mmInit (h : Heap) : Except Fault (ℕ × Heap) := do
  let (p, h) := memSbrk h (4 * WSIZE).toUInt32.toInt32
  let h := { h with heapListp := p }
  if h.heapListp = SBRK_FAILED then
    return (0, h)
  let h ← escribirHeader h h.heapListp 0
  let h ← escribirHeader h (h.heapListp + WSIZE) (packWord DSIZE 1)
  let h ← escribirHeader h (h.heapListp + 2 * WSIZE) (packWord DSIZE 1)
  let h ← escribirHeader h (h.heapListp + 3 * WSIZE) (packWord 0 1)
  let h := { h with heapListp := h.heapListp + 2 * WSIZE }
  let (block, h) ← extendHeap h (CHUNKSIZE / WSIZE)
  if block = NULL then
    return (0, h)
  return (1, h)

def place (h : Heap) (blockPointer size : UInt64) : Except Fault Heap := do
  let sizeHeader ← blockSize h (obtenerHeader blockPointer)
  if sizeHeader - size ≥ DSIZE * 2 then
    let h ← escribirHeader h (obtenerHeader blockPointer) (packWord (size + 0) 1)
    let h ← escribirHeader h (← obtenerFooter h blockPointer) (packWord (size + 0) 1)
    let blockPointer ← proximoBloque h blockPointer
    let h ← escribirHeader h (obtenerHeader blockPointer) (packWord (sizeHeader - size - 0) 0)
    escribirHeader h (← obtenerFooter h blockPointer) (packWord (sizeHeader - size - 0) 0)
  else
    let h ← escribirHeader h (obtenerHeader blockPointer) (packWord sizeHeader 1)
    escribirHeader h (← obtenerFooter h blockPointer) (packWord sizeHeader 1)

/-- The loop of `find_fit`. It changes no word, so a run that outlasts one visit to
each heap address repeats itself for ever. -/
def findFitLoop (size : UInt64) :
    ℕ → Heap → UInt64 → UInt64 → Bool → Except Fault (UInt64 × Bool × Heap)
  | 0, _, _, _, _ => .error .diverges
  | fuel + 1, h, blockFound, sizeBlock, found =>
    if sizeBlock > 0 && !found then do
      let h ← checkHeap h blockFound
      let alloc ← isAllocated h (obtenerHeader blockFound)
      let sizeFound ← blockSize h (obtenerHeader blockFound)
      if !alloc && sizeFound ≥ size then
        findFitLoop size fuel h blockFound sizeBlock true
      else
        let blockFound ← proximoBloque h blockFound
        let sizeBlock ← blockSize h (obtenerHeader blockFound)
        findFitLoop size fuel h blockFound sizeBlock false
    else
      return (blockFound, found, h)

def findFit (h : Heap) (size : UInt64) : Except Fault (UInt64 × Heap) := do
  let sizeBlock ← blockSize h (obtenerHeader h.heapListp)
  let (blockFound, found, h) ←
    findFitLoop size ((memHeapsize h).toNat + 2) h h.heapListp sizeBlock false
  return (if !found then NULL else blockFound, h)

def mmMalloc (h : Heap) (size : UInt64) : Except Fault (UInt64 × Heap) := do
  if size = 0 then
    return (NULL, h)
  let h ← if h.heapListp = NULL then (do let (_, h) ← mmInit h; return h) else pure h
  let adjustedSize := if size ≤ DSIZE then 2 * DSIZE
    else DSIZE * (((size + DSIZE) + (DSIZE - 1)) / DSIZE)
  let (blockPointer, h) ← findFit h adjustedSize
  if blockPointer ≠ NULL then
    let h ← checkHeap h blockPointer
    let h ← place h blockPointer adjustedSize
    return (blockPointer, h)
  let extendsize := max adjustedSize CHUNKSIZE
  let (blockPointer, h) ← extendHeap h (extendsize / WSIZE)
  if blockPointer = NULL then
    return (NULL, h)
  let h ← place h blockPointer adjustedSize
  let h ← checkHeap h blockPointer
  return (blockPointer, h)

def mmFree (h : Heap) (ptr : UInt64) : Except Fault Heap := do
  if ptr = NULL then
    return h
  let h ← if h.heapListp = NULL then (do let (_, h) ← mmInit h; return h) else pure h
  let h ← checkHeap h ptr
  let size ← blockSize h (obtenerHeader ptr)
  let h ← escribirHeader h (obtenerHeader ptr) (packWord size 0)
  let h ← escribirHeader h (← obtenerFooter h ptr) (packWord size 0)
  let (_, h) ← coalesce h ptr
  return h

def mmRealloc (h : Heap) (ptr size : UInt64) : Except Fault (UInt64 × Heap) := do
  if size = 0 then
    let h ← mmFree h ptr
    return (NULL, h)
  if ptr = NULL then
    return ← mmMalloc h size
  let h ← checkHeap h ptr
  let (newblock, h) ← mmMalloc h size
  if newblock = NULL then
    return (NULL, h)
  let h ← checkHeap h newblock
  let oldsize ← blockSize h (obtenerHeader ptr)
  let oldsize := if oldsize > size then size else oldsize
  let h ← memcpy h newblock ptr oldsize
  let h ← mmFree h ptr
  return (newblock, h)

end Orga.Malloc
