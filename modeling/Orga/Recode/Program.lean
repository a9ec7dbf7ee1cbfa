import Orga.Recode.Codec

/-! The program of `recode57.c`. Arrays are lists of their whole length; a load or store
outside one is undefined in C and gives `none`. The operating system decides how many bytes
each `read` returns, and `write` writes everything. Standard error is left out. -/
namespace Orga.Recode

def strToEncoding (enc : String) : Encoding :=
  if enc = "UTF-8" then .utf8
  else if enc = "UTF-16BE" then .utf16be
  else if enc = "UTF-16LE" then .utf16le
  else if enc = "UTF-32BE" then .utf32be
  else if enc = "UTF-32LE" then .utf32le
  else .unknown

/-- The difference of two `size_t`, which wraps below zero. -/
def sizeSub (a b : ℕ) : ℕ := if b ≤ a then a - b else a + 2 ^ 64 - b

/-- The code points stored in a `destbuf` with room for `room` of them, and the bytes not
consumed. Each call of `read_codepoint` stores one, also the last, which reads nothing. -/
def origToUcs4 (enc : Encoding) : List UInt8 → ℕ → ℕ → Option (List UInt32 × ℕ)
  | _, _, 0 => none
  | buf, nbytes, room + 1 => do
    let (cp, b) ← readCodepoint enc buf nbytes
    if b > 0 then
      let (points, left) ← origToUcs4 enc (buf.drop b) (sizeSub nbytes b) room
      return (cp :: points, left)
    else
      return ([], nbytes)

def ucs4ToDest (enc : Encoding) : List UInt32 → List UInt8
  | [] => []
  | cp :: input => writeCodepoint enc cp ++ ucs4ToDest enc input

def INBUF_SIZE : ℕ := 1024
def UCS4_SIZE : ℕ := 1024
def OUTBUF_SIZE : ℕ := 1024 * 4 + 4

/-- `read` on standard input: at most `count` bytes, and at least one if there is any.
`wish` is the number the system would return. -/
def read (wish count : ℕ) (stdin : List UInt8) : List UInt8 × List UInt8 :=
  stdin.splitAt (min count (Max.max 1 wish))

theorem read_length (wish count : ℕ) (stdin : List UInt8) :
    (read wish count stdin).1.length + (read wish count stdin).2.length = stdin.length := by
  simp only [read, List.splitAt_eq, List.length_take, List.length_drop]
  omega

def store (buf : List UInt8) (i : ℕ) (data : List UInt8) : List UInt8 :=
  buf.take i ++ data ++ buf.drop (i + data.length)

/-- The bytes left over are moved to the front. -/
def compact (inbuf : List UInt8) (inbytes left : ℕ) : List UInt8 :=
  if left > 0 then store inbuf 0 ((inbuf.drop (inbytes - left)).take left) else inbuf

/-- The loop of `main`, with the bytes it writes. `bom` holds the bytes of the mark still in
front of `outbuf`, and `wishes` the answers of the coming reads. -/
def mainLoop (orig dest : Encoding) (wishes : ℕ → ℕ) (inbuf : List UInt8) (prevbytes : ℕ)
    (bom stdin : List UInt8) : Option (List UInt8) :=
  let r := read (wishes 0) (sizeSub INBUF_SIZE prevbytes) stdin
  if _h : r.1.length > 0 then do
    let inbuf := store inbuf prevbytes r.1
    let inbytes := r.1.length + prevbytes
    let (points, left) ← origToUcs4 orig inbuf inbytes UCS4_SIZE
    let out := ucs4ToDest dest points
    if bom.length + out.length > OUTBUF_SIZE then
      none
    else
      let written ← mainLoop orig dest (fun i => wishes (i + 1)) (compact inbuf inbytes left) left
        [] r.2
      return bom ++ out ++ written
  else
    some []
termination_by stdin.length
decreasing_by
  have hlen := read_length (wishes 0) (sizeSub INBUF_SIZE prevbytes) stdin
  simp only [r] at _h ⊢
  omega

/-- What `bom` and `inbuf` hold before they are written. -/
structure Uninitialised where
  bom : ℕ → UInt8
  inbuf : ℕ → UInt8

/-- The exit status and the bytes written. -/
def main (argv : List String) (wishes : ℕ → ℕ) (u : Uninitialised) (stdin : List UInt8) :
    Option (ℕ × List UInt8) :=
  match argv with
  | [_, enc] =>
    let dest := strToEncoding enc
    if dest = .unknown then
      some (1, [])
    else do
      let r := read (wishes 0) 4 stdin
      let bom := store ((List.range 4).map u.bom) 0 r.1
      let orig := bomToEncoding (← bom[0]?) (← bom[1]?) (← bom[2]?) (← bom[3]?)
      let inbuf := (List.range INBUF_SIZE).map u.inbuf
      let (inbuf, prevbytes) :=
        if orig = .utf8 then (store inbuf 0 bom, 4)
        else if orig = .utf16be ∨ orig = .utf16le then (store inbuf 0 (bom.drop 2), 2)
        else (inbuf, 0)
      let written ← mainLoop orig dest (fun i => wishes (i + 1)) inbuf prevbytes (writeBom dest) r.2
      return (0, written)
  | _ => some (1, [])

end Orga.Recode
