import Mathlib.Algebra.Group.Nat.Defs
import Mathlib.Data.List.Basic

/-! The codecs of `recode57_alu.c`. A read past the end of an array is undefined in C and
gives `none` here; shifts are those of 32-bit words, and a byte stored from a word keeps its
low eight bits. -/
namespace Orga.Recode

inductive Encoding where
  | utf8
  | utf16be
  | utf16le
  | utf32be
  | utf32le
  | unknown
  deriving DecidableEq, Repr

/-- The first four bytes of the input decide its encoding; without a mark it is UTF-8. -/
def bomToEncoding (bom0 bom1 bom2 bom3 : UInt8) : Encoding :=
  if bom0 = 254 ∧ bom1 = 255 then .utf16be
  else if bom0 = 0 ∧ bom1 = 0 ∧ bom2 = 254 ∧ bom3 = 255 then .utf32be
  else if bom0 = 255 ∧ bom1 = 254 ∧ bom2 = 0 ∧ bom3 = 0 then .utf32le
  else if bom0 = 255 ∧ bom1 = 254 then .utf16le
  else .utf8

/-- The bytes that `write_bom` stores. -/
def writeBom (enc : Encoding) : List UInt8 :=
  if enc = .utf16be then [0xFE, 0xFF]
  else if enc = .utf32be then [0, 0, 0xFE, 0xFF]
  else if enc = .utf32le then [0xFF, 0xFE, 0, 0]
  else if enc = .utf16le then [0xFF, 0xFE]
  else []

/-- The code point stored in `*dest` and the bytes consumed. Only the UTF-8 branch reads
beyond the `n` bytes it was promised. -/
def readCodepoint (enc : Encoding) (buf : List UInt8) (n : ℕ) : Option (UInt32 × ℕ) :=
  if (enc = .utf32le ∨ enc = .utf32be) ∧ n ≥ 4 then do
    let b0 ← buf[0]?
    let b1 ← buf[1]?
    let b2 ← buf[2]?
    let b3 ← buf[3]?
    if enc = .utf32be then
      return (b0.toUInt32 <<< 24 ||| b1.toUInt32 <<< 16 ||| b2.toUInt32 <<< 8 ||| b3.toUInt32, 4)
    else
      return (b0.toUInt32 ||| b1.toUInt32 <<< 8 ||| b2.toUInt32 <<< 16 ||| b3.toUInt32 <<< 24, 4)
  else if enc = .utf16le ∨ enc = .utf16be then
    if n ≥ 2 then
      if enc = .utf16be then do
        let b0 : UInt8 ← buf[0]?
        if b0 >>> 2 ≠ 0x36 then
          let b1 ← buf[1]?
          return (b0.toUInt32 <<< 8 ||| b1.toUInt32, 2)
        else if n ≥ 4 then
          let b1 ← buf[1]?
          let b2 ← buf[2]?
          let b3 ← buf[3]?
          return (((b0 &&& 3).toUInt32 <<< 18 ||| b1.toUInt32 <<< 10 |||
            (b2 &&& 3).toUInt32 <<< 8 ||| b3.toUInt32) + 65536, 4)
        else
          return (0, 0)
      else do
        let b1 : UInt8 ← buf[1]?
        if b1 >>> 2 ≠ 0x36 then
          let b0 ← buf[0]?
          return (b0.toUInt32 ||| b1.toUInt32 <<< 8, 2)
        else if n ≥ 4 then
          let b0 ← buf[0]?
          let b2 ← buf[2]?
          let b3 ← buf[3]?
          return ((b0.toUInt32 <<< 10 ||| (b1 &&& 3).toUInt32 <<< 18 |||
            b2.toUInt32 ||| (b3 &&& 3).toUInt32 <<< 8) + 65536, 4)
        else
          return (0, 0)
    else
      some (0, 0)
  else if enc = .utf8 then
    if n > 0 then do
      let b0 : UInt8 ← buf[0]?
      if b0 < 0x80 then
        return (b0.toUInt32, 1)
      else if b0 < 0xE0 then
        let b1 ← buf[1]?
        return ((b0 &&& 31).toUInt32 <<< 6 ||| (b1 &&& 63).toUInt32, 2)
      else if b0 < 0xF0 then
        let b1 ← buf[1]?
        let b2 ← buf[2]?
        return ((b0 &&& 15).toUInt32 <<< 12 ||| (b1 &&& 63).toUInt32 <<< 6 |||
          (b2 &&& 63).toUInt32, 3)
      else
        let b1 ← buf[1]?
        let b2 ← buf[2]?
        let b3 ← buf[3]?
        return ((b0 &&& 7).toUInt32 <<< 18 ||| (b1 &&& 63).toUInt32 <<< 12 |||
          (b2 &&& 63).toUInt32 <<< 6 ||| (b3 &&& 63).toUInt32, 4)
    else
      some (0, 0)
  else
    some (0, 0)

/-- The bytes that `write_codepoint` stores. -/
def writeCodepoint (enc : Encoding) (cp : UInt32) : List UInt8 :=
  if enc = .utf32le ∨ enc = .utf32be then
    if enc = .utf32le then
      [(cp &&& 255).toUInt8, (cp >>> 8 &&& 255).toUInt8, (cp >>> 16 &&& 255).toUInt8,
        (cp >>> 24 &&& 255).toUInt8]
    else
      [(cp >>> 24 &&& 255).toUInt8, (cp >>> 16 &&& 255).toUInt8, (cp >>> 8 &&& 255).toUInt8,
        (cp &&& 255).toUInt8]
  else if enc = .utf16le ∨ enc = .utf16be then
    if cp ≤ 0xFFFF then
      if enc = .utf16le then [(cp &&& 255).toUInt8, (cp >>> 8 &&& 255).toUInt8]
      else [(cp >>> 8 &&& 255).toUInt8, (cp &&& 255).toUInt8]
    else
      let aux := cp - 65536
      if enc = .utf16le then
        [(aux >>> 10 &&& 255).toUInt8, ((216 : UInt32) ||| aux >>> 18).toUInt8, (aux &&& 255).toUInt8,
          ((220 : UInt32) ||| (aux >>> 8 &&& 3)).toUInt8]
      else
        [((216 : UInt32) ||| aux >>> 18).toUInt8, (aux >>> 10 &&& 255).toUInt8,
          ((220 : UInt32) ||| (aux >>> 8 &&& 3)).toUInt8, (aux &&& 255).toUInt8]
  else if enc = .utf8 then
    if cp < 0x80 then [cp.toUInt8]
    else if cp < 0x800 then [((192 : UInt32) ||| cp >>> 6).toUInt8, ((128 : UInt32) ||| (cp &&& 63)).toUInt8]
    else if cp < 0x10000 then
      [((224 : UInt32) ||| cp >>> 12).toUInt8, ((128 : UInt32) ||| (cp >>> 6 &&& 63)).toUInt8,
        ((128 : UInt32) ||| (cp &&& 63)).toUInt8]
    else
      [((240 : UInt32) ||| cp >>> 18).toUInt8, ((128 : UInt32) ||| (cp >>> 12 &&& 63)).toUInt8,
        ((128 : UInt32) ||| (cp >>> 6 &&& 63)).toUInt8, ((128 : UInt32) ||| (cp &&& 63)).toUInt8]
  else []

end Orga.Recode
