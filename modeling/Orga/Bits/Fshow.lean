import Orga.Bits.Floats

/-! What `show_float` of `fshow.c` prints of a word: the fields, and the number as a mantissa and an
exponent. -/
namespace Orga.Bits
open Orga.Ieee754 Orga.BitFields

section Fields
variable (uf : UInt32)

end Fields

end Orga.Bits
