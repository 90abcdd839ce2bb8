/-!
Natural numbers as words of a fixed width.
-/

namespace PdfGraphics

-- A natural number as a 16-bit word, when it fits.
def word16? (n : Nat) : Option UInt16 :=
  if n < 65536 then some (UInt16.ofNat n) else none

end PdfGraphics
