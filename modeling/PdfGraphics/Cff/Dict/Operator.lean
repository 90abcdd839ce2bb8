/-!
The operators of the DICTs in a font, by their numbers.

An operator is one byte, or an escape byte and a second one.
-/

namespace PdfGraphics.Cff.Dict.Operator

-- The number of the two-byte operator that ends with `b`.
def escaped (b : UInt8) : Nat :=
  1200 + b.toNat

/-! Operators of a top DICT. -/

def fullName : Nat := 2

def familyName : Nat := 3

def fontBox : Nat := 5

def charset : Nat := 15

def encoding : Nat := 16

def charStrings : Nat := 17

def privateRange : Nat := 18

def isFixedPitch : Nat := escaped 1

def italicAngle : Nat := escaped 2

def charstringType : Nat := escaped 6

def fontMatrix : Nat := escaped 7

-- Only a font that is keyed by CID has this operator.
def registryOrderingSupplement : Nat := escaped 30

/-! Operators of a Private DICT. -/

def subrs : Nat := 19

def defaultWidth : Nat := 20

def nominalWidth : Nat := 21

end PdfGraphics.Cff.Dict.Operator
