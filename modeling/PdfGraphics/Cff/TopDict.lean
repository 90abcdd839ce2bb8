import PdfGraphics.Cff.Dict
import PdfGraphics.Geometry.Matrix
/-!
What a font's own DICTs say: the top DICT and the Private DICT.
-/

namespace PdfGraphics.Cff

structure TopDict where
  -- String identifiers of the names.
  fullName : Option UInt16 := none
  familyName : Option UInt16 := none
  isFixedPitch : Bool := false
  italicAngle : Float32 := 0
  fontMatrix : Matrix Float32 := ⟨0.001, 0, 0, 0.001, 0, 0⟩
  -- Left, bottom, right and top.
  fontBox : Vector Float32 4 := #v[0, 0, 0, 0]
  -- A predefined charset, by a number below 3, or the offset of one.
  charset : Nat := 0
  -- A predefined encoding, by a number below 2, or the offset of one.
  encoding : Nat := 0
  charStrings : Option Nat := none
  -- Size and offset of the Private DICT.
  privateRange : Option (Nat × Nat) := none

namespace TopDict

def maxOffset : Nat := 4294967295

def sid? (d : Dict) (operator : Nat) : Except DecodeError (Option UInt16) :=
  return (← d.nat? operator 65535).map UInt16.ofNat

-- A matrix may come without its last two numbers, which are then zero.
def matrix? (d : Dict) (operator : Nat) : Except DecodeError (Option (Matrix Float32)) :=
  match (d.get? operator).map (·.map Operand.toBinary32) with
  | none => .ok none
  | some [a, b, c, d] => .ok (some ⟨a, b, c, d, 0, 0⟩)
  | some [a, b, c, d, e, f] => .ok (some ⟨a, b, c, d, e, f⟩)
  | some _ => .error .malformedDict

def box? (d : Dict) (operator : Nat) : Except DecodeError (Option (Vector Float32 4)) :=
  match (d.get? operator).map (·.map Operand.toBinary32) with
  | none => .ok none
  | some [a, b, c, d] => .ok (some #v[a, b, c, d])
  | some _ => .error .malformedDict

def range? (d : Dict) (operator : Nat) : Except DecodeError (Option (Nat × Nat)) :=
  match (d.get? operator).map (·.map Operand.toNat?) with
  | none => .ok none
  | some [some size, some offset] =>
    if size ≤ maxOffset ∧ offset ≤ maxOffset then
      .ok (some (size, offset))
    else
      .error .malformedDict
  | some _ => .error .malformedDict

def ofDict (d : Dict) : Except DecodeError TopDict := do
  if (d.get? Dict.Operator.registryOrderingSupplement).isSome then
    throw .unsupportedFontKind
  let type := (← d.nat? Dict.Operator.charstringType maxOffset).getD 2
  if type ≠ 2 then
    throw (.unsupportedCharstringType type)
  let standard : TopDict := {}
  return {
    fullName := ← sid? d Dict.Operator.fullName
    familyName := ← sid? d Dict.Operator.familyName
    isFixedPitch := (← d.bool? Dict.Operator.isFixedPitch).getD standard.isFixedPitch
    italicAngle := (← d.number? Dict.Operator.italicAngle).getD standard.italicAngle
    fontMatrix := (← matrix? d Dict.Operator.fontMatrix).getD standard.fontMatrix
    fontBox := (← box? d Dict.Operator.fontBox).getD standard.fontBox
    charset := (← d.nat? Dict.Operator.charset maxOffset).getD standard.charset
    encoding := (← d.nat? Dict.Operator.encoding maxOffset).getD standard.encoding
    charStrings := ← d.nat? Dict.Operator.charStrings maxOffset
    privateRange := ← range? d Dict.Operator.privateRange
  }

end TopDict

-- The part of a Private DICT that decoding an outline needs.
structure PrivateDict where
  -- Where the local subroutines are, counted from the start of the Private DICT.
  subrs : Option Nat := none
  defaultWidth : Float32 := 0
  nominalWidth : Float32 := 0

namespace PrivateDict

def ofDict (d : Dict) : Except DecodeError PrivateDict := do
  return {
    subrs := ← d.nat? Dict.Operator.subrs TopDict.maxOffset
    defaultWidth := (← d.number? Dict.Operator.defaultWidth).getD 0
    nominalWidth := (← d.number? Dict.Operator.nominalWidth).getD 0
  }

end PrivateDict

end PdfGraphics.Cff
