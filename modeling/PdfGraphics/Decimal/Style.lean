import PdfGraphics.Decimal.Shortest
/-!
Binary32 numbers as text, in positional or in scientific form.
-/

namespace PdfGraphics.Decimal

-- How a number is written, apart from its digits.
structure Style where
  -- Whether a number whose first digit stands for `10 ^ k` is written positionally.
  isPositional : Int → Bool
  -- What follows a positional number without a fraction.
  wholeMark : String

namespace Number

def digitText (n : Number) : List Char :=
  Nat.toDigits 10 n.digits

-- The power of ten that the first digit stands for.
def leading (n : Number) : Int :=
  n.exponent + n.digitText.length - 1

def positional (n : Number) (wholeMark : String) : String :=
  let ds := n.digitText
  if 0 ≤ n.exponent then
    String.ofList (ds ++ List.replicate n.exponent.toNat '0') ++ wholeMark
  else
    let places := (-n.exponent).toNat
    if places < ds.length then
      let (whole, fraction) := ds.splitAt (ds.length - places)
      String.ofList whole ++ "." ++ String.ofList fraction
    else
      "0." ++ String.ofList (List.replicate (places - ds.length) '0' ++ ds)

def scientific (n : Number) : String :=
  let fraction := n.digitText.drop 1
  String.ofList (n.digitText.take 1)
    ++ (if fraction.isEmpty then "" else "." ++ String.ofList fraction)
    ++ "e" ++ toString n.leading

end Number

namespace Style

def magnitude (s : Style) (n : Number) : String :=
  if s.isPositional n.leading then n.positional s.wholeMark else n.scientific

def signed (isNegative : Bool) (text : String) : String :=
  if isNegative then "-" ++ text else text

def write (s : Style) (x : Float32) : String :=
  match x.toModel.unpack with
  | .notANumber => "NaN"
  | .infinity sign => signed (sign == .negative) "inf"
  | .zero sign => signed (sign == .negative) ("0" ++ s.wholeMark)
  | .finite sign m e _ => signed (sign == .negative) (s.magnitude (Cell.ofBinary32 m e).shortest)

end Style

end PdfGraphics.Decimal
