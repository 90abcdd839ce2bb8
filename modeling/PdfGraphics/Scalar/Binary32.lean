/-!
Conversions between binary32 numbers, binary64 numbers and integers.

Each one is written over operations that core defines through its model of IEEE 754, so it computes
the same value when it is compiled as when it is unfolded in a proof.
-/

namespace PdfGraphics

namespace Binary32

-- The binary32 number nearest to a natural number.
def ofNat (n : Nat) : Float32 :=
  if n < UInt64.size then n.toUInt64.toFloat32 else Float32.ofNat n

-- The binary32 number nearest to an integer.
def ofInt : Int → Float32
  | .ofNat n => ofNat n
  | .negSucc n => -ofNat (n + 1)

-- The binary32 number nearest to a binary64 number, ties going to the even neighbour.
def ofBinary64 (x : Float) : Float32 :=
  match x.toModel.unpack with
  | .finite s m e _ => .ofModel (.pack (.round .binary32 s m e))
  | special => .ofModel (.pack special)

def posInf : Float32 := Float32.ofBits 0x7f800000

def negInf : Float32 := Float32.ofBits 0xff800000

-- The distance from one to the next larger binary32 number, 2^-23.
def epsilon : Float32 := Float32.ofBits 0x34000000

-- Drops the fraction and clamps to the signed 32-bit range; not-a-number becomes 0.
def truncate (x : Float32) : Int :=
  if x < 0 then
    max (-2147483648) (-((-x).toUInt64.toNat : Int))
  else
    min 2147483647 (x.toUInt64.toNat : Int)

-- The power, computed in binary64 and then rounded.
def pow (x y : Float32) : Float32 :=
  ofBinary64 (Float.pow x.toFloat y.toFloat)

-- From 2^23 on, neighbouring binary32 numbers are at least one apart.
def isIntegral (x : Float32) : Bool :=
  x.isFinite && (8388608 ≤ x.abs || x.abs.toUInt64.toFloat32 == x.abs)

end Binary32

namespace Binary64

-- The value of a binary64 number, when it is a natural number.
def toNat? (x : Float) : Option Nat :=
  match x.toModel.unpack with
  | .zero _ => some 0
  | .finite .positive m (.ofNat e) _ => some (m <<< e)
  | .finite .positive m (.negSucc e) _ =>
    if m % (1 <<< (e + 1)) = 0 then some (m >>> (e + 1)) else none
  | _ => none

end Binary64

end PdfGraphics
