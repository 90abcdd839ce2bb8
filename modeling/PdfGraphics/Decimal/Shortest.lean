import PdfGraphics.Scalar.Binary32
/-!
The shortest decimal that reads back as a given binary number.

A binary number stands for a cell of real numbers, those that round to it. Of the decimal grids
`10 ^ g` the coarsest one with a point in the cell gives the fewest digits, and of its points in the
cell the nearest one is taken.
-/

namespace PdfGraphics.Decimal

-- The real numbers from `low * 2 ^ scale` to `high * 2 ^ scale`, which round to `mid * 2 ^ scale`.
structure Cell where
  low : Nat
  mid : Nat
  high : Nat
  scale : Int
  -- Whether the two ends belong to the cell.
  isClosed : Bool

-- The positive number `digits * 10 ^ exponent`.
structure Number where
  digits : Nat
  exponent : Int

namespace Cell

-- Below a power of two the neighbours are twice as dense. A tie rounds to the even significand.
def ofBinary32 (significand : Nat) (exponent : Int) : Cell where
  low := 4 * significand - (if significand = 8388608 then 1 else 2)
  mid := 4 * significand
  high := 4 * significand + 2
  scale := exponent - 2
  isClosed := significand % 2 = 0

-- The factors `a`, `b` for which `x * 2 ^ scale = (x * a / b) * 10 ^ g`.
def ratio (c : Cell) (g : Int) : Nat × Nat :=
  (Nat.pow 10 (-g).toNat <<< c.scale.toNat, Nat.pow 10 g.toNat <<< (-c.scale).toNat)

-- The point of the grid `10 ^ g` nearest to the middle, if it lies in the cell; a tie goes up.
def nearest? (c : Cell) (g : Int) : Option Nat :=
  let (a, b) := c.ratio g
  let inside (k : Nat) : Bool :=
    if c.isClosed then
      c.low * a ≤ k * b && k * b ≤ c.high * a
    else
      c.low * a < k * b && k * b < c.high * a
  let q := c.mid * a / b
  match inside q, inside (q + 1) with
  | true, true => if b ≤ 2 * (c.mid * a - q * b) then some (q + 1) else some q
  | true, false => some q
  | false, true => some (q + 1)
  | false, false => none

-- An exponent of ten whose grid is too coarse to have a point in the cell.
def coarse (c : Cell) : Int :=
  (c.high.log2 + 1 + c.scale) * 30103 / 100000 + 1

-- Tries the grid `10 ^ g` and up to `steps` finer ones.
def search (c : Cell) (g : Int) : Nat → Number
  | 0 => let (a, b) := c.ratio g; ⟨c.mid * a / b, g⟩
  | steps + 1 =>
    match c.nearest? g with
    | some k => ⟨k, g⟩
    | none => c.search (g - 1) steps

-- Nine digits tell any two binary32 numbers apart.
def shortest (c : Cell) : Number :=
  c.search c.coarse 16

end Cell

end PdfGraphics.Decimal
