import PdfGraphics.Scalar.Binary32
/-!
The pseudo-random sequence of a glyph.

Each run begins it anew, so a glyph looks the same whenever it is drawn. No word but zero is
followed by zero, and the seed is not zero.
-/

namespace PdfGraphics.Charstring.Xorshift

def seed : UInt32 := 0x2545f491

def next (x : UInt32) : UInt32 :=
  let x := x ^^^ (x <<< 13)
  let x := x ^^^ (x >>> 17)
  x ^^^ (x <<< 5)

-- The share of the largest word that a state makes, rounded twice.
def value (x : UInt32) : Float32 :=
  Binary32.ofBinary64 (x.toFloat / 4294967295)

end PdfGraphics.Charstring.Xorshift
