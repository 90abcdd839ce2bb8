import PdfGraphics.Decimal.Style
import PdfGraphics.Font.Reader
import PdfGraphics.Font.Session
import PdfGraphics.Text.Quoted
/-!
The text that lists the glyphs of a font file: `cff_dump <font.cff> [glyph-name ...]`.
-/

namespace PdfGraphics.Dump

-- Coordinates are never written with an exponent, and a whole number has no point.
def coordinate : Decimal.Style := ⟨fun _ => true, ""⟩

-- Matrix coefficients have an exponent below 10^-4 and from 10^16 on.
def coefficient : Decimal.Style := ⟨fun k => -4 ≤ k ∧ k < 16, ".0"⟩

def numbers (xs : List Float32) : String :=
  " ".intercalate (xs.map coordinate.write)

def matrix (m : Matrix Float32) : String :=
  let fields := [("a", m.a), ("b", m.b), ("c", m.c), ("d", m.d), ("e", m.e), ("f", m.f)]
  let written := fields.map fun (name, x) => name ++ ": " ++ coefficient.write x
  "Matrix \x7b " ++ ", ".intercalate written ++ " \x7d"

def reference : GlyphRef → String
  | .index i => "Index(" ++ toString i ++ ")"
  | .name s => "Name(" ++ Text.quoted s ++ ")"
  | .code c => "Code(" ++ toString c ++ ")"

def op : PathOp Float32 → String
  | .moveTo p => "  " ++ numbers [p.x, p.y] ++ " moveto\n"
  | .lineTo p => "  " ++ numbers [p.x, p.y] ++ " lineto\n"
  | .curveTo c₁ c₂ p => "  " ++ numbers [c₁.x, c₁.y, c₂.x, c₂.y, p.x, p.y] ++ " curveto\n"
  | .close => "  closepath\n"

def box (b : BoundingBox Float32) : String :=
  match b.x, b.y with
  | some x, some y =>
    "  bbox: [" ++ numbers [x.lo, y.lo, x.hi, y.hi] ++ "]\n"
      ++ "  size: " ++ coordinate.write x.length ++ " x " ++ coordinate.write y.length ++ "\n"
  | _, _ => ""

def glyph (g : Glyph) : String :=
  "\n" ++ g.name ++ "\n  advance width: " ++ coordinate.write g.advanceWidth ++ "\n"
    ++ box g.outline.boundingBox ++ String.join (g.outline.ops.map op)

-- What is written for one glyph. After an error, a glyph of which nothing was drawn is left out.
def block (ref : GlyphRef) (g : Glyph) : Option DecodeError → String
  | none => glyph g
  | some e =>
    "\n" ++ reference ref ++ ": error: " ++ e.message ++ "\n"
      ++ if g.outline.isEmpty then "" else glyph g

def header (font : Font) : String :=
  "font: " ++ font.name?.getD "<unnamed>" ++ "\nglyphs: " ++ toString font.glyphCount
    ++ "\nfont matrix: " ++ matrix font.top.fontMatrix ++ "\n"

def decodeBlock (ref : GlyphRef) : StateM Font.Session String := do
  let (h, error) ← modifyGet (·.decodeLossy ref)
  return block ref h.glyph error

-- The blocks of glyphs that are decoded in order, in one session.
def blocks (font : Font) (refs : List GlyphRef) : List String :=
  ((refs.mapM decodeBlock).run { font }).1

-- The glyphs that are named, or else all of them.
def references (font : Font) (names : List String) : List GlyphRef :=
  if names.isEmpty then
    (List.range font.glyphCount).map fun i => .index (UInt16.ofNat i)
  else
    names.map .name

structure Result where
  exitCode : UInt32 := 0
  stdout : String := ""
  stderr : String := ""
deriving DecidableEq

-- A failure, with the cause behind it, each line of which is indented.
def failure (what : String) (cause : Option String) : Result :=
  let indented (cause : String) :=
    "\nCaused by:\n" ++ String.join ((cause.splitOn "\n").map fun line => "    " ++ line ++ "\n")
  { exitCode := 1, stderr := "Error: " ++ what ++ "\n" ++ cause.elim "" indented }

-- Lists a font file. What `readFile` cannot read, it says why.
def run (args : List String) (readFile : String → Except String (List UInt8)) : Result :=
  match args with
  | [] => failure "usage: cff_dump <font.cff> [glyph-name ...]" none
  | path :: names =>
    match readFile path with
    | .error cause => failure ("failed to read " ++ path) (some cause)
    | .ok bytes =>
      match Font.read bytes with
      | .error e => failure ("failed to parse " ++ path) (some e.message)
      | .ok font =>
        { stdout := header font ++ String.join (blocks font (references font names)) }

end PdfGraphics.Dump
