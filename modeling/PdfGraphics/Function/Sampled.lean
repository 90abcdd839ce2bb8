import PdfGraphics.Function.Dict
/-!
Sampled functions: a table of samples on a grid, and multilinear interpolation between them.

An input selects a cell of the grid on its axis. The value is the mean of the samples at the corners
of the cell, each weighted by its nearness. A corner that would weigh nothing is left out.
-/

namespace PdfGraphics.Function

structure Axis (α : Type) where
  domain : Span α
  -- The grid positions of the ends of the domain.
  encode : α × α
  size : Nat

structure Channel (α : Type) where
  range : Span α
  -- The values of the least and of the greatest sample.
  decode : α × α

structure Sampled (α : Type) where
  axes : List (Axis α)
  channels : List (Channel α)
  maxSample : Nat
  -- The samples of all channels at one grid point are neighbours; the first axis varies fastest.
  samples : Array Nat

-- Where an input lies on its axis: between two grid positions, at a share `t` of the way.
structure GridCell (α : Type) where
  lower : Nat
  upper : Nat
  t : α
  size : Nat

-- A corner of a cell in all axes: its number in the table, and its weight.
structure Corner (α : Type) where
  weight : α
  entry : Nat

/-! Samples are unsigned numbers of one width, packed from the most significant bit on. -/

def bitAt (data : Array UInt8) (i : Nat) : Nat :=
  (data.getD (i / 8) 0).toNat >>> (7 - i % 8) % 2

def sampleAt (data : Array UInt8) (bits i : Nat) : Nat :=
  (List.range bits).foldl (fun v k => 2 * v + bitAt data (bits * i + k)) 0

def unpack (data : List UInt8) (bits count : Nat) : Array Nat :=
  let data := data.toArray
  (Array.range count).map (sampleAt data bits)

def supportedBits : List Nat := [1, 2, 4, 8, 12, 16, 24, 32]

-- How many whole samples data holds. The number of bits is counted in a 64-bit word.
def availableSamples (data : List UInt8) (bits : Nat) : Nat :=
  min (8 * data.length) (UInt64.size - 1) / bits

variable {α : Type} [Scalar α]

namespace Axis

def cell (a : Axis α) (x : α) : GridCell α :=
  let last := a.size - 1
  let position := interpolate (a.domain.clip x) a.domain.lo a.domain.hi a.encode.1 a.encode.2
  let e := Scalar.clamp position Scalar.zero (Scalar.ofNat last)
  let lower := min (Scalar.toNat e) last
  { lower, upper := min (lower + 1) last, t := e - Scalar.ofNat lower, size := a.size }

end Axis

namespace GridCell

def isInterpolated (c : GridCell α) : Bool :=
  c.lower != c.upper && Scalar.zero < c.t

-- The corners that a further axis makes of those on the axes before it.
def split (c : GridCell α) (stride : Nat) (corners : List (Corner α)) : List (Corner α) :=
  if c.isInterpolated then
    corners.map (fun k => ⟨k.weight * (Scalar.one - c.t), k.entry + c.lower * stride⟩)
      ++ corners.map (fun k => ⟨k.weight * c.t, k.entry + c.upper * stride⟩)
  else
    corners.map fun k => { k with entry := k.entry + c.lower * stride }

def cornersFrom (stride : Nat) (corners : List (Corner α)) : List (GridCell α) → List (Corner α)
  | [] => corners
  | c :: cells => cornersFrom (stride * c.size) (c.split stride corners) cells

def corners (cells : List (GridCell α)) : List (Corner α) :=
  cornersFrom 1 [⟨Scalar.one, 0⟩] cells

end GridCell

namespace Sampled

-- The cells that inputs select, one on each axis.
def cells (s : Sampled α) (inputs : List α) : List (GridCell α) :=
  List.zipWith Axis.cell s.axes inputs

-- The sample of a channel at a grid point.
def lookup (s : Sampled α) (channel point : Nat) : Except EvalError Nat :=
  let i := point * s.channels.length + channel
  need s.samples[i]? (.outOfBounds s.samples.size i)

-- The weighted mean of one channel's samples.
def mean (s : Sampled α) (corners : List (Corner α)) (channel : Nat) : Except EvalError α := do
  let terms ← corners.mapM fun k => return k.weight * Scalar.ofNat (← s.lookup channel k.entry)
  return terms.foldl (· + ·) Scalar.zero

def output (s : Sampled α) (corners : List (Corner α)) (channel : Channel α) (i : Nat) :
    Except EvalError α := do
  let mean ← s.mean corners i
  return channel.range.clip
    (interpolate mean Scalar.zero (Scalar.ofNat s.maxSample) channel.decode.1 channel.decode.2)

def evaluate (s : Sampled α) (inputs : List α) : Except EvalError (List α) :=
  let corners := GridCell.corners (s.cells inputs)
  s.channels.zipIdx.mapM fun (channel, i) => s.output corners channel i

-- Without an entry of its own, an axis is encoded to all of its grid.
def encodeOf (entries : FunctionDict.Entries α) (sizes : List Nat) : List α :=
  entries.encode.getD (sizes.flatMap fun n => [Scalar.zero, Scalar.ofNat n - Scalar.one])

-- Reads the entries of a sampled function, of which `domain` and `range` have been read.
def ofEntries (entries : FunctionDict.Entries α) (domain : List (Span α))
    (range : Option (List (Span α))) : Except EvalError (Sampled α) := do
  let range ← need range (.missingKey .range)
  let sizes ← need entries.size (.missingKey .size)
  let bits ← need entries.bitsPerSample (.missingKey .bitsPerSample)
  refuse (!supportedBits.contains bits) (.bitsPerSample bits)
  let order := entries.order.getD 1
  refuse (order != 1 && order != 3) (.order order)
  let data ← need entries.samples (.missingKey .samples)
  let inputs := domain.length
  let outputs := range.length
  refuse (sizes.length != inputs) (.sizeCount sizes.length inputs)
  refuse (sizes.contains 0) .sizeZero
  let encode := encodeOf entries sizes
  refuse (encode.length != 2 * inputs) (.encodeCount encode.length inputs)
  let decode := entries.decode.getD (range.flatMap fun s => [s.lo, s.hi])
  refuse (decode.length != 2 * outputs) (.decodeCount decode.length outputs)
  let count := sizes.foldl (· * ·) outputs
  refuse (UInt64.size ≤ count) .tableTooLarge
  let available := availableSamples data bits
  refuse (available < count) (.samplesMissing available count)
  return {
    axes := List.zipWith (fun (domain, encode) size => { domain, encode, size })
      (domain.zip (pairs encode)) sizes
    channels := List.zipWith Channel.mk range (pairs decode)
    maxSample := (1 <<< bits) - 1
    samples := unpack data bits count
  }

end Sampled

end PdfGraphics.Function
