import PdfGraphics.Proofs.Function.Evaluation
/-!
The piece that an input of a stitching function belongs to.

The bounds ascend and lie in the domain, so one piece begins at or below an input and ends above it,
or is the last one. An input on a bound belongs to the piece that begins there. A bound on an end of
the domain leaves an empty interval, which is mapped to a single input.
-/

namespace PdfGraphics.Function

-- The bounds before a piece are those up to an input.
structure Selects (bounds : List Float32) (x : Float32) (piece : Nat) : Prop where
  exists_piece : piece ≤ bounds.length
  before : ∀ i bound, bounds[i]? = some bound → i < piece → bound ≤ x
  behind : ∀ i bound, bounds[i]? = some bound → piece ≤ i → x < bound

namespace Selects

variable {bounds : List Float32} {bound x : Float32} {piece piece' : Nat}

theorem not_lt (h : Selects bounds x piece) (h' : Selects bounds x piece') : ¬piece < piece' := by
  intro hlt
  have hp : piece < bounds.length := Nat.lt_of_lt_of_le hlt h'.exists_piece
  have hb := List.getElem?_eq_getElem hp
  exact Binary32.not_lt_of_le (h'.before piece _ hb hlt) (h.behind piece _ hb (Nat.le_refl _))

theorem first (h : ∀ bound ∈ bounds, x < bound) : Selects bounds x 0 where
  exists_piece     := Nat.zero_le _
  before _ _ _     := nofun
  behind _ _ hb _  := h _ (List.mem_of_getElem? hb)

theorem next (hb : bound ≤ x) (h : Selects bounds x piece) :
    Selects (bound :: bounds) x (piece + 1) where
  exists_piece := Nat.succ_le_succ h.exists_piece
  before i b hi hlt := by
    cases i with
    | zero   => exact Option.some.inj hi ▸ hb
    | succ i => exact h.before i b hi (Nat.lt_of_succ_lt_succ hlt)
  behind i b hi hle := by
    cases i with
    | zero   => exact absurd hle (Nat.not_succ_le_zero _)
    | succ i => exact h.behind i b hi (Nat.le_of_succ_le_succ hle)

end Selects

section Order

variable {α : Type} [AnalyticScalar α] {entries : FunctionDict.Entries α} {domain : Span α}
variable {range : Option (List (Span α))} {pieces : Pieces α}

end Order

section Interval

variable {bounds : List Float32} {domain : Span Float32} {x lo hi : Float32} {piece : Nat}

end Interval

section Stitched

variable {entries : FunctionDict.Entries Float32} {dicts : List (FunctionDict Float32)}
variable {dicts? : Option (List (FunctionDict Float32))} {domain : Span Float32}
variable {range : Option (List (Span Float32))} {pieces : Pieces Float32}

end Stitched

end PdfGraphics.Function
