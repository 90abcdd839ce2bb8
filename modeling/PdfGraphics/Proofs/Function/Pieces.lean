import PdfGraphics.Function.Basic
/-!
The pieces of a stitching function.

Pieces keep the lists that they were lined up from. An input belongs to the piece whose number is
that of the bounds up to it.
-/

namespace PdfGraphics.Pieces

variable {α : Type}

def functions : Pieces α → List (Function α)
  | last _ f => [f]
  | before _ f _ rest => f :: rest.functions

def encodes : Pieces α → List (α × α)
  | last encode _ => [encode]
  | before encode _ _ rest => encode :: rest.encodes

def bounds : Pieces α → List α
  | last .. => []
  | before _ _ bound rest => bound :: rest.bounds

section Chain

variable (encode : α × α) (f : Function α) (rest : List (α × (α × α) × Function α))

theorem functions_chain : (chain encode f rest).functions = f :: rest.map (·.2.2) := by
  induction rest generalizing encode f with
  | nil            => rfl
  | cons r rest ih => exact congrArg (f :: ·) (ih ..)

theorem encodes_chain : (chain encode f rest).encodes = encode :: rest.map (·.2.1) := by
  induction rest generalizing encode f with
  | nil            => rfl
  | cons r rest ih => exact congrArg (encode :: ·) (ih ..)

theorem bounds_chain : (chain encode f rest).bounds = rest.map (·.1) := by
  induction rest generalizing encode f with
  | nil            => rfl
  | cons r rest ih => exact congrArg (r.1 :: ·) (ih ..)

theorem outputCount_chain :
    Function.piecesOutputCount (chain encode f rest) = f.outputCount := by
  cases rest with
  | nil            => rw [chain, Function.piecesOutputCount]
  | cons r rest    => rw [chain, Function.piecesOutputCount]

-- Lists of one length are lined up in full.
theorem lists_chain {others : List (Function α)} {encodes : List (α × α)} {bounds : List α}
    (he : encodes.length = others.length) (hb : bounds.length = others.length) :
    (chain encode f (bounds.zip (encodes.zip others))).functions = f :: others ∧
    (chain encode f (bounds.zip (encodes.zip others))).encodes = encode :: encodes ∧
    (chain encode f (bounds.zip (encodes.zip others))).bounds = bounds := by
  have hl : (encodes.zip others).length = others.length := by rw [List.length_zip, he, Nat.min_self]
  have hs : (bounds.zip (encodes.zip others)).map (·.2) = encodes.zip others :=
    List.map_snd_zip (by omega)
  rw [functions_chain, encodes_chain, bounds_chain]
  refine ⟨congrArg (f :: ·) ?_, congrArg (encode :: ·) ?_, List.map_fst_zip (by omega)⟩
  case _ =>
    conv => rhs; rw [← List.map_snd_zip (Nat.le_of_eq he.symm), ← hs, List.map_map]
    rfl
  case _ =>
    conv => rhs; rw [← List.map_fst_zip (Nat.le_of_eq he), ← hs, List.map_map]
    rfl

end Chain

variable [AnalyticScalar α]

-- The number of the piece that an input belongs to.
def number (pieces : Pieces α) (x : α) : Nat :=
  (pieces.bounds.takeWhile fun b => b ≤ x).length

-- The function that gets an input of pieces that reach from `lo` to `hi`, and the input that it
-- gets. Each list is looked up at the number of the piece and has an entry there.
inductive Passes (pieces : Pieces α) (lo hi x : α) : Function α → α → Prop
  | intro {f : Function α} {encode : α × α} {a b : α}
      (function : pieces.functions[pieces.number x]? = some f)
      (encoded : pieces.encodes[pieces.number x]? = some encode)
      (lower : (lo :: pieces.bounds)[pieces.number x]? = some a)
      (upper : (pieces.bounds ++ [hi])[pieces.number x]? = some b) :
      Passes pieces lo hi x f (Function.interpolate x a b encode.1 encode.2)

theorem passes_evaluatePieces (x lo hi : α) : (pieces : Pieces α) → ∃ f y,
    pieces.Passes lo hi x f y ∧ Function.evaluatePieces x lo hi pieces = f.evaluate [y]
  | last encode f => ⟨f, _, .intro rfl rfl rfl rfl, by rw [Function.evaluatePieces]⟩
  | before encode f bound rest => by
    rw [Function.evaluatePieces]
    split
    case isTrue hb =>
      have ⟨g, y, hp, he⟩ := passes_evaluatePieces x bound hi rest
      have hn : (before encode f bound rest).number x = rest.number x + 1 := by
        simp only [number, bounds, List.takeWhile_cons, hb, decide_true, if_true, List.length_cons]
      cases hp with
      | intro hf henc ha hb =>
        refine ⟨g, _, .intro ?_ ?_ ?_ ?_, he⟩ <;> rw [hn] <;> assumption
    case isFalse hb =>
      have hn : (before encode f bound rest).number x = 0 := by
        simp [number, bounds, hb]
      refine ⟨f, _, .intro ?_ ?_ ?_ ?_, rfl⟩ <;> rw [hn] <;> rfl

end PdfGraphics.Pieces
