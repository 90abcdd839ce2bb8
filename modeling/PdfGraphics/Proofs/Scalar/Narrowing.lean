import PdfGraphics.Proofs.Scalar.Binary32
import PdfGraphics.Proofs.Scalar.Binary64
/-!
Rounding binary64 numbers to binary32.

Rounding never gets past a number of the format. So what lies between two numbers of both formats
stays between them when it is rounded to one format and then to the other.
-/

namespace PdfGraphics

open Float.Model (Format UnpackedFloat)

namespace Rounding

open Float.Model.UnpackedFloat

variable {spec : Format} {q a b : ℚ} {u : UnpackedFloat}

theorem holds_two_pow (hs : spec.minExponent ≤ maxExponent spec) {e : ℤ}
    (he : spec.minExponent ≤ e) (he' : e ≤ maxExponent spec) : Holds spec (2 ^ e) := by
  have hp := one_lt_mantissaBits spec
  have h := holds_of_lt hs (Nat.one_lt_two_pow (by omega : spec.mantissaBits ≠ 0)) he he'
  rwa [Nat.cast_one, one_mul] at h

theorem IsNearest.between (hs : spec.minExponent ≤ maxExponent spec) (h : IsNearest spec q u)
    (ha : Holds spec a) (hb : Holds spec b) (hq : q ∈ Set.Icc a b) :
    ∃ v ∈ Set.Icc a b, value? u = some v := by
  have hlo := (abs_lt.mp (ha.lt_limit hs)).left
  have hhi := (abs_lt.mp (hb.lt_limit hs)).right
  have ⟨v, hv, hnear⟩ := h.finite (abs_lt.mpr ⟨hlo.trans_le hq.left, hq.right.trans_lt hhi⟩)
  refine ⟨v, ⟨?_, ?_⟩, hv⟩ <;> by_contra hlt
  case refine_1 =>
    have hd := (hnear a ha).left
    rw [abs_of_nonneg (by linarith [hq.left]), abs_of_nonneg (by linarith [hq.left])] at hd
    linarith
  case refine_2 =>
    have hd := (hnear b hb).left
    rw [abs_of_nonpos (by linarith [hq.right]), abs_of_nonpos (by linarith [hq.right])] at hd
    linarith

end Rounding

namespace Binary64

-- A word of 32 bits is converted without a change.
theorem isSigned_word (x : UInt32) : IsSigned x.toFloat .positive x.toNat := by
  have hr : Rounds .positive x.toNat x.toFloat := Rounding.isRounding_ofNat minExponent_le x.toNat
  exact hr.isSigned (holds_natCast _ (x.toNat_lt.trans (by norm_num)))

end Binary64

namespace Binary32

open Rounding (IsNearest)

theorem isNearest_ofBinary64 {x : Float} {v : ℚ} (h : Binary64.value? x = some v) :
    IsNearest .binary32 v (ofBinary64 x).toModel.unpack := by
  unfold Binary64.value? at h
  unfold ofBinary64
  cases hu : x.toModel.unpack with
  | notANumber | infinity =>
    rw [hu] at h
    cases h
  | zero s =>
    rw [hu] at h
    cases h
    have hz := (Rounding.isRounding_zero minExponent_le s).nearest
    rwa [mul_zero] at hz
  | finite s m e hm =>
    rw [hu] at h
    cases h
    have ⟨n, t, hr, he⟩ := Rounding.round_eq .binary32 s e hm.ne'
    have hn := hr.isNearest minExponent_le s
    rwa [← he] at hn

end Binary32

end PdfGraphics
