import PdfGraphics.Proofs.Scalar.Nearest
/-!
Arithmetic in a floating-point format.

A product, a quotient, and a decimal number are computed exactly and rounded once. So each result is
the number of the format that is nearest to the exact one, with the sign that the signs of the
operands make.
-/

namespace PdfGraphics.Rounding

open Float.Model (Format UnpackedFloat totalExponent)
open Float.Model.UnpackedFloat

def sign? : UnpackedFloat → Option Sign
  | .notANumber                          => none
  | .infinity s | .zero s | .finite s .. => some s

-- A magnitude with a sign, rounded to the nearest number. Zero and infinity have the sign too.
structure IsRounding (spec : Format) (s : Sign) (q : ℚ) (u : UnpackedFloat) : Prop where
  nearest : IsNearest spec (side s * q) u
  sign    : sign? u = some s

variable {spec : Format} {s s₁ s₂ : Sign} {m m₁ m₂ n : ℕ} {e e₁ e₂ t : ℤ} {q w : ℚ}

theorem sign?_scaled : sign? (scaled spec s n e) = some s := by
  unfold scaled finiteOrZero
  split <;> split <;> rfl

theorem le_targetExponent (hm : 2 ^ (spec.mantissaBits - 1) ≤ m) :
    e ≤ spec.targetExponent (totalExponent m e) := by
  have hz : m ≠ 0 := (Nat.two_pow_pos _).trans_le hm |>.ne'
  have hlog := (Nat.le_log2 hz).mpr hm
  have hmax : spec.targetExponent (totalExponent m e) =
      max (m.log2 + 1 + e - spec.mantissaBits) spec.minExponent := rfl
  omega

theorem targetExponent_mono (spec : Format) {a b : ℤ} (h : a ≤ b) :
    spec.targetExponent a ≤ spec.targetExponent b :=
  max_le_max_right _ (sub_le_sub_right h _)

theorem round_eq (spec : Format) (s : Sign) (e : ℤ) (hm : m ≠ 0) :
    ∃ n t, Rounds spec (m * 2 ^ e) n t ∧ round spec s m e = scaled spec s n t := by
  let k := (e - spec.targetExponent (totalExponent m e)).toNat
  have hlog : m.log2 + k ≤ (m <<< k).log2 := by
    rw [Nat.le_log2 (by simpa [Nat.shiftLeft_eq] using hm), Nat.shiftLeft_eq, pow_add]
    exact Nat.mul_le_mul_right _ (Nat.log2_self_le hm)
  have htotal : totalExponent m e ≤ totalExponent (m <<< k) (e - k) := by
    unfold totalExponent
    omega
  have hle := targetExponent_mono spec htotal
  have ⟨n, t, hr, heq⟩ := roundWithAccuracy_eq spec s .exact
    (show e - k ≤ spec.targetExponent (totalExponent (m <<< k) (e - k)) by omega)
  have hq : ((m <<< k : ℕ) + 0 : ℚ) * 2 ^ (e - k) = m * 2 ^ e := by
    rw [Nat.shiftLeft_eq, Nat.cast_mul, Nat.cast_pow, Nat.cast_ofNat, add_zero, mul_assoc,
      ← zpow_natCast, ← zpow_add₀ two_ne_zero, add_sub_cancel]
  exact ⟨n, t, hq ▸ hr, heq⟩

theorem mul_eq (spec : Format) (s₁ s₂ : Sign) (e₁ e₂ : ℤ) (h₁ : 0 < m₁) (h₂ : 0 < m₂)
    (he : e₁ + e₂ ≤ spec.targetExponent (totalExponent (m₁ * m₂) (e₁ + e₂))) :
    ∃ n t, Rounds spec (m₁ * 2 ^ e₁ * (m₂ * 2 ^ e₂)) n t ∧
      mul spec (.finite s₁ m₁ e₁ h₁) (.finite s₂ m₂ e₂ h₂) = scaled spec (s₁ * s₂) n t := by
  have ⟨n, t, hr, heq⟩ := roundWithAccuracy_eq spec (s₁ * s₂) .exact he
  have hq : ((m₁ * m₂ : ℕ) + 0 : ℚ) * 2 ^ (e₁ + e₂) = m₁ * 2 ^ e₁ * (m₂ * 2 ^ e₂) := by
    rw [zpow_add₀ two_ne_zero, Nat.cast_mul]
    ring
  exact ⟨n, t, hq ▸ hr, heq⟩

-- If one mantissa takes up all bits, so does the product. Otherwise both exponents are the least.
theorem le_targetExponent_mul (h₁ : Canonical spec m₁ e₁) (h₂ : Canonical spec m₂ e₂) :
    e₁ + e₂ ≤ spec.targetExponent (totalExponent (m₁ * m₂) (e₁ + e₂)) := by
  rcases h₁.normal, h₂.normal with ⟨he₁ | hm₁, he₂ | hm₂⟩
  case inl.inl =>
    have hmin := minExponent_eq spec
    have hm := spec.hm
    have hle : spec.minExponent ≤
        spec.targetExponent (totalExponent (m₁ * m₂) (e₁ + e₂)) := le_max_right _ _
    omega
  case inr.inl | inr.inr =>
    exact le_targetExponent (hm₁.trans (Nat.le_mul_of_pos_right _ h₂.pos))
  case inl.inr => exact le_targetExponent (hm₂.trans (Nat.le_mul_of_pos_left _ h₁.pos))

-- A dividend that was shifted far enough leaves a quotient with all digits that are asked for.
theorem le_targetExponent_div {k : ℕ} (h₁ : 0 < m₁) (h₂ : 0 < m₂) (hk : k + t = e₁ - e₂)
    (ht : t ≤ spec.targetExponent (totalExponent m₁ e₁ - totalExponent m₂ e₂)) :
    t ≤ spec.targetExponent (totalExponent (m₁ <<< k / m₂) t) := by
  refine ht.trans (targetExponent_mono spec ?_)
  have hpow : 2 ^ (m₁.log2 + k) < 2 ^ (m₂.log2 + 1 + ((m₁ <<< k / m₂).log2 + 1)) := by
    calc
      2 ^ (m₁.log2 + k) ≤ m₁ <<< k := by
        rw [Nat.shiftLeft_eq, pow_add]
        exact Nat.mul_le_mul_right _ (Nat.log2_self_le h₁.ne')
      _ < m₂ * (m₁ <<< k / m₂ + 1) := Nat.lt_mul_div_succ _ h₂
      _ ≤ 2 ^ (m₂.log2 + 1) * 2 ^ ((m₁ <<< k / m₂).log2 + 1) :=
        Nat.mul_le_mul Nat.lt_log2_self.le Nat.lt_log2_self
      _ = _ := (pow_add ..).symm
  have hlog := (Nat.pow_lt_pow_iff_right one_lt_two).mp hpow
  unfold totalExponent
  omega

theorem div_eq (spec : Format) (s₁ s₂ : Sign) (e₁ e₂ : ℤ) (h₁ : 0 < m₁) (h₂ : 0 < m₂) :
    ∃ n t, Rounds spec (m₁ * 2 ^ e₁ / (m₂ * 2 ^ e₂)) n t ∧
      div spec (.finite s₁ m₁ e₁ h₁) (.finite s₂ m₂ e₂ h₂) = scaled spec (s₁ / s₂) n t := by
  let t := min (e₁ - e₂) (spec.targetExponent (totalExponent m₁ e₁ - totalExponent m₂ e₂))
  let k := (e₁ - e₂ - t).toNat
  have hk : k + t = e₁ - e₂ := by omega
  have ⟨n, f, hr, heq⟩ := roundWithAccuracy_eq spec (s₁ / s₂)
    (accurate_fraction (Nat.mod_lt (m₁ <<< k) h₂))
    (le_targetExponent_div h₁ h₂ hk (min_le_right _ _))
  have hm₂ : (m₂ : ℚ) ≠ 0 := by exact_mod_cast h₂.ne'
  have hdiv : ((m₁ <<< k / m₂ : ℕ) : ℚ) + (m₁ <<< k % m₂ : ℕ) / m₂ = m₁ * 2 ^ k / m₂ := by
    have hd : m₂ * (m₁ <<< k / m₂) + m₁ <<< k % m₂ = m₁ * 2 ^ k :=
      (Nat.div_add_mod ..).trans (Nat.shiftLeft_eq ..)
    rw [show (m₁ : ℚ) * 2 ^ k = (m₁ * 2 ^ k : ℕ) by push_cast; rfl, ← hd]
    push_cast
    field_simp
  have hq : ((m₁ <<< k / m₂ : ℕ) + (m₁ <<< k % m₂ : ℕ) / m₂ : ℚ) * 2 ^ t =
      m₁ * 2 ^ e₁ / (m₂ * 2 ^ e₂) := by
    have he₂ : (2 : ℚ) ^ e₂ ≠ 0 := by positivity
    have he₁ : (2 : ℚ) ^ e₁ = 2 ^ k * 2 ^ t * 2 ^ e₂ := by
      rw [← zpow_natCast, ← zpow_add₀ two_ne_zero, hk, ← zpow_add₀ two_ne_zero, sub_add_cancel]
    rw [hdiv, he₁]
    field_simp
  exact ⟨n, f, hq ▸ hr, heq⟩

-- Less than half of the least unit is rounded to zero.
theorem rounds_tiny (hq : 0 ≤ q) (hlt : q < 2 ^ (spec.minExponent - 1)) :
    Rounds spec q 0 spec.minExponent := by
  have hpos : (0 : ℚ) < 2 ^ spec.minExponent := by positivity
  refine ⟨hq, .of_lt ?_, le_rfl, hlt.trans_le (zpow_le_zpow_right₀ one_le_two ?_), .inl rfl⟩
  case refine_1 =>
    rw [Nat.cast_zero, sub_zero, abs_of_nonneg (div_nonneg hq hpos.le), div_lt_iff₀ hpos, one_div,
      ← zpow_neg_one, ← zpow_add₀ two_ne_zero, neg_add_eq_sub]
    exact hlt
  case refine_2 => omega

theorem side_neg (s : Sign) : side (-s) = -side s := by
  cases s <;> rfl

theorem sign?_neg (u : UnpackedFloat) : sign? (neg u) = (sign? u).map (-·) := by
  cases u <;> rfl

theorem isEven_neg (u : UnpackedFloat) : IsEven (neg u) ↔ IsEven u := by
  cases u <;> rfl

theorem value?_neg (u : UnpackedFloat) : value? (neg u) = (value? u).map (-·) := by
  cases u with
  | notANumber | infinity => rfl
  | zero                  => exact congrArg some neg_zero.symm
  | finite s              => cases s <;> simp [neg, value?, side]

section Packed

variable (hs : spec.minExponent ≤ maxExponent spec)

include hs

theorem Rounds.isRounding (h : Rounds spec q n e) (s : Sign) :
    IsRounding spec s q (unpack spec (pack spec (scaled spec s n e))) where
  nearest := h.isNearest hs s
  sign    := by
    rcases lt_or_ge q (limit spec) with hq | hq
    case inl => rw [h.unpack_pack_scaled hs hq, sign?_scaled]
    case inr => rw [h.unpack_pack_scaled_infinity hs hq]; rfl

theorem isRounding_zero (s : Sign) : IsRounding spec s 0 (unpack spec (pack spec (.zero s))) := by
  rw [← scaled_zero spec s spec.minExponent]
  exact (rounds_tiny le_rfl (by positivity)).isRounding hs s

omit hs in
theorem isRounding_infinity (s : Sign) (hq : limit spec ≤ q) :
    IsRounding spec s q (unpack spec (pack spec (.infinity s))) := by
  have hpos := (limit_pos spec).trans_le hq
  rw [unpack_pack_infinity]
  refine ⟨⟨fun hlt => ?_, fun _ => ?_⟩, rfl⟩
  case refine_1 =>
    rw [abs_side_mul, abs_of_pos hpos] at hlt
    exact absurd hq hlt.not_ge
  case refine_2 =>
    cases s with
    | negative => rw [if_pos (by simpa [side] using hpos)]
    | positive => rw [if_neg (by simpa [side] using hpos.le)]

-- A finite number by its sign and its magnitude.
inductive Signed : UnpackedFloat → Sign → ℚ → Prop
  | zero (s : Sign) : Signed (.zero s) s 0
  | finite (s : Sign) (m : ℕ) (e : ℤ) (hm : 0 < m) : Signed (.finite s m e hm) s (m * 2 ^ e)

section Operations

variable {b b₁ b₂ : BitVec spec.numBits} {q₁ q₂ : ℚ}

theorem signed_of_isRounding (h : IsRounding spec s q (unpack spec b))
    (hq : Holds spec (side s * q)) : Signed (unpack spec b) s q := by
  have hv := h.nearest.value hs hq
  have hsign := h.sign
  have hside : (side s : ℚ) ≠ 0 := by cases s <;> norm_num [side]
  cases hu : unpack spec b with
  | notANumber | infinity =>
    rw [hu] at hv
    cases hv
  | zero =>
    rw [hu] at hv hsign
    cases hsign
    have hz := (mul_eq_zero.mp (Option.some.inj hv).symm).resolve_left hside
    exact hz ▸ .zero _
  | finite =>
    rw [hu] at hv hsign
    cases hsign
    exact mul_left_cancel₀ hside (Option.some.inj hv) ▸ .finite ..

theorem isRounding_mul (h₁ : Signed (unpack spec b₁) s₁ q₁) (h₂ : Signed (unpack spec b₂) s₂ q₂) :
    IsRounding spec (s₁ * s₂) (q₁ * q₂)
      (unpack spec (pack spec (mul spec (unpack spec b₁) (unpack spec b₂)))) := by
  generalize hu₁ : unpack spec b₁ = u₁ at h₁
  generalize hu₂ : unpack spec b₂ = u₂ at h₂
  cases h₁ with
  | zero =>
    rw [zero_mul]
    cases h₂ <;> exact isRounding_zero hs _
  | finite _ m₁ e₁ hm₁ =>
    cases h₂ with
    | zero =>
      rw [mul_zero]
      exact isRounding_zero hs _
    | finite _ m₂ e₂ hm₂ =>
      have ⟨hc₁, _⟩ := canonical_of_unpack hs hu₁
      have ⟨hc₂, _⟩ := canonical_of_unpack hs hu₂
      have ⟨_, _, hr, heq⟩ := mul_eq spec s₁ s₂ e₁ e₂ hm₁ hm₂ (le_targetExponent_mul hc₁ hc₂)
      rw [heq]
      exact hr.isRounding hs _

theorem isRounding_div (h₁ : Signed (unpack spec b₁) s₁ q₁) (h₂ : Signed (unpack spec b₂) s₂ q₂)
    (hq : q₂ ≠ 0) : IsRounding spec (s₁ / s₂) (q₁ / q₂)
      (unpack spec (pack spec (div spec (unpack spec b₁) (unpack spec b₂)))) := by
  generalize unpack spec b₁ = u₁ at h₁
  generalize unpack spec b₂ = u₂ at h₂
  cases h₂ with
  | zero => exact absurd rfl hq
  | finite _ m₂ e₂ hm₂ =>
    cases h₁ with
    | zero =>
      rw [zero_div]
      exact isRounding_zero hs _
    | finite _ m₁ e₁ hm₁ =>
      have ⟨_, _, hr, heq⟩ := div_eq spec s₁ s₂ e₁ e₂ hm₁ hm₂
      rw [heq]
      exact hr.isRounding hs _

theorem unpack_pack_neg (h : unpack spec b ≠ .notANumber) :
    unpack spec (pack spec (neg (unpack spec b))) = neg (unpack spec b) := by
  cases hu : unpack spec b with
  | notANumber     => exact absurd hu h
  | infinity       => exact unpack_pack_infinity
  | zero           => exact unpack_pack_zero
  | finite s m e _ =>
    have ⟨hc, he⟩ := canonical_of_unpack hs hu
    exact unpack_pack_finite hc he

-- Negating swaps the numbers on both sides of zero.
theorem Holds.neg (h : Holds spec w) : Holds spec (-w) := by
  have ⟨b, hb⟩ := h
  have hn : unpack spec b ≠ .notANumber := by
    intro hn
    rw [hn] at hb
    cases hb
  refine ⟨pack spec (UnpackedFloat.neg (unpack spec b)), ?_⟩
  rw [unpack_pack_neg hs hn, value?_neg, hb]
  rfl

theorem IsRounding.neg (h : IsRounding spec s q (unpack spec b)) :
    IsRounding spec (-s) q (unpack spec (pack spec (UnpackedFloat.neg (unpack spec b)))) := by
  have hn : unpack spec b ≠ .notANumber := by
    intro hn
    have hsign := h.sign
    rw [hn] at hsign
    cases hsign
  have hside : (side (-s) * q : ℚ) = -(side s * q) := by
    rw [side_neg, Int.cast_neg, neg_mul]
  rw [unpack_pack_neg hs hn]
  refine ⟨⟨fun hq => ?_, fun hq => ?_⟩, by rw [sign?_neg, h.sign]; rfl⟩
  case refine_1 =>
    rw [hside, abs_neg] at hq
    have ⟨v, hv, hnear⟩ := h.nearest.finite hq
    have hdist (y : ℚ) : |-(side s * q) - y| = |side s * q - -y| := by
      rw [← abs_neg, neg_sub', neg_neg]
    refine ⟨-v, by rw [value?_neg, hv]; rfl, fun w hw => ?_⟩
    have ⟨hle, heq⟩ := hnear (-w) (hw.neg hs)
    rw [hside, hdist, hdist, neg_neg, isEven_neg]
    exact ⟨hle, fun hd => (heq hd).imp_left neg_eq_iff_eq_neg.mp⟩
  case refine_2 =>
    have hpos := (limit_pos spec).trans_le hq
    rw [hside, abs_neg] at hq
    rw [h.nearest.infinite hq, hside]
    rw [abs_pos, hside, neg_ne_zero] at hpos
    rcases hpos.lt_or_gt with hlt | hgt
    case inl => rw [if_pos hlt, if_neg (by linarith)]; rfl
    case inr => rw [if_neg (by linarith), if_pos (by linarith)]; rfl

end Operations

-- A mantissa that is short enough stays as it is.
theorem holds_of_lt (hm : m < 2 ^ spec.mantissaBits) (he : spec.minExponent ≤ e)
    (he' : e ≤ maxExponent spec) : Holds spec (m * 2 ^ e) := by
  by_cases hz : m = 0
  case pos =>
    refine ⟨pack spec (.zero .positive), ?_⟩
    rw [unpack_pack_zero, hz, Nat.cast_zero, zero_mul]
    rfl
  case neg =>
    have ⟨n, t, hr, _⟩ := round_eq spec .positive e hz
    have hle : t ≤ e := by
      rcases hr.normal with ht | hlow
      case inl => exact ht ▸ he
      case inr =>
        have hm : (m : ℚ) < 2 ^ (spec.mantissaBits : ℤ) := by exact_mod_cast hm
        have hlt := hlow.trans_lt (mul_lt_mul_of_pos_right hm (by positivity))
        rw [← zpow_add₀ two_ne_zero, zpow_lt_zpow_iff_right₀ one_lt_two] at hlt
        omega
    have hq : (m : ℚ) * 2 ^ e = (m * 2 ^ (e - t).toNat : ℕ) * 2 ^ t := by
      rw [Nat.cast_mul, Nat.cast_pow, Nat.cast_ofNat, ← zpow_natCast,
        Int.toNat_of_nonneg (sub_nonneg.mpr hle), mul_assoc, ← zpow_add₀ two_ne_zero,
        sub_add_cancel]
    have hn : n = m * 2 ^ (e - t).toNat := by
      have hx := hr.rounded
      rw [hq, mul_div_cancel_right₀ _ (by positivity)] at hx
      exact hx.eq_of_natCast
    refine ⟨pack spec (scaled spec .positive n t), ?_⟩
    rw [hr.unpack_pack_scaled hs (mul_lt_limit hm he'), value?_scaled hr.le, hq, hn]
    exact congrArg some (one_mul _)

theorem holds_side_of_lt (s : Sign) (hm : m < 2 ^ spec.mantissaBits) (he : spec.minExponent ≤ e)
    (he' : e ≤ maxExponent spec) : Holds spec (side s * (m * 2 ^ e)) := by
  have h := holds_of_lt hs hm he he'
  cases s with
  | negative => simpa [side] using h.neg hs
  | positive => simpa [side] using h

theorem isRounding_ofNat (n : ℕ) :
    IsRounding spec .positive n (unpack spec (pack spec (ofNat spec n))) := by
  by_cases hn : n = 0
  case pos =>
    rw [hn, Nat.cast_zero]
    exact isRounding_zero hs _
  case neg =>
    have ⟨_, _, hr, heq⟩ := round_eq spec .positive 0 hn
    have hc : compare (n : ℤ) 0 = .gt := compare_gt_iff_gt.mpr (by omega)
    have ho : ofNat spec n = round spec .positive n 0 := by
      rw [ofNat, ofInt, UnpackedFloat.normalize, hc, Int.toNat_natCast]
    rw [zpow_zero, mul_one] at hr
    rw [ho, heq]
    exact hr.isRounding hs _

end Packed

section Scientific

theorem limit_le_of_large (hm : m ≠ 0) (he : 2 ^ spec.exponentBits < e) :
    limit spec ≤ m * 10 ^ e := by
  have hone : (1 : ℚ) ≤ m := by exact_mod_cast Nat.one_le_iff_ne_zero.mpr hm
  have hpos : (0 : ℚ) < 2 ^ (maxExponent spec - 1) := by positivity
  have hpow : (2 : ℤ) ^ (spec.exponentBits - 1) ≤ 2 ^ spec.exponentBits :=
    pow_le_pow_right₀ one_le_two (Nat.sub_le _ _)
  have hnat : ((e.toNat : ℕ) : ℤ) = e := Int.toNat_of_nonneg (by
    have : (0 : ℤ) < 2 ^ spec.exponentBits := by positivity
    omega)
  calc
    limit spec ≤ 2 ^ (spec.mantissaBits + maxExponent spec) := by
      rw [limit_eq]
      linarith
    _ ≤ 2 ^ e := zpow_le_zpow_right₀ one_le_two (by rw [maxExponent]; omega)
    _ ≤ 10 ^ e := by
      rw [← hnat, zpow_natCast, zpow_natCast]
      exact pow_le_pow_left₀ zero_le_two (by norm_num) _
    _ ≤ m * 10 ^ e := le_mul_of_one_le_left (by positivity) hone

theorem lt_of_small (hwide : -2 ^ spec.exponentBits < spec.minExponent)
    (he : e < -(2 ^ spec.exponentBits + m.log2)) :
    (m : ℚ) * 10 ^ e < 2 ^ (spec.minExponent - 1) := by
  have hm : (m : ℚ) < 2 ^ (m.log2 + 1) := by exact_mod_cast Nat.lt_log2_self
  have hnat : -((-e).toNat : ℤ) = e := by
    have : (0 : ℤ) < 2 ^ spec.exponentBits := by positivity
    omega
  have hten : (10 : ℚ) ^ e ≤ 2 ^ e := by
    rw [← hnat, zpow_neg, zpow_neg, zpow_natCast, zpow_natCast]
    gcongr
    norm_num
  calc
    (m : ℚ) * 10 ^ e ≤ m * 2 ^ e := mul_le_mul_of_nonneg_left hten m.cast_nonneg
    _ < 2 ^ (m.log2 + 1) * 2 ^ e := mul_lt_mul_of_pos_right hm (by positivity)
    _ = 2 ^ ((m.log2 + 1 : ℕ) + e) := by rw [zpow_add₀ two_ne_zero, zpow_natCast]
    _ ≤ 2 ^ (spec.minExponent - 1) := zpow_le_zpow_right₀ one_le_two (by omega)

theorem exists_rounds_of_nonneg (spec : Format) (he : 0 ≤ e) (h₁ : 0 < m <<< spec.mantissaBits)
    (h₂ : 0 < 10 ^ e.toNat) : ∃ n t, Rounds spec (m * 10 ^ e) n t ∧
      mul spec (.finite .positive (m <<< spec.mantissaBits) (-spec.mantissaBits) h₁)
        (.finite .positive (10 ^ e.toNat) 0 h₂) = scaled spec .positive n t := by
  have hlen : 2 ^ (spec.mantissaBits - 1) ≤ m <<< spec.mantissaBits * 10 ^ e.toNat := by
    have hm : 0 < m := by
      rw [Nat.shiftLeft_eq] at h₁
      exact Nat.pos_of_mul_pos_right h₁
    calc
      2 ^ (spec.mantissaBits - 1) ≤ 2 ^ spec.mantissaBits :=
        Nat.pow_le_pow_right two_pos (Nat.sub_le _ _)
      _ ≤ m * 2 ^ spec.mantissaBits := Nat.le_mul_of_pos_left _ hm
      _ = m <<< spec.mantissaBits := (Nat.shiftLeft_eq ..).symm
      _ ≤ m <<< spec.mantissaBits * 10 ^ e.toNat := Nat.le_mul_of_pos_right _ h₂
  have ⟨n, t, hr, heq⟩ := mul_eq spec .positive .positive (-spec.mantissaBits) 0 h₁ h₂
    (le_targetExponent hlen)
  have hq : ((m <<< spec.mantissaBits : ℕ) * 2 ^ (-spec.mantissaBits : ℤ) *
      ((10 ^ e.toNat : ℕ) * 2 ^ (0 : ℤ)) : ℚ) = m * 10 ^ e := by
    have hten : (10 : ℚ) ^ e = 10 ^ e.toNat := by
      rw [← zpow_natCast, Int.toNat_of_nonneg he]
    rw [Nat.shiftLeft_eq, zpow_neg, zpow_natCast, zpow_zero, mul_one, hten]
    push_cast
    field_simp
  exact ⟨n, t, hq ▸ hr, heq⟩

theorem exists_rounds_of_neg (spec : Format) (he : e < 0) (h₁ : 0 < m) (h₂ : 0 < 10 ^ (-e).toNat) :
    ∃ n t, Rounds spec (m * 10 ^ e) n t ∧
      div spec (.finite .positive m 0 h₁) (.finite .positive (10 ^ (-e).toNat) 0 h₂) =
        scaled spec .positive n t := by
  have ⟨n, t, hr, heq⟩ := div_eq spec .positive .positive 0 0 h₁ h₂
  have hnat : ((-e).toNat : ℤ) = -e := Int.toNat_of_nonneg (by omega)
  have hq : (m : ℚ) * 2 ^ (0 : ℤ) / ((10 ^ (-e).toNat : ℕ) * 2 ^ (0 : ℤ)) = m * 10 ^ e := by
    rw [zpow_zero, mul_one, mul_one, Nat.cast_pow, Nat.cast_ofNat, ← zpow_natCast, hnat, zpow_neg,
      div_inv_eq_mul]
  exact ⟨n, t, hq ▸ hr, heq⟩

-- Before the exact result is computed, two checks tell those that are far too large and those that
-- are far too small.
theorem isRounding_ofScientific (hs : spec.minExponent ≤ maxExponent spec)
    (hwide : -2 ^ spec.exponentBits < spec.minExponent) (m : ℕ) (e : ℤ) :
    IsRounding spec .positive (m * 10 ^ e) (unpack spec (pack spec (ofScientific spec m e))) := by
  unfold ofScientific
  split
  case isTrue hm =>
    rw [hm, Nat.cast_zero, zero_mul]
    exact isRounding_zero hs _
  case isFalse hm =>
    split
    case isTrue he  => exact isRounding_infinity _ (limit_le_of_large hm he)
    case isFalse =>
      split
      case isTrue he  =>
        rw [← scaled_zero spec _ spec.minExponent]
        exact (rounds_tiny (by positivity) (lt_of_small hwide he)).isRounding hs _
      case isFalse =>
        split
        case isTrue he  =>
          have hshift : 0 < m <<< spec.mantissaBits := by
            simpa [Nat.pos_iff_ne_zero] using hm
          have ⟨_, _, hr, heq⟩ := exists_rounds_of_nonneg spec he hshift (Nat.pow_pos (by decide))
          rw [heq]
          exact hr.isRounding hs _
        case isFalse he =>
          have ⟨_, _, hr, heq⟩ := exists_rounds_of_neg spec (not_le.mp he) (Nat.pos_of_ne_zero hm)
            (Nat.pow_pos (by decide))
          rw [heq]
          exact hr.isRounding hs _

end Scientific

end PdfGraphics.Rounding
