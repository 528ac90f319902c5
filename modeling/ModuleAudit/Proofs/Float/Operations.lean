import ModuleAudit.Proofs.Float.Rounding

/-! The operations on finite floats. Each of them rounds the exact result. -/

namespace ModuleAudit.Floating

open Float.Model Float.Model.UnpackedFloat

variable {m m₁ m₂ : ℕ} {e e₁ e₂ : ℤ} {u v : UnpackedFloat} {s s₁ s₂ : Sign} {x y : ℚ}

/-! ### Signs -/

theorem cast_apply (s : Sign) (n : ℕ) : ((s.apply n : ℤ) : ℚ) = signed s n := by
  cases s <;> simp [Sign.apply, signed]

theorem signed_mul (s₁ s₂ : Sign) (x y : ℚ) : signed (s₁ * s₂) (x * y) = signed s₁ x * signed s₂ y :=
  match s₁, s₂ with
  | .negative, .negative => (neg_mul_neg x y).symm
  | .negative, .positive => (neg_mul x y).symm
  | .positive, .negative => (mul_neg x y).symm
  | .positive, .positive => rfl

theorem signed_div (s₁ s₂ : Sign) (x y : ℚ) : signed (s₁ / s₂) (x / y) = signed s₁ x / signed s₂ y :=
  match s₁, s₂ with
  | .negative, .negative => (neg_div_neg_eq x y).symm
  | .negative, .positive => (neg_div y x).symm
  | .positive, .negative => (div_neg x).symm
  | .positive, .positive => rfl

theorem signed_mul_right (s : Sign) (x y : ℚ) : signed s (x * y) = signed s x * y := by
  cases s <;> simp [signed]

/-! ### Sums and differences -/

theorem aligned_value (s : Sign) (m : ℕ) {e t : ℤ} (h : t ≤ e) :
    ((s.apply (decreaseExponent m e t).1 : ℤ) : ℚ) * 2 ^ t = signed s (m * 2 ^ e) := by
  have hexp : (decreaseExponent m e t).2 = t := by
    simp only [decreaseExponent]
    omega
  have hvalue := decreaseExponent_value m e t
  rw [hexp] at hvalue
  rw [cast_apply, ← signed_mul_right, hvalue]

theorem rounds_add (hu : Canonical u) (hv : Canonical v) :
    Rounds (unpackedValue u + unpackedValue v) (UnpackedFloat.add .binary64 u v) := by
  match u, v, hu, hv with
  | .zero s₁, .zero s₂, _, _ =>
    cases s₁ <;> cases s₂ <;> exact .of_eq trivial (add_zero _).symm
  | .zero _, .finite .., _, hv => exact .of_eq hv (zero_add _).symm
  | .finite .., .zero _, hu, _ => exact .of_eq hu (add_zero _).symm
  | .finite s₁ m₁ e₁ _, .finite s₂ m₂ e₂ _, _, _ =>
    rw [unpackedValue, unpackedValue, ← aligned_value s₁ m₁ (min_le_left e₁ e₂),
      ← aligned_value s₂ m₂ (min_le_right e₁ e₂), ← add_mul, ← Int.cast_add]
    exact rounds_normalize _ _ _

theorem rounds_sub (hu : Canonical u) (hv : Canonical v) :
    Rounds (unpackedValue u - unpackedValue v) (UnpackedFloat.sub .binary64 u v) := by
  match u, v, hu, hv with
  | .zero s₁, .zero s₂, _, _ =>
    cases s₁ <;> cases s₂ <;> exact .of_eq trivial (sub_zero _).symm
  | .zero _, .finite s m e _, _, hv =>
    refine .of_eq hv ?_
    cases s with
    | negative => exact ((zero_sub _).trans (neg_neg _)).symm
    | positive => exact (zero_sub _).symm
  | .finite .., .zero _, hu, _ => exact .of_eq hu (sub_zero _).symm
  | .finite s₁ m₁ e₁ _, .finite s₂ m₂ e₂ _, _, _ =>
    rw [unpackedValue, unpackedValue, ← aligned_value s₁ m₁ (min_le_left e₁ e₂),
      ← aligned_value s₂ m₂ (min_le_right e₁ e₂), ← sub_mul, ← Int.cast_sub]
    exact rounds_normalize _ _ _

/-! ### Products -/

theorem le_log2_mul (hm : m₁ ≠ 0) (h : 2 ^ 52 ≤ m₂) : 52 ≤ (m₁ * m₂).log2 :=
  (Nat.le_log2 (by positivity)).mpr (h.trans (Nat.le_mul_of_pos_left m₂ (by positivity)))

/-- The product of two mantissas is long enough to be rounded. -/
theorem le_target_mul (hm₁ : 0 < m₁) (hm₂ : 0 < m₂) (h₁ : Aligned m₁ e₁) (h₂ : Aligned m₂ e₂) :
    e₁ + e₂ ≤ target (m₁ * m₂) (e₁ + e₂) := by
  rw [target_eq]
  rcases h₁.bits with hbits | rfl
  · have := le_log2_mul hm₂.ne' hbits
    rw [mul_comm] at this
    omega
  · rcases h₂.bits with hbits | rfl
    · have := le_log2_mul hm₁.ne' hbits
      omega
    · omega

theorem rounds_mul (hu : Canonical u) (hv : Canonical v) :
    Rounds (unpackedValue u * unpackedValue v) (UnpackedFloat.mul .binary64 u v) := by
  match u, v, hu, hv with
  | .zero _, .zero _, _, _ => exact .of_eq trivial (zero_mul _).symm
  | .zero _, .finite .., _, _ => exact .of_eq trivial (zero_mul _).symm
  | .finite .., .zero _, _, _ => exact .of_eq trivial (mul_zero _).symm
  | .finite s₁ m₁ e₁ hm₁, .finite s₂ m₂ e₂ hm₂, hu, hv =>
    have hvalue : (m₁ * 2 ^ e₁ : ℚ) * (m₂ * 2 ^ e₂) = (m₁ * m₂ : ℕ) * 2 ^ (e₁ + e₂) := by
      rw [zpow_add₀ two_ne_zero]
      push_cast
      ring
    rw [unpackedValue, unpackedValue, ← signed_mul, hvalue]
    exact rounds_roundWithAccuracy _ (stands_exact _) (le_target_mul hm₁ hm₂ hu.2 hv.2)

/-! ### Quotients -/

/-- A quotient without its fraction stands for the quotient, when it is told how large the fraction is. -/
theorem stands_div (a : ℕ) {b : ℕ} (hb : 0 < b) :
    Stands (.ofMantissaAndAccuracy (a / b) (accuracyOfFraction (a % b) b)) (a / b) := by
  have hb' : (0 : ℚ) < b := by exact_mod_cast hb
  have hsplit : (a : ℚ) = b * (a / b : ℕ) + (a % b : ℕ) := by exact_mod_cast (Nat.div_add_mod a b).symm
  have hlt : ((a % b : ℕ) : ℚ) < b := by exact_mod_cast Nat.mod_lt a hb
  have hnonneg : (0 : ℚ) ≤ (a % b : ℕ) := Nat.cast_nonneg _
  have hmantissa (acc : Accuracy) : (ExtendedMantissa.ofMantissaAndAccuracy (a / b) acc).mantissa = a / b := by
    cases acc with
    | exact => rfl
    | inexact o => cases o <;> rfl
  refine ⟨?_, ?_, ?_⟩
  · rw [hmantissa, le_div_iff₀ hb']
    linarith
  · rw [hmantissa, div_lt_iff₀ hb']
    linarith
  · rw [hmantissa, div_eq_iff hb'.ne', accuracyOfFraction]
    split
    next h =>
      rw [h] at hsplit
      exact iff_of_true (by rw [hsplit]; push_cast; ring) ⟨rfl, rfl⟩
    next h =>
      have hpos : (0 : ℚ) < (a % b : ℕ) := by exact_mod_cast Nat.pos_of_ne_zero h
      refine iff_of_false (fun hab => by linarith) ?_
      cases compare (2 * (a % b)) b <;> simp [ExtendedMantissa.ofMantissaAndAccuracy]

theorem le_log2_div (hm₁ : m₁ ≠ 0) (hm₂ : 0 < m₂) (h : m₂.log2 + 53 ≤ m₁.log2) : 52 ≤ (m₁ / m₂).log2 := by
  have hlower := Nat.log2_self_le hm₁
  have hupper : m₂ < 2 ^ (m₂.log2 + 1) := Nat.lt_log2_self
  have hquot : 2 ^ 52 ≤ m₁ / m₂ := by
    rw [Nat.le_div_iff_mul_le hm₂]
    calc 2 ^ 52 * m₂ ≤ 2 ^ 52 * 2 ^ (m₂.log2 + 1) := Nat.mul_le_mul_left _ hupper.le
      _ = 2 ^ (m₂.log2 + 53) := by rw [← pow_add]; congr 1; omega
      _ ≤ 2 ^ m₁.log2 := Nat.pow_le_pow_right (by norm_num) h
      _ ≤ m₁ := hlower
  exact (Nat.le_log2 (by omega)).mpr hquot

/-- The exponent of a quotient before it is rounded. -/
abbrev quotientExponent (m₁ : ℕ) (e₁ : ℤ) (m₂ : ℕ) (e₂ : ℤ) : ℤ :=
  min (e₁ - e₂) (Format.binary64.targetExponent (totalExponent m₁ e₁ - totalExponent m₂ e₂))

theorem quotientExponent_eq (m₁ : ℕ) (e₁ : ℤ) (m₂ : ℕ) (e₂ : ℤ) : quotientExponent m₁ e₁ m₂ e₂ =
    min (e₁ - e₂) (max (m₁.log2 + e₁ - (m₂.log2 + e₂) - 53) (-1074)) := by
  simp only [quotientExponent, Format.targetExponent, totalExponent, Format.mantissaBits, Format.minExponent]
  norm_num
  omega

/-- The quotient of two mantissas is long enough to be rounded. -/
theorem le_target_div {k : ℕ} {t : ℤ} (hm₁ : 0 < m₁) (hm₂ : 0 < m₂) (ht : quotientExponent m₁ e₁ m₂ e₂ = t)
    (hk : e₁ - e₂ - t = k) : t ≤ target ((m₁ <<< k) / m₂) t := by
  rw [quotientExponent_eq] at ht
  rw [target_eq]
  rcases le_or_gt t (-1074) with hsmall | hlarge
  · omega
  · have hshift := log2_shiftLeft hm₁.ne' k
    have hlog := le_log2_div (Nat.shiftLeft_pos_iff.mpr hm₁).ne' hm₂ (show m₂.log2 + 53 ≤ (m₁ <<< k).log2 by omega)
    omega

theorem rounds_div (hu : Canonical u) (hv : Canonical v) (hne : unpackedValue v ≠ 0) :
    Rounds (unpackedValue u / unpackedValue v) (UnpackedFloat.div .binary64 u v) := by
  match u, v, hu, hv with
  | .zero _, .zero _, _, _ => exact absurd rfl hne
  | .finite .., .zero _, _, _ => exact absurd rfl hne
  | .zero _, .finite .., _, _ => exact .of_eq trivial (zero_div _).symm
  | .finite s₁ m₁ e₁ hm₁, .finite s₂ m₂ e₂ hm₂, hu, hv =>
    obtain ⟨t, ht⟩ : ∃ t, quotientExponent m₁ e₁ m₂ e₂ = t := ⟨_, rfl⟩
    obtain ⟨k, hk⟩ := Int.eq_ofNat_of_zero_le (sub_nonneg.mpr (ht.symm.trans_le (min_le_left _ _)))
    have hvalue : (m₁ * 2 ^ e₁ : ℚ) / (m₂ * 2 ^ e₂) = (m₁ <<< k : ℕ) / m₂ * 2 ^ t := by
      rw [show e₁ = k + t + e₂ by omega, zpow_add₀ two_ne_zero, zpow_add₀ two_ne_zero, zpow_natCast, Nat.shiftLeft_eq]
      push_cast
      field_simp
    have hdiv : UnpackedFloat.div .binary64 (.finite s₁ m₁ e₁ hm₁) (.finite s₂ m₂ e₂ hm₂) =
        roundWithAccuracy .binary64 (s₁ / s₂) ((m₁ <<< k) / m₂) t (accuracyOfFraction ((m₁ <<< k) % m₂) m₂) := by
      simp only [UnpackedFloat.div, divCore]
      rw [show min (e₁ - e₂) _ = t from ht, hk, Int.toNat_natCast]
    rw [hdiv, unpackedValue, unpackedValue, ← signed_div, hvalue]
    exact rounds_roundWithAccuracy _ (stands_div _ hm₂) (le_target_div hm₁ hm₂ ht hk)

end ModuleAudit.Floating
