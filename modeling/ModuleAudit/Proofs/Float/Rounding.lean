import Mathlib

/-! Rounding to floating-point numbers. What matters of a rounded result is that it stands between the same numbers as
    the exact one: a bound that can itself be represented is a bound of both. -/

namespace ModuleAudit.Floating

open Float.Model Float.Model.UnpackedFloat

variable {x y q : ℚ} {m : ℕ} {e : ℤ} {em : ExtendedMantissa} {s : Sign} {acc : Accuracy}

/-! ### Numbers that can be represented -/

/-- Numbers of at most 53 bits, none of them below the smallest positive number; there is no bound on their size. -/
def Representable (x : ℚ) : Prop := ∃ n t : ℤ, |n| ≤ 2 ^ 53 ∧ -1074 ≤ t ∧ x = n * 2 ^ t

theorem Representable.neg (h : Representable x) : Representable (-x) := by
  obtain ⟨n, t, hn, ht, rfl⟩ := h
  exact ⟨-n, t, by rwa [abs_neg], ht, by push_cast; ring⟩

theorem representable_mul_zpow {n : ℕ} {t : ℤ} (hn : n ≤ 2 ^ 53) (ht : -1074 ≤ t) : Representable (n * 2 ^ t) :=
  ⟨n, t, by rw [Nat.abs_cast]; exact_mod_cast hn, ht, by push_cast; rfl⟩

theorem representable_natCast {n : ℕ} (hn : n ≤ 2 ^ 53) : Representable n := by
  simpa using representable_mul_zpow hn (t := 0) (by norm_num)

theorem representable_zpow {t : ℤ} (ht : -1074 ≤ t) : Representable (2 ^ t) := by
  simpa using representable_mul_zpow (n := 1) (by norm_num) ht

/-- A mantissa uses all of its bits, unless its exponent is the smallest one. -/
structure Aligned (m : ℕ) (e : ℤ) : Prop where
  exponent : -1074 ≤ e
  bits : 2 ^ 52 ≤ m ∨ e = -1074

/-- No number that can be represented is strictly between two neighbours. -/
theorem Aligned.gap (h : Aligned m e) (hx : Representable x) : x ≤ m * 2 ^ e ∨ (m + 1) * 2 ^ e ≤ x := by
  obtain ⟨n, t, hn, ht, rfl⟩ := hx
  have hpos : (0 : ℚ) < 2 ^ e := by positivity
  rcases le_or_gt e t with hle | hlt
  · -- The number is a multiple of the distance of the neighbours.
    obtain ⟨k, hk⟩ := Int.eq_ofNat_of_zero_le (sub_nonneg.mpr hle)
    have hscale : (n : ℚ) * 2 ^ t = (n * 2 ^ k : ℤ) * 2 ^ e := by
      rw [show t = k + e by omega, zpow_add₀ two_ne_zero, zpow_natCast]
      push_cast
      ring
    rw [hscale, mul_le_mul_iff_left₀ hpos, mul_le_mul_iff_left₀ hpos]
    rcases le_or_gt (n * 2 ^ k : ℤ) m with h | h
    · exact Or.inl (by exact_mod_cast h)
    · exact Or.inr (by exact_mod_cast h)
  · -- The number has a smaller exponent, so the mantissa of the neighbours uses all bits and is larger.
    have hbits : 2 ^ 52 ≤ m := h.bits.resolve_right (by omega)
    have hn' : n ≤ 2 ^ 53 := (le_abs_self n).trans hn
    refine Or.inl ?_
    calc (n : ℚ) * 2 ^ t ≤ 2 ^ 53 * 2 ^ t := by gcongr; exact_mod_cast hn'
      _ = 2 ^ 52 * 2 ^ (t + 1) := by rw [zpow_add₀ two_ne_zero]; ring
      _ ≤ m * 2 ^ e := by
        gcongr
        · exact_mod_cast hbits
        · norm_num
        · omega

/-! ### What is left of a shifted mantissa -/

/-- A mantissa with residual bits stands for a number: the mantissa is that number without its fraction, and the bits
    tell whether there is a fraction. -/
structure Stands (em : ExtendedMantissa) (q : ℚ) : Prop where
  lower : em.mantissa ≤ q
  upper : q < em.mantissa + 1
  exact : q = em.mantissa ↔ em.roundBit = false ∧ em.stickyBit = false

theorem Stands.shiftRightOne (h : Stands em q) : Stands em.shiftRightOne (q / 2) := by
  have hdiv : (em.mantissa : ℚ) = 2 * (em.mantissa / 2 : ℕ) + (em.mantissa % 2 : ℕ) := by
    exact_mod_cast (Nat.div_add_mod em.mantissa 2).symm
  have hlower := h.lower
  have hupper := h.upper
  have hexact := h.exact
  rcases Nat.mod_two_eq_zero_or_one em.mantissa with hmod | hmod
  · rw [hmod] at hdiv
    simp only [Nat.cast_zero, add_zero] at hdiv
    refine ⟨?_, ?_, ?_⟩
    · simp only [ExtendedMantissa.shiftRightOne]
      linarith
    · simp only [ExtendedMantissa.shiftRightOne]
      linarith
    · simp only [ExtendedMantissa.shiftRightOne, hmod, bne_self_eq_false, Bool.or_eq_false_iff, true_and, ← hexact]
      constructor <;> intro h <;> linarith
  · rw [hmod] at hdiv
    simp only [Nat.cast_one] at hdiv
    refine ⟨?_, ?_, ?_⟩
    · simp only [ExtendedMantissa.shiftRightOne]
      linarith
    · simp only [ExtendedMantissa.shiftRightOne]
      linarith
    · simp only [ExtendedMantissa.shiftRightOne, hmod]
      constructor
      · intro h
        linarith
      · simp

theorem shiftRight_zero (em : ExtendedMantissa) : em >>> (0 : ℕ) = em := rfl

theorem shiftRight_succ (em : ExtendedMantissa) (n : ℕ) : em >>> (n + 1) = (em >>> n).shiftRightOne := rfl

theorem Stands.shiftRight (h : Stands em q) (n : ℕ) : Stands (em >>> n) (q / 2 ^ n) := by
  induction n with
  | zero => simpa [shiftRight_zero] using h
  | succ n ih =>
    rw [shiftRight_succ, pow_succ, ← div_div]
    exact ih.shiftRightOne

theorem mantissa_shiftRight (em : ExtendedMantissa) (n : ℕ) : (em >>> n).mantissa = em.mantissa / 2 ^ n := by
  induction n with
  | zero => simp [shiftRight_zero]
  | succ n ih =>
    rw [shiftRight_succ, pow_succ, ← Nat.div_div_eq_div_mul, ← ih]
    rfl

theorem roundedMantissa_bounds (em : ExtendedMantissa) :
    em.mantissa ≤ em.roundedMantissa ∧ em.roundedMantissa ≤ em.mantissa + 1 := by
  obtain ⟨m, round, sticky⟩ := em
  cases round <;> cases sticky <;>
    simp [ExtendedMantissa.roundedMantissa, ExtendedMantissa.accuracy, Accuracy.roundToNearestEven]
  omega

/-- Rounding leaves a number without a fraction as it is, and moves any other to one of its neighbours. -/
theorem Stands.roundedMantissa (h : Stands em q) : (em.roundedMantissa : ℚ) = q ∨
    em.mantissa < q ∧ (em.roundedMantissa = em.mantissa ∨ em.roundedMantissa = em.mantissa + 1) := by
  rcases eq_or_ne q em.mantissa with hq | hq
  · left
    obtain ⟨hround, hsticky⟩ := h.exact.mp hq
    rw [ExtendedMantissa.roundedMantissa, hq]
    obtain ⟨m, round, sticky⟩ := em
    simp only at hround hsticky
    subst hround hsticky
    rfl
  · have := roundedMantissa_bounds em
    exact Or.inr ⟨lt_of_le_of_ne h.lower hq.symm, by omega⟩

/-! ### Shifting to the exponent of a result -/

/-- The exponent that a number is rounded to. -/
abbrev target (m : ℕ) (e : ℤ) : ℤ := Format.binary64.targetExponent (totalExponent m e)

theorem target_eq (m : ℕ) (e : ℤ) : target m e = max (m.log2 + e - 52) (-1074) := by
  simp only [target, Format.targetExponent, totalExponent, Format.mantissaBits, Format.minExponent]
  norm_num
  omega

theorem div_two_pow_lt {n : ℕ} (h : m.log2 ≤ n + 52) : m / 2 ^ n < 2 ^ 53 := by
  refine Nat.div_lt_of_lt_mul ?_
  calc m < 2 ^ (m.log2 + 1) := Nat.lt_log2_self
    _ ≤ 2 ^ (n + 53) := Nat.pow_le_pow_right (by norm_num) (by omega)
    _ = 2 ^ n * 2 ^ 53 := pow_add 2 n 53

theorem le_div_two_pow {n : ℕ} (h : m.log2 = n + 52) : 2 ^ 52 ≤ m / 2 ^ n := by
  have hm : m ≠ 0 := by
    rintro rfl
    simp at h
  rw [Nat.le_div_iff_mul_le (by positivity), ← pow_add, show 52 + n = m.log2 by omega]
  exact Nat.log2_self_le hm

/-- What the first shift of a rounding leaves. -/
theorem stands_shiftToTargetExponent (h : Stands (.ofMantissaAndAccuracy m acc) q) (he : e ≤ target m e) :
    ∃ em e', shiftToTargetExponent .binary64 m e acc = (em, e') ∧ Stands em (q * 2 ^ e / 2 ^ e') ∧
      em.mantissa < 2 ^ 53 ∧ Aligned em.mantissa e' := by
  obtain ⟨n, hn⟩ := Int.eq_ofNat_of_zero_le (sub_nonneg.mpr he)
  have hr : shiftToTargetExponent .binary64 m e acc =
      (ExtendedMantissa.ofMantissaAndAccuracy m acc >>> n, e + n) := by
    simp only [shiftToTargetExponent, shiftToExponent]
    rw [show (target m e - e).toNat = n by omega]
  have hmantissa : (ExtendedMantissa.ofMantissaAndAccuracy m acc >>> n).mantissa = m / 2 ^ n := by
    rw [mantissa_shiftRight]
    cases acc with
    | exact => rfl
    | inexact o => cases o <;> rfl
  rw [target_eq] at hn
  refine ⟨_, _, hr, ?_, ?_, ?_, ?_⟩
  · have hscale : q * 2 ^ e / 2 ^ (e + n) = q / 2 ^ n := by
      rw [zpow_add₀ two_ne_zero, zpow_natCast]
      field_simp
    rw [hscale]
    exact h.shiftRight n
  · rw [hmantissa]
    exact div_two_pow_lt (by omega)
  · omega
  · rw [hmantissa]
    rcases eq_or_ne (e + n) (-1074) with h | h
    · exact Or.inr h
    · exact Or.inl (le_div_two_pow (by omega))

/-- The second shift of a rounding does nothing, unless the mantissa became one bit too long. -/
theorem shiftToTargetExponent_exact (hm : m < 2 ^ 53) (he : -1074 ≤ e) :
    shiftToTargetExponent .binary64 m e .exact = (⟨m, false, false⟩, e) := by
  have hlog : m.log2 ≤ 52 := by
    rcases eq_or_ne m 0 with rfl | h
    · simp
    · have := (Nat.log2_lt h).mpr hm
      omega
  have htarget : (target m e - e).toNat = 0 := by
    rw [target_eq]
    omega
  simp only [shiftToTargetExponent, shiftToExponent, htarget]
  simp [shiftRight_zero, ExtendedMantissa.ofMantissaAndAccuracy]

theorem shiftToTargetExponent_carry (he : -1074 ≤ e) :
    shiftToTargetExponent .binary64 (2 ^ 53) e .exact = (⟨2 ^ 52, false, false⟩, e + 1) := by
  have htarget : (target (2 ^ 53) e - e).toNat = 1 := by
    rw [target_eq, Nat.log2_two_pow]
    omega
  simp only [shiftToTargetExponent, shiftToExponent, htarget]
  rfl

/-! ### Rounded results -/

/-- The number with a sign. -/
def signed (s : Sign) (x : ℚ) : ℚ :=
  match s with
  | .negative => -x
  | .positive => x

/-- The number that a float stands for; zero where it stands for none. -/
def unpackedValue : UnpackedFloat → ℚ
  | .finite s m e _ => signed s (m * 2 ^ e)
  | _ => 0

/-- The finite floats of the form that results have; there is no bound on their size. -/
def Canonical : UnpackedFloat → Prop
  | .finite _ m e _ => m < 2 ^ 53 ∧ Aligned m e
  | .zero _ => True
  | _ => False

/-- A result is rounded from a number: it is between the same representable numbers. -/
structure Rounds (x : ℚ) (u : UnpackedFloat) : Prop where
  canonical : Canonical u
  lower : ∀ y, Representable y → y ≤ x → y ≤ unpackedValue u
  upper : ∀ y, Representable y → x ≤ y → unpackedValue u ≤ y

theorem Rounds.of_eq {u : UnpackedFloat} (hu : Canonical u) (h : unpackedValue u = x) : Rounds x u :=
  ⟨hu, fun _ _ hy => hy.trans_eq h.symm, fun _ _ hy => h.trans_le hy⟩

/-- The last shift of a rounding keeps the number. -/
theorem roundWithAccuracy_of_shift {e' : ℤ} (s : Sign) (h : shiftToTargetExponent .binary64 m e acc = (em, e'))
    (hle : em.roundedMantissa ≤ 2 ^ 53) (halign : Aligned em.roundedMantissa e') :
    Canonical (roundWithAccuracy .binary64 s m e acc) ∧
      unpackedValue (roundWithAccuracy .binary64 s m e acc) = signed s (em.roundedMantissa * 2 ^ e') := by
  rw [roundWithAccuracy, h]
  dsimp only
  generalize em.roundedMantissa = r at hle halign ⊢
  rcases hle.lt_or_eq with hlt | rfl
  · rw [shiftToTargetExponent_exact hlt halign.exponent]
    dsimp only
    split
    next hzero =>
      subst hzero
      refine ⟨trivial, ?_⟩
      cases s <;> simp [unpackedValue, signed]
    next => exact ⟨⟨hlt, halign⟩, rfl⟩
  · rw [shiftToTargetExponent_carry halign.exponent]
    dsimp only
    rw [dif_neg (by norm_num)]
    refine ⟨⟨by norm_num, ⟨by have := halign.exponent; omega, Or.inl le_rfl⟩⟩, ?_⟩
    rw [unpackedValue, zpow_add₀ two_ne_zero]
    push_cast
    congr 1
    ring

/-- The rounded mantissa is between the same representable numbers as the number that its mantissa stands for. -/
theorem Stands.rounded_between {z : ℚ} (h : Stands em (z / 2 ^ e)) (halign : Aligned em.mantissa e)
    (hy : Representable y) :
    (y ≤ z → y ≤ em.roundedMantissa * 2 ^ e) ∧ (z ≤ y → em.roundedMantissa * 2 ^ e ≤ y) := by
  have hpos : (0 : ℚ) < 2 ^ e := by positivity
  have hupper := (div_lt_iff₀ hpos).mp h.upper
  rcases h.roundedMantissa with heq | ⟨hlower, hrounded⟩
  · rw [heq, div_mul_cancel₀ z hpos.ne']
    exact ⟨id, id⟩
  · rw [lt_div_iff₀ hpos] at hlower
    have hfloor : (em.mantissa : ℚ) * 2 ^ e ≤ em.roundedMantissa * 2 ^ e := by
      gcongr
      exact (roundedMantissa_bounds em).1
    have hceil : em.roundedMantissa * (2 : ℚ) ^ e ≤ (em.mantissa + 1) * 2 ^ e := by
      gcongr
      exact_mod_cast (roundedMantissa_bounds em).2
    rcases halign.gap hy with hbelow | habove
    · exact ⟨fun _ => hbelow.trans hfloor, fun hz => absurd (hlower.trans_le (hz.trans hbelow)) (lt_irrefl _)⟩
    · exact ⟨fun hz => absurd (hupper.trans_le (habove.trans hz)) (lt_irrefl _), fun _ => hceil.trans habove⟩

/-- Rounding a number that is known up to its fraction. -/
theorem rounds_roundWithAccuracy (s : Sign) (h : Stands (.ofMantissaAndAccuracy m acc) q) (he : e ≤ target m e) :
    Rounds (signed s (q * 2 ^ e)) (roundWithAccuracy .binary64 s m e acc) := by
  obtain ⟨em, e', hshift, hstands, hlt, halign⟩ := stands_shiftToTargetExponent h he
  obtain ⟨hge, hle⟩ := roundedMantissa_bounds em
  obtain ⟨hcanonical, hvalue⟩ := roundWithAccuracy_of_shift s hshift (by omega)
    ⟨halign.exponent, halign.bits.imp_left fun h => h.trans hge⟩
  refine ⟨hcanonical, fun y hy hyz => ?_, fun y hy hyz => ?_⟩
  · rw [hvalue]
    cases s with
    | positive => exact (hstands.rounded_between halign hy).1 hyz
    | negative => exact le_neg.mp ((hstands.rounded_between halign hy.neg).2 (le_neg.mp hyz))
  · rw [hvalue]
    cases s with
    | positive => exact (hstands.rounded_between halign hy).2 hyz
    | negative => exact neg_le.mp ((hstands.rounded_between halign hy.neg).1 (neg_le.mp hyz))

theorem stands_exact (m : ℕ) : Stands (.ofMantissaAndAccuracy m .exact) m :=
  ⟨le_rfl, lt_add_one _, iff_of_true rfl ⟨rfl, rfl⟩⟩

theorem log2_shiftLeft (hm : m ≠ 0) (k : ℕ) : (m <<< k).log2 = m.log2 + k := by
  rw [Nat.shiftLeft_eq, Nat.log2_eq_iff (by positivity)]
  obtain ⟨hlower, hupper⟩ := (Nat.log2_eq_iff hm).mp rfl
  constructor
  · rw [pow_add]
    exact Nat.mul_le_mul_right _ hlower
  · rw [add_right_comm, pow_add]
    exact Nat.mul_lt_mul_of_pos_right hupper (by positivity)

theorem decreaseExponent_value (m : ℕ) (e t : ℤ) :
    (((decreaseExponent m e t).1 : ℕ) : ℚ) * 2 ^ (decreaseExponent m e t).2 = m * 2 ^ e := by
  simp only [decreaseExponent, Nat.shiftLeft_eq, zpow_sub₀ (two_ne_zero (α := ℚ)), zpow_natCast]
  push_cast
  field_simp

/-- Rounding a number whose mantissa may be too short. -/
theorem rounds_round (s : Sign) (hm : m ≠ 0) (e : ℤ) :
    Rounds (signed s (m * 2 ^ e)) (UnpackedFloat.round .binary64 s m e) := by
  have hvalue := decreaseExponent_value m e (target m e)
  rw [UnpackedFloat.round, ← hvalue]
  refine rounds_roundWithAccuracy s (stands_exact _) ?_
  simp only [decreaseExponent, target_eq, log2_shiftLeft hm]
  omega

/-- Rounding a number with a sign. -/
theorem rounds_normalize (m e : ℤ) (s : Sign) : Rounds (m * 2 ^ e) (UnpackedFloat.normalize .binary64 m e s) := by
  rw [UnpackedFloat.normalize]
  rcases lt_trichotomy m 0 with hm | rfl | hm
  · rw [Int.compare_eq_lt.mpr hm]
    obtain ⟨n, rfl⟩ := Int.exists_eq_neg_ofNat hm.le
    simpa [signed] using rounds_round .negative (m := n) (by omega) e
  · exact .of_eq trivial (by simp [unpackedValue])
  · rw [Int.compare_eq_gt.mpr hm]
    obtain ⟨n, rfl⟩ := Int.eq_ofNat_of_zero_le hm.le
    simpa [signed] using rounds_round .positive (m := n) (by omega) e

end ModuleAudit.Floating
