import ModuleAudit.Weight
import ModuleAudit.Proofs.Float.Operations
import ModuleAudit.Proofs.Float.Packing

/-! Arithmetic of floats. An operation on finite floats has a finite result as long as the exact result is between
    numbers that can be represented; an operation on anything else has none. -/

namespace ModuleAudit.Floating

open Float.Model Float.Model.UnpackedFloat

variable {f g : Float} {x a b : ℚ} {u v : UnpackedFloat}

/-- The number that a float stands for. -/
def value (f : Float) : ℚ := unpackedValue f.toModel.unpack

theorem isFinite_eq (f : Float) : f.isFinite = f.toModel.unpack.isFinite := rfl

theorem canonical_of_isFinite (h : f.isFinite = true) : Canonical f.toModel.unpack := (canonical_unpack _ h).1

theorem abs_value_lt (h : f.isFinite = true) : |value f| < limit := (canonical_unpack _ h).2

/-! ### Finite results -/

/-- A float is the result of rounding a number, or an infinity when that is too large. -/
def Results (x : ℚ) (f : Float) : Prop := ∃ u, Rounds x u ∧ f.toModel.unpack = repack u

theorem results_add (hf : f.isFinite = true) (hg : g.isFinite = true) : Results (value f + value g) (f + g) :=
  ⟨_, rounds_add (canonical_of_isFinite hf) (canonical_of_isFinite hg), rfl⟩

theorem results_sub (hf : f.isFinite = true) (hg : g.isFinite = true) : Results (value f - value g) (f - g) :=
  ⟨_, rounds_sub (canonical_of_isFinite hf) (canonical_of_isFinite hg), rfl⟩

theorem results_mul (hf : f.isFinite = true) (hg : g.isFinite = true) : Results (value f * value g) (f * g) :=
  ⟨_, rounds_mul (canonical_of_isFinite hf) (canonical_of_isFinite hg), rfl⟩

theorem results_div (hf : f.isFinite = true) (hg : g.isFinite = true) (hne : value g ≠ 0) :
    Results (value f / value g) (f / g) :=
  ⟨_, rounds_div (canonical_of_isFinite hf) (canonical_of_isFinite hg) hne, rfl⟩

theorem Canonical.isFinite (h : Canonical u) : u.isFinite = true := by
  cases u with
  | zero s => rfl
  | finite s m e hm => rfl
  | infinity s => exact h.elim
  | notANumber => exact h.elim

/-- A result between numbers that can be represented is finite and between them, too. -/
theorem Results.between (h : Results x f) (ha : Representable a) (hb : Representable b) (hax : a ≤ x) (hxb : x ≤ b)
    (hlower : -limit < a) (hupper : b < limit) : f.isFinite = true ∧ a ≤ value f ∧ value f ≤ b := by
  obtain ⟨u, hu, hf⟩ := h
  have hau := hu.lower a ha hax
  have hub := hu.upper b hb hxb
  have hself : repack u = u := repack_eq_self hu.canonical (abs_lt.mpr ⟨hlower.trans_le hau, hub.trans_lt hupper⟩)
  rw [hself] at hf
  have hvalue : value f = unpackedValue u := congrArg unpackedValue hf
  rw [hvalue]
  exact ⟨(congrArg UnpackedFloat.isFinite hf).trans hu.canonical.isFinite, hau, hub⟩

theorem representable_limit : Representable limit := representable_zpow (by norm_num)

/-- A result that is too large is not finite. -/
theorem Results.not_isFinite (h : Results x f) (hx : limit ≤ x) : f.isFinite = false := by
  obtain ⟨u, hu, hf⟩ := h
  have hlarge := hu.lower limit representable_limit hx
  obtain ⟨s, hs⟩ := repack_eq_infinity hu.canonical (hlarge.trans (le_abs_self _))
  exact congrArg UnpackedFloat.isFinite (hf.trans hs)

/-- A float stands for a number. -/
structure Is (f : Float) (x : ℚ) : Prop where
  finite : f.isFinite = true
  value_eq : value f = x

/-- A float is finite, and not larger than a bound. -/
structure Within (f : Float) (b : ℚ) : Prop where
  finite : f.isFinite = true
  abs_le : |value f| ≤ b

theorem Is.within (h : Is f x) (hx : |x| ≤ b) : Within f b := ⟨h.finite, by rwa [h.value_eq]⟩

/-- A number that can be represented is its own result. -/
theorem Results.is (h : Results x f) (hx : Representable x) (hlt : |x| < limit) : Is f x := by
  obtain ⟨hlower, hupper⟩ := abs_lt.mp hlt
  obtain ⟨hfinite, hge, hle⟩ := h.between hx hx le_rfl le_rfl hlower hupper
  exact ⟨hfinite, le_antisymm hle hge⟩

theorem Results.within (h : Results x f) (hb : Representable b) (hx : |x| ≤ b) (hlt : b < limit) : Within f b := by
  obtain ⟨hlower, hupper⟩ := abs_le.mp hx
  obtain ⟨hfinite, hge, hle⟩ := h.between hb.neg hb hlower hupper (neg_lt_neg hlt) hlt
  exact ⟨hfinite, abs_le.mpr ⟨hge, hle⟩⟩

theorem unpack_zero : (0 : Float).toModel.unpack = .zero .positive := by rfl

theorem unpack_one : (1 : Float).toModel.unpack = .finite .positive (2 ^ 52) (-52) (by norm_num) := by rfl

theorem is_zero : Is 0 0 := ⟨congrArg UnpackedFloat.isFinite unpack_zero, congrArg unpackedValue unpack_zero⟩

theorem is_one : Is 1 1 := by
  refine ⟨congrArg UnpackedFloat.isFinite unpack_one, (congrArg unpackedValue unpack_one).trans ?_⟩
  norm_num [unpackedValue, signed]

/-! ### Bounds on results -/

theorem natCast_lt_limit {n : ℕ} (hn : n ≤ 2 ^ 53) : (n : ℚ) < limit :=
  calc (n : ℚ) ≤ 2 ^ (53 : ℤ) := by exact_mod_cast hn
    _ < limit := zpow_lt_zpow_right₀ one_lt_two (by norm_num)

theorem Is.add {a b : ℕ} (hf : Is f a) (hg : Is g b) (hle : a + b ≤ 2 ^ 53) : Is (f + g) (a + b : ℕ) := by
  have h := results_add hf.finite hg.finite
  rw [hf.value_eq, hg.value_eq, ← Nat.cast_add] at h
  exact h.is (representable_natCast hle) (by rw [Nat.abs_cast]; exact natCast_lt_limit hle)

theorem Within.add {a b N : ℕ} {t : ℤ} (ht : -1074 ≤ t) (hN : N ≤ 2 ^ 53) (hlt : (N : ℚ) * 2 ^ t < limit)
    (hf : Within f (a * 2 ^ t)) (hg : Within g (b * 2 ^ t)) (hle : a + b ≤ N) :
    Within (f + g) ((a + b : ℕ) * 2 ^ t) := by
  have hbound : |value f + value g| ≤ (a + b : ℕ) * 2 ^ t :=
    calc |value f + value g| ≤ |value f| + |value g| := abs_add_le _ _
      _ ≤ a * 2 ^ t + b * 2 ^ t := add_le_add hf.abs_le hg.abs_le
      _ = (a + b : ℕ) * 2 ^ t := by push_cast; ring
  refine (results_add hf.finite hg.finite).within (representable_mul_zpow (hle.trans hN) ht) hbound ?_
  refine lt_of_le_of_lt ?_ hlt
  gcongr

theorem Within.sub {c : ℚ} (hf : Within f a) (hg : Within g b) (hle : a + b ≤ c) (hc : Representable c)
    (hlt : c < limit) : Within (f - g) c := by
  refine (results_sub hf.finite hg.finite).within hc ?_ hlt
  calc |value f - value g| ≤ |value f| + |value g| := abs_sub _ _
    _ ≤ a + b := add_le_add hf.abs_le hg.abs_le
    _ ≤ c := hle

theorem Within.mul {c : ℚ} (hf : Within f a) (hg : Within g b) (hle : a * b ≤ c) (hc : Representable c)
    (hlt : c < limit) : Within (f * g) c := by
  refine (results_mul hf.finite hg.finite).within hc ?_ hlt
  have ha : 0 ≤ a := (abs_nonneg _).trans hf.abs_le
  calc |value f * value g| = |value f| * |value g| := abs_mul _ _
    _ ≤ a * b := mul_le_mul hf.abs_le hg.abs_le (abs_nonneg _) ha
    _ ≤ c := hle

/-- Division by a natural number makes nothing larger. -/
theorem Within.div {n : ℕ} (hf : Within f a) (hg : Is g n) (hn : 0 < n) (ha : Representable a)
    (hlt : a < limit) : Within (f / g) a := by
  have hpos : (1 : ℚ) ≤ n := by exact_mod_cast hn
  have hne : value g ≠ 0 := by
    rw [hg.value_eq]
    positivity
  refine (results_div hf.finite hg.finite hne).within ha ?_ hlt
  rw [hg.value_eq, abs_div, Nat.abs_cast]
  exact (div_le_self (abs_nonneg _) hpos).trans hf.abs_le

/-! ### Bounds on sums -/

/-- What holds of sums of two holds of all sums, with the numbers that bound them added up. -/
theorem sum_induction {ι : Type} {P : Float → ℕ → Prop} {N : ℕ} (hzero : P 0 0)
    (hadd : ∀ f g a b, P f a → P g b → a + b ≤ N → P (f + g) (a + b)) {xs : List ι} {w : ι → Float} {n : ι → ℕ}
    (h : ∀ i ∈ xs, P (w i) (n i)) (hle : (xs.map n).sum ≤ N) : P (Weight.sum (xs.map w)) (xs.map n).sum := by
  suffices key : ∀ (f : Float) (a : ℕ), P f a → a + (xs.map n).sum ≤ N →
      P ((xs.map w).foldl (· + ·) f) (a + (xs.map n).sum) by
    have hsum := key 0 0 hzero (by omega)
    rw [zero_add] at hsum
    exact hsum
  clear hle
  induction xs with
  | nil => exact fun f a hf _ => hf
  | cons i xs ih =>
    intro f a hf hle
    simp only [List.map_cons, List.sum_cons] at hle ⊢
    have hi := hadd f (w i) a (n i) hf (h i List.mem_cons_self) (by omega)
    rw [← add_assoc] at hle ⊢
    exact ih (fun j hj => h j (List.mem_cons_of_mem i hj)) (f + w i) (a + n i) hi hle

/-- Natural numbers are added up exactly. -/
theorem is_sum {ι : Type} {xs : List ι} {w : ι → Float} {n : ι → ℕ} (h : ∀ i ∈ xs, Is (w i) (n i))
    (hle : (xs.map n).sum ≤ 2 ^ 53) : Is (Weight.sum (xs.map w)) (xs.map n).sum :=
  sum_induction (P := fun f n => Is f n) (by simpa using is_zero) (fun _ _ _ _ => Is.add) h hle

theorem within_sum {ι : Type} {xs : List ι} {w : ι → Float} {n : ι → ℕ} {t : ℤ} (ht : -1074 ≤ t)
    (h : ∀ i ∈ xs, Within (w i) (n i * 2 ^ t)) (hle : (xs.map n).sum ≤ 2 ^ 53)
    (hlt : ((xs.map n).sum : ℚ) * 2 ^ t < limit) : Within (Weight.sum (xs.map w)) ((xs.map n).sum * 2 ^ t) :=
  sum_induction (P := fun f n => Within f (n * 2 ^ t)) (is_zero.within (by simp))
    (fun _ _ _ _ => Within.add ht hle hlt) h le_rfl

/-! ### Results that are not finite -/

@[simp]
theorem isFinite_infinity (s : Sign) : (UnpackedFloat.infinity s).isFinite = false := rfl

@[simp]
theorem isFinite_notANumber : UnpackedFloat.notANumber.isFinite = false := rfl

@[simp]
theorem isFinite_zero (s : Sign) : (UnpackedFloat.zero s).isFinite = true := rfl

@[simp]
theorem isFinite_finite (s : Sign) (m : ℕ) (e : ℤ) (hm : 0 < m) : (UnpackedFloat.finite s m e hm).isFinite = true := rfl

theorem isFinite_repack (h : u.isFinite = false) : (repack u).isFinite = false := by
  cases u with
  | infinity s => exact unpack_ones s 0
  | notANumber =>
    rw [repack, UnpackedFloat.pack, unpack_packedNaN]
    rfl
  | _ => cases h

theorem isFinite_add (h : f.isFinite = false ∨ g.isFinite = false) : (f + g).isFinite = false := by
  have hunpacked (u v : UnpackedFloat) (h : u.isFinite = false ∨ v.isFinite = false) :
      (UnpackedFloat.add .binary64 u v).isFinite = false := by
    cases u <;> cases v <;> simp [UnpackedFloat.add, apply_ite UnpackedFloat.isFinite] at h ⊢
  exact isFinite_repack (hunpacked _ _ h)

theorem isFinite_sub (h : f.isFinite = false ∨ g.isFinite = false) : (f - g).isFinite = false := by
  have hunpacked (u v : UnpackedFloat) (h : u.isFinite = false ∨ v.isFinite = false) :
      (UnpackedFloat.sub .binary64 u v).isFinite = false := by
    cases u <;> cases v <;> simp [UnpackedFloat.sub, apply_ite UnpackedFloat.isFinite] at h ⊢
  exact isFinite_repack (hunpacked _ _ h)

theorem isFinite_mul (h : f.isFinite = false ∨ g.isFinite = false) : (f * g).isFinite = false := by
  have hunpacked (u v : UnpackedFloat) (h : u.isFinite = false ∨ v.isFinite = false) :
      (UnpackedFloat.mul .binary64 u v).isFinite = false := by
    cases u <;> cases v <;> simp [UnpackedFloat.mul] at h ⊢
  exact isFinite_repack (hunpacked _ _ h)

theorem isFinite_div (g : Float) (h : f.isFinite = false) : (f / g).isFinite = false := by
  have hunpacked (u v : UnpackedFloat) (h : u.isFinite = false) :
      (UnpackedFloat.div .binary64 u v).isFinite = false := by
    cases u <;> cases v <;> simp [UnpackedFloat.div] at h ⊢
  exact isFinite_repack (hunpacked _ _ h)

theorem isFinite_sum {xs : List Float} (hf : f ∈ xs) (h : f.isFinite = false) : (Weight.sum xs).isFinite = false := by
  suffices key : ∀ g : Float, g.isFinite = false ∨ f ∈ xs → (xs.foldl (· + ·) g).isFinite = false from
    key 0 (Or.inr hf)
  clear hf
  induction xs with
  | nil => exact fun g hg => hg.resolve_right List.not_mem_nil
  | cons x xs ih =>
    intro g hg
    refine ih (g + x) ?_
    rcases hg with hg | hmem
    · exact Or.inl (isFinite_add (Or.inl hg))
    · rcases List.mem_cons.mp hmem with rfl | hmem
      · exact Or.inl (isFinite_add (Or.inr h))
      · exact Or.inr hmem

/-! ### Comparisons -/

theorem less_iff : Weight.less f g = true ↔ UnpackedFloat.lt f.toModel.unpack g.toModel.unpack = true := by
  change decide (f < g) = true ↔ _
  rw [decide_eq_true_iff]
  change decide (f.toModel < g.toModel) = true ↔ _
  rw [decide_eq_true_iff]
  rfl

theorem less_zero_iff (h : f.isFinite = true) : Weight.less 0 f = true ↔ 0 < value f := by
  rw [less_iff, unpack_zero, value]
  rw [isFinite_eq] at h
  generalize f.toModel.unpack = u at h ⊢
  cases u with
  | zero s => exact iff_of_false (by simp [UnpackedFloat.lt, UnpackedFloat.compare]) (lt_irrefl 0)
  | finite s m e hm =>
    cases s with
    | positive => exact iff_of_true rfl (by simp only [unpackedValue, signed]; positivity)
    | negative =>
      refine iff_of_false (by simp [UnpackedFloat.lt, UnpackedFloat.compare]) ?_
      simp only [unpackedValue, signed, not_lt, neg_nonpos]
      positivity
  | _ => cases h

end ModuleAudit.Floating
