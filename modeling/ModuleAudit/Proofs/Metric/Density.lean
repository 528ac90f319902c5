import ModuleAudit.Metric.Density
import ModuleAudit.Proofs.Float.Arithmetic

/-! Density is always finite. The number of edges and the number of pairs carry no minus sign, so their quotient is no
    negative infinity; every other result that is not finite is capped. -/

namespace ModuleAudit

namespace Floating

open Float.Model Float.Model.UnpackedFloat

variable {u v : UnpackedFloat} {m : ℕ} {e : ℤ} {acc : Accuracy} {f g : Float}

/-- Nothing about a float is negative: no number, no zero and no infinity. -/
def Unsigned : UnpackedFloat → Prop
  | .notANumber => True
  | .infinity s => s = .positive
  | .zero s => s = .positive
  | .finite s .. => s = .positive

theorem unsigned_packComponents (b : BitVec 11) (f : BitVec 52) :
    Unsigned (.unpack .binary64 (packComponents .binary64 .positive b f)) := by
  simp only [UnpackedFloat.unpack, unpackSign_packComponents, Sign.ofBitVec_toBitVec]
  split_ifs
  · rfl
  · trivial
  · rfl
  · rfl
  · rfl

theorem unsigned_repack (hu : Unsigned u) : Unsigned (repack u) := by
  cases u with
  | notANumber =>
    rw [repack, UnpackedFloat.pack, unpack_packedNaN]
    trivial
  | infinity s =>
    obtain rfl : s = .positive := hu
    exact unsigned_packComponents _ _
  | zero s =>
    obtain rfl : s = .positive := hu
    exact unsigned_packComponents _ _
  | finite s m e hm =>
    obtain rfl : s = .positive := hu
    simp only [repack, UnpackedFloat.pack]
    split_ifs <;> exact unsigned_packComponents _ _

theorem unsigned_roundWithAccuracy : Unsigned (roundWithAccuracy .binary64 .positive m e acc) := by
  rw [roundWithAccuracy]
  dsimp only
  split <;> rfl

theorem unsigned_mul (hu : Unsigned u) (hv : Unsigned v) : Unsigned (UnpackedFloat.mul .binary64 u v) := by
  cases u <;> cases v <;> first
    | trivial
    | cases hu; cases hv; rfl
    | cases hu; cases hv; exact unsigned_roundWithAccuracy

theorem unsigned_div (hu : Unsigned u) (hv : Unsigned v) : Unsigned (UnpackedFloat.div .binary64 u v) := by
  cases u <;> cases v <;> first
    | trivial
    | cases hu; cases hv; rfl
    | cases hu; cases hv; exact unsigned_roundWithAccuracy

theorem unsigned_ofInt (n : ℕ) : Unsigned (UnpackedFloat.ofInt .binary64 n) := by
  rw [UnpackedFloat.ofInt, UnpackedFloat.normalize]
  rcases n.eq_zero_or_pos with rfl | hn
  · rfl
  · rw [Int.compare_eq_gt.mpr (by omega)]
    exact unsigned_roundWithAccuracy

theorem unsigned_ofScientific (m : ℕ) (e : ℤ) : Unsigned (UnpackedFloat.ofScientific .binary64 m e) := by
  rw [UnpackedFloat.ofScientific]
  split
  · rfl
  · split
    · rfl
    · split
      · rfl
      · split
        · exact unsigned_mul rfl rfl
        · exact unsigned_div rfl rfl

theorem unsigned_ofNat (n : ℕ) : Unsigned (Float.ofNat n).toModel.unpack := by
  rw [Float.ofNat, OfScientific.ofScientific, instOfScientificFloat]
  dsimp only
  rw [Float.ofScientific]
  split
  · -- A short number is multiplied with the power of ten that is one.
    refine unsigned_repack (unsigned_mul (unsigned_repack (unsigned_ofInt _)) ?_)
    have hone : Float.exactlyRepresentablePowersOfTen[0]? = some 1 := by decide +kernel
    rw [(Array.getElem?_eq_some_iff.mp hone).2, unpack_one]
    rfl
  · exact unsigned_repack (unsigned_ofScientific n _)

/-- A number that is not finite, but not negative either, is not less than one. -/
theorem isFinite_capped (hf : Unsigned f.toModel.unpack) : (Weight.capped f).isFinite = true := by
  rw [Weight.capped]
  split
  next hless =>
    replace hless := less_iff.mp hless
    rw [isFinite_eq]
    generalize f.toModel.unpack = u at hf hless ⊢
    cases u with
    | infinity s =>
      obtain rfl : s = .positive := hf
      cases hless
    | notANumber => cases hless
    | _ => rfl
  next => exact is_one.finite

theorem le_iff : f ≤ g ↔ UnpackedFloat.le f.toModel.unpack g.toModel.unpack = true := by
  change decide (f.toModel ≤ g.toModel) = true ↔ _
  rw [decide_eq_true_iff]
  rfl

theorem le_of_less (h : Weight.less f g = true) : f ≤ g := by
  rw [less_iff, UnpackedFloat.lt, beq_iff_eq] at h
  rw [le_iff, UnpackedFloat.le, h]
  rfl

/-- What is not negative is a share once it is capped: what is not a number is capped, too. -/
theorem capped_mem_unit (hf : Unsigned f.toModel.unpack) : 0 ≤ Weight.capped f ∧ Weight.capped f ≤ 1 := by
  rw [Weight.capped]
  split
  next hless =>
    refine ⟨?_, le_of_less hless⟩
    replace hless := less_iff.mp hless
    rw [le_iff, unpack_zero]
    generalize f.toModel.unpack = u at hf hless ⊢
    cases u with
    | notANumber => cases hless
    | _ =>
      cases hf
      rfl
  next => exact ⟨by decide, by decide⟩

end Floating

theorem Graph.isFinite_density (g : Graph) : (g.density : Float).isFinite = true := by
  rw [Graph.density]
  split
  · exact Floating.is_zero.finite
  · refine Floating.isFinite_capped ?_
    refine Floating.unsigned_repack (Floating.unsigned_div (Floating.unsigned_ofNat _) ?_)
    exact Floating.unsigned_repack (Floating.unsigned_mul (Floating.unsigned_ofNat _) (Floating.unsigned_ofNat _))

end ModuleAudit
