import ModuleAudit.Proofs.Float.Rounding

/-! Floats and their bits. A result that is not too large comes back from its bits unchanged, a larger one comes back as
    an infinity, and whatever comes from bits has the form that results have. -/

namespace ModuleAudit.Floating

open Float.Model Float.Model.UnpackedFloat

variable {m : ℕ} {e : ℤ} {u : UnpackedFloat} {s : Sign}

/-- A float as it comes back from its bits. -/
abbrev repack (u : UnpackedFloat) : UnpackedFloat := .unpack .binary64 (UnpackedFloat.pack .binary64 u)

/-! ### Bits with a given exponent -/

theorem bias_eq : Format.binary64.exponentBias = 1023 := rfl

theorem toNat_one_append (f : BitVec 52) : (1#1 ++ f).toNat = 2 ^ 52 + f.toNat := by
  rw [BitVec.toNat_append, ← Nat.shiftLeft_add_eq_or_of_lt f.isLt]
  simp [Nat.shiftLeft_eq]

theorem unpack_subnormal (s : Sign) {f : BitVec 52} (hf : f ≠ 0#52) :
    UnpackedFloat.unpack .binary64 (packComponents .binary64 s 0#11 f) =
      .finite s f.toNat (-1074) (Nat.pos_of_ne_zero fun h => hf (BitVec.eq_of_toNat_eq h)) := by
  simp [UnpackedFloat.unpack, hf, bias_eq]

theorem unpack_normal (s : Sign) {b : BitVec 11} (hb : b ≠ 0#11) (hb' : b ≠ 2047#11) (f : BitVec 52) :
    UnpackedFloat.unpack .binary64 (packComponents .binary64 s b f) =
      .finite s (2 ^ 52 + f.toNat) (b.toNat - 1075) (by positivity) := by
  simp [UnpackedFloat.unpack, hb, hb', bias_eq, toNat_one_append]

theorem unpack_ones (s : Sign) (f : BitVec 52) :
    (UnpackedFloat.unpack .binary64 (packComponents .binary64 s 2047#11 f)).isFinite = false := by
  rw [UnpackedFloat.unpack]
  simp only [unpackExponent_packComponents]
  rw [if_pos (show (2047#11 : BitVec 11) = -1#11 by decide)]
  split <;> rfl

/-! ### From bits and back -/

/-- The exponent in the bits of a number. -/
theorem biased_eq (halign : Aligned m e) : ∃ b : ℕ, e = b - 1075 ∧
    (e + Format.binary64.exponentBias + Format.binary64.mantissaBitsWithoutImplicit).toNat = b := by
  have hexp := halign.exponent
  rw [bias_eq]
  exact ⟨(e + 1075).toNat, by omega, by dsimp only [Format.binary64]; omega⟩

theorem repack_of_le (hm : 0 < m) (hlt : m < 2 ^ 53) (halign : Aligned m e) (he : e ≤ 971) :
    repack (.finite s m e hm) = .finite s m e hm := by
  obtain ⟨b, hb, hbiased⟩ := biased_eq halign
  have hexp := halign.exponent
  have hno : ¬2 ^ Format.binary64.exponentBits ≤ b + 1 := by
    dsimp only [Format.binary64]
    omega
  have hbits : (BitVec.ofNat 11 b).toNat = b := by
    rw [BitVec.toNat_ofNat]
    exact Nat.mod_eq_of_lt (by omega)
  simp only [repack, UnpackedFloat.pack, hbiased, if_neg hno]
  rcases le_or_gt (2 ^ 52) m with hnormal | hsubnormal
  · have hlog : m.log2 + 1 = Format.binary64.mantissaBits := by
      rw [(Nat.log2_eq_iff hm.ne').mpr ⟨hnormal, hlt⟩]
      rfl
    have hfraction : 2 ^ 52 + (BitVec.ofNat 52 m).toNat = m := by
      rw [BitVec.toNat_ofNat]
      omega
    rw [if_pos hlog, unpack_normal]
    · simp only [hbits, hfraction, hb]
    · intro h
      have : b = 0 := by simpa [hbits] using congrArg BitVec.toNat h
      omega
    · intro h
      have : b = 2047 := by simpa [hbits] using congrArg BitVec.toNat h
      omega
  · have hlog : ¬m.log2 + 1 = Format.binary64.mantissaBits := by
      have := (Nat.log2_lt hm.ne').mpr hsubnormal
      rw [show Format.binary64.mantissaBits = 53 from rfl]
      omega
    have hfraction : (BitVec.ofNat 52 m).toNat = m := by
      rw [BitVec.toNat_ofNat]
      exact Nat.mod_eq_of_lt hsubnormal
    rw [if_neg hlog, unpack_subnormal]
    · simp only [hfraction, halign.bits.resolve_left (by omega)]
    · exact fun h => by simpa [hfraction, hm.ne'] using congrArg BitVec.toNat h

theorem repack_of_lt (hm : 0 < m) (halign : Aligned m e) (he : 971 < e) :
    repack (.finite s m e hm) = .infinity s := by
  obtain ⟨b, hb, hbiased⟩ := biased_eq halign
  have hinf : 2 ^ Format.binary64.exponentBits ≤ b + 1 := by
    dsimp only [Format.binary64]
    omega
  simp only [repack, UnpackedFloat.pack, hbiased, if_pos hinf, packedInfinity]
  simp [UnpackedFloat.unpack]

/-! ### Results and their size -/

theorem abs_signed (s : Sign) (x : ℚ) : |signed s x| = |x| := by
  cases s with
  | negative => exact abs_neg x
  | positive => rfl

theorem abs_finite (s : Sign) (hm : 0 < m) (e : ℤ) : |unpackedValue (.finite s m e hm)| = m * 2 ^ e := by
  rw [unpackedValue, abs_signed, abs_of_nonneg (by positivity)]

/-- The smallest power of two that is too large. -/
def limit : ℚ := 2 ^ (1024 : ℤ)

theorem limit_pos : 0 < limit := by
  rw [limit]
  positivity

theorem lt_of_exponent_le (hlt : m < 2 ^ 53) (he : e ≤ 971) : (m : ℚ) * 2 ^ e < limit :=
  calc (m : ℚ) * 2 ^ e < 2 ^ (53 : ℤ) * 2 ^ e := by gcongr; exact_mod_cast hlt
    _ = 2 ^ (53 + e) := (zpow_add₀ two_ne_zero _ _).symm
    _ ≤ limit := zpow_le_zpow_right₀ one_le_two (by omega)

theorem le_of_lt_exponent (halign : Aligned m e) (he : 971 < e) : limit ≤ m * 2 ^ e :=
  have hbits : 2 ^ 52 ≤ m := halign.bits.resolve_right (by omega)
  calc limit ≤ 2 ^ (52 + e) := zpow_le_zpow_right₀ one_le_two (by omega)
    _ = 2 ^ (52 : ℤ) * 2 ^ e := zpow_add₀ two_ne_zero _ _
    _ ≤ m * 2 ^ e := by gcongr; exact_mod_cast hbits

theorem repack_eq_self (hu : Canonical u) (h : |unpackedValue u| < limit) : repack u = u := by
  cases u with
  | zero s => exact unpack_packedZero
  | finite s m e hm =>
    obtain ⟨hlt, halign⟩ := hu
    rw [abs_finite] at h
    refine repack_of_le hm hlt halign ?_
    by_contra he
    exact absurd h (not_lt.mpr (le_of_lt_exponent halign (by omega)))
  | _ => exact hu.elim

theorem repack_eq_infinity (hu : Canonical u) (h : limit ≤ |unpackedValue u|) : ∃ s, repack u = .infinity s := by
  cases u with
  | zero s =>
    rw [show unpackedValue (.zero s) = 0 from rfl, abs_zero] at h
    exact absurd h (not_le.mpr limit_pos)
  | finite s m e hm =>
    obtain ⟨hlt, halign⟩ := hu
    rw [abs_finite] at h
    refine ⟨s, repack_of_lt hm halign ?_⟩
    by_contra he
    exact absurd h (not_le.mpr (lt_of_exponent_le hlt (by omega)))
  | _ => exact hu.elim

/-- What comes from bits has the form that results have, and is not too large. -/
theorem canonical_unpack (b : BitVec Format.binary64.numBits) (h : (UnpackedFloat.unpack .binary64 b).isFinite = true) :
    Canonical (UnpackedFloat.unpack .binary64 b) ∧ |unpackedValue (UnpackedFloat.unpack .binary64 b)| < limit := by
  rw [← packComponents_unpackSign_unpackExponent_unpackMantissa b] at h ⊢
  generalize Sign.ofBitVec (unpackSign b) = s at h ⊢
  generalize (unpackMantissa b : BitVec 52) = f at h ⊢
  generalize (unpackExponent b : BitVec 11) = k at h ⊢
  have hf : f.toNat < 2 ^ 52 := f.isLt
  rcases eq_or_ne k 2047#11 with rfl | hk
  · rw [unpack_ones] at h
    cases h
  · rcases eq_or_ne k 0#11 with rfl | hk'
    · rcases eq_or_ne f 0#52 with rfl | hf'
      · rw [show packComponents .binary64 s 0#11 0#52 = packedZero .binary64 s from rfl, unpack_packedZero]
        exact ⟨trivial, abs_zero.trans_lt limit_pos⟩
      · rw [unpack_subnormal s hf', abs_finite]
        have hlt : f.toNat < 2 ^ 53 := by omega
        exact ⟨⟨hlt, le_rfl, Or.inr rfl⟩, lt_of_exponent_le hlt (by norm_num)⟩
    · rw [unpack_normal s hk' hk, abs_finite]
      have hlt : 2 ^ 52 + f.toNat < 2 ^ 53 := by omega
      have hzero : k.toNat ≠ 0 := fun h => hk' (BitVec.eq_of_toNat_eq h)
      have hones : k.toNat ≠ 2047 := fun h => hk (BitVec.eq_of_toNat_eq h)
      have : k.toNat < 2 ^ 11 := k.isLt
      exact ⟨⟨hlt, by omega, Or.inl (Nat.le_add_right _ _)⟩, lt_of_exponent_le hlt (by omega)⟩

end ModuleAudit.Floating
