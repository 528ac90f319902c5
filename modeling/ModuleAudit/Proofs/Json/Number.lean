import ModuleAudit.Proofs.Json.Cursor

/-! Reading counts. The digits of a natural number do not begin with a zero unless that is all of them, and as many are
    used as the number has, since it stays within sixty-four bits. -/

namespace ModuleAudit.Json

open Cursor

variable {c : Cursor} {rest : List Char} {n : Nat}

/-! ### Digits -/

/-- A leading zero is the only digit. -/
theorem toDigits_eq_zero_cons {ds : List Char} (h : Nat.toDigits 10 n = '0' :: ds) : n = 0 := by
  induction n using Nat.strongRecOn generalizing ds with
  | ind n ih =>
    by_cases hn : n < 10
    · rw [Nat.toDigits_of_lt_base hn, List.cons.injEq] at h
      exact (by decide : ∀ d < 10, Nat.digitChar d = '0' → d = 0) n hn h.1
    · rw [Nat.toDigits_of_base_le (by decide) (Nat.le_of_not_lt hn)] at h
      obtain ⟨d, ds', hds⟩ := List.exists_cons_of_ne_nil (Nat.toDigits_ne_nil (n := n / 10) (b := 10))
      rw [hds, List.cons_append, List.cons.injEq] at h
      have hzero := ih (n / 10) (by omega) (h.1 ▸ hds)
      omega

theorem exists_digit (n : Nat) : ∃ d ds, Nat.toDigits 10 n = d :: ds ∧ d.isDigit = true := by
  obtain ⟨d, ds, hds⟩ := List.exists_cons_of_ne_nil (Nat.toDigits_ne_nil (n := n) (b := 10))
  exact ⟨d, ds, hds, Nat.isDigit_of_mem_toDigits (by decide) (by decide) (hds ▸ List.mem_cons_self)⟩

theorem digitsFrom_at {ds : List Char} (hds : ∀ d ∈ ds, d.isDigit = true) (hends : Ends rest) (hc : c.At (ds ++ rest)) :
    ∃ c', digitsFrom (encode (ds ++ rest)) c = (ds, c') ∧ c'.At rest := by
  induction ds generalizing c with
  | nil =>
    refine ⟨c, ?_, hc⟩
    cases rest with
    | nil => rfl
    | cons ch rest =>
      obtain ⟨hch, hnot⟩ := hends.ascii
      rw [List.nil_append, encode_ascii hch, digitsFrom, ofUInt8_ascii hch, if_neg (by simp [hnot])]
  | cons d ds ih =>
    obtain ⟨hd, hds⟩ := List.forall_mem_cons.mp hds
    have hascii := (mark_of_isDigit hd).1
    obtain ⟨c', hread, hc'⟩ := ih hds (hc.next hascii)
    refine ⟨c', ?_, hc'⟩
    rw [List.cons_append, encode_ascii hascii, digitsFrom, ofUInt8_ascii hascii, if_pos hd, hread]

/-- The digits in front of the end of a value are read. -/
theorem digits_at {ds : List Char} (hds : ∀ d ∈ ds, d.isDigit = true) (hends : Ends rest) (hc : c.At (ds ++ rest)) :
    ∃ c', c.digits = (ds, c') ∧ c'.At rest := by
  rw [Cursor.digits, hc]
  exact digitsFrom_at hds hends hc

namespace Number

theorem absorb_eq {ds : List Char} {s : Nat} (h : Nat.ofDigitChars 10 ds s ≤ limit) :
    absorb s ds = (Nat.ofDigitChars 10 ds s, ds.length) := by
  induction ds generalizing s with
  | nil => rfl
  | cons d ds ih =>
    have hstep : Nat.ofDigitChars 10 (d :: ds) s = Nat.ofDigitChars 10 ds (s * 10 + Decimal.digitValue d) := by
      rw [Nat.ofDigitChars_cons, Nat.mul_comm]
      rfl
    have hle : s * 10 + Decimal.digitValue d ≤ limit := by
      rw [hstep, Nat.ofDigitChars_eq_ofDigitChars_zero] at h
      have hpower : 0 < 10 ^ ds.length := Nat.pow_pos (by decide)
      have := Nat.le_mul_of_pos_left (s * 10 + Decimal.digitValue d) hpower
      omega
    rw [hstep] at h ⊢
    rw [absorb, if_pos hle, ih h]
    rfl

theorem read_natural (h : n ≤ limit) (hends : Ends rest) (hc : c.At (Nat.toDigits 10 n ++ rest)) :
    Gives (read false) c (.integer n) rest := by
  have hdigits : ∀ d ∈ Nat.toDigits 10 n, d.isDigit = true := fun d => Nat.isDigit_of_mem_toDigits (by decide) (by decide)
  obtain ⟨d, ds, hds, hd⟩ := exists_digit n
  have hpeek : c.peek? = some d := (hds ▸ hc).peek? (mark_of_isDigit hd).1
  obtain ⟨c', hread, hc'⟩ : ∃ c', (if d == '0' then (['0'], c.next) else c.digits) = (Nat.toDigits 10 n, c') ∧
      c'.At rest := by
    split_ifs with hzero
    · rw [beq_iff_eq] at hzero
      obtain rfl := toDigits_eq_zero_cons (hzero ▸ hds)
      exact ⟨c.next, rfl, hc.next (by decide)⟩
    · exact digits_at hdigits hends hc
  refine ⟨c', ?_, hc'⟩
  have hvalue : absorb 0 (Nat.toDigits 10 n) = (n, (Nat.toDigits 10 n).length) := by
    have hof : Nat.ofDigitChars 10 (Nat.toDigits 10 n) 0 = n := Nat.ofDigitChars_ten_toDigits
    rw [absorb_eq (hof.symm ▸ h), hof]
  rw [read, hpeek]
  dsimp only
  rw [if_neg (by simp [hd]), hread]
  dsimp only
  rw [hvalue, hends.peek? hc']
  simp only [Ends, List.mem_cons, List.not_mem_nil, or_false] at hends
  obtain hend | hend | hend | hend | hend | hend | hend | hend := hends <;> simp [hend, integer?]

end Number

theorem integer_natural (hn : n < Nat.pow 2 64) (hends : Ends rest) (hc : c.skipBlank.At (Nat.toDigits 10 n ++ rest)) :
    Gives (Reader.integer "usize" 0 (Nat.pow 2 64 - 1)) c (n : Int) rest := by
  obtain ⟨d, ds, hds, hd⟩ := exists_digit n
  have hpeek : c.skipBlank.peek? = some d := (hds ▸ hc).peek? (mark_of_isDigit hd).1
  have hrange : (0 ≤ (n : Int) && (n : Int) ≤ Nat.pow 2 64 - 1) = true := by
    simp only [Bool.and_eq_true, decide_eq_true_eq, Nat.pow_eq] at hn ⊢
    omega
  obtain ⟨c', hread, hc'⟩ := Number.read_natural (Nat.le_sub_one_of_lt hn) hends hc
  refine ⟨c', ?_, hc'⟩
  rw [Reader.integer, Reader.number]
  dsimp only
  rw [hpeek]
  split
  · rename_i hminus
    exact absurd hd (by rw [Option.some.inj hminus]; decide)
  · rename_i hsome
    rw [← Option.some.inj hsome, if_pos hd, hread]
    simp only [Except.bind]
    rw [if_pos hrange]
  · rename_i hnone
    cases hnone

/-- Counts are read from their digits. -/
theorem count_takes : Takes Reader.count Grammar.Count where
  opens := by
    rintro n text ⟨hn⟩
    obtain ⟨d, ds, hds, hd⟩ := exists_digit n
    exact ⟨d, ds, Nat.toList_repr.trans hds, mark_of_isDigit hd, fun hclose => absurd hd (by rw [hclose]; decide)⟩
  gives := by
    rintro n text blank rest c ⟨hn⟩ hblank hends hc
    obtain ⟨d, ds, hds, hd⟩ := exists_digit n
    have htext : (toString n).toList = Nat.toDigits 10 n := Nat.toList_repr
    have hat : c.skipBlank.At (Nat.toDigits 10 n ++ rest) := by
      rw [htext, hds, List.append_assoc] at hc
      rw [hds]
      exact (hc.skipTo (mark_of_isDigit hd) hblank).1
    obtain ⟨c', hread, hc'⟩ := integer_natural hn hends hat
    refine ⟨c', ?_, hc'⟩
    rw [Reader.count, hread]
    rfl

end ModuleAudit.Json
