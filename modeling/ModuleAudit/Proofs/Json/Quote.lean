import ModuleAudit.Proofs.Json.Cursor

/-! Reading strings. Between the quotes bytes are taken one by one, escapes are taken whole, and the bytes that were taken
    are those of the characters that were spelled. -/

namespace ModuleAudit.Json.Quote

open Cursor

variable {c : Cursor} {rest : List Char}

/-! ### Escapes -/

theorem letter_ascii {l ch : Char} (h : Letter l ch) : l.toNat < 128 := by
  cases h <;> decide

theorem hexValue?_eq_some {n : Nat} {d : Char} (h : HexDigit n d) :
    d.toNat < 128 ∧ hexValue? d.toUInt8 = some n := by
  have hdigits : ∀ digits ∈ ["0123456789abcdef", "0123456789ABCDEF"], digits.toList.length = 16 ∧
      ∀ i : Fin 16, (digits.toList[i.val]?).all fun d => d.toNat < 128 && hexValue? d.toUInt8 == some i.val := by
    decide
  obtain ⟨digits, hmem, hd⟩ := h
  obtain ⟨hlength, hvalues⟩ := hdigits digits hmem
  have hn : n < 16 := hlength ▸ (List.getElem?_eq_some_iff.mp hd).1
  have hvalue := hvalues ⟨n, hn⟩
  rw [hd, Option.all_some, Bool.and_eq_true, decide_eq_true_eq, beq_iff_eq] at hvalue
  exact hvalue

theorem hexDigits_gives {n : Nat} {ds : List Char} (h : CodeUnit n ds) (hc : c.At (ds ++ rest)) :
    Gives hexDigits c n rest := by
  obtain @⟨n₃, n₂, n₁, n₀, d₃, d₂, d₁, d₀, h₃, h₂, h₁, h₀⟩ := h
  obtain ⟨ha₃, hv₃⟩ := hexValue?_eq_some h₃
  obtain ⟨ha₂, hv₂⟩ := hexValue?_eq_some h₂
  obtain ⟨ha₁, hv₁⟩ := hexValue?_eq_some h₁
  obtain ⟨ha₀, hv₀⟩ := hexValue?_eq_some h₀
  have hrest : c.rest = [d₃, d₂, d₁, d₀].map Char.toUInt8 ++ encode rest := by
    rw [hc]
    simp [encode_ascii, ha₃, ha₂, ha₁, ha₀]
  have hlength : ¬c.rest.length < 4 := by simp [hrest]
  have hnumber : hexNumber? (c.rest.take 4) = some (((n₃ * 16 + n₂) * 16 + n₁) * 16 + n₀) := by
    simp [hrest, hexNumber?, hv₃, hv₂, hv₁, hv₀]
  have hvalue : ((n₃ * 16 + n₂) * 16 + n₁) * 16 + n₀ = n₃ * 4096 + n₂ * 256 + n₁ * 16 + n₀ := by omega
  refine ⟨skip c 4, ?_, (((hc.next ha₃).next ha₂).next ha₁).next ha₀⟩
  rw [hexDigits, if_neg hlength, hnumber, hvalue]

theorem surrogateMark_gives {ch : Char} (hch : ch.toNat < 128) (hc : c.At (ch :: rest)) :
    Gives (surrogateMark ch) c () rest := by
  refine ⟨c.next, ?_, hc.next hch⟩
  rw [surrogateMark, hc.peek? hch]
  simp

theorem unicodeEscape_unit {n : Nat} {ds : List Char} (h : CodeUnit n ds) (hscalar : n < 0xD800 ∨ 0xDFFF < n)
    (hc : c.At (ds ++ rest)) : Gives unicodeEscape c (Char.ofNat n) rest := by
  obtain ⟨c', hread, hc'⟩ := hexDigits_gives h hc
  refine ⟨c', ?_, hc'⟩
  rw [unicodeEscape, hread]
  simp only [bind, Except.bind]
  rw [if_neg (by simp; omega), if_pos (by simp; omega)]

theorem unicodeEscape_pair {n n' : Nat} {ds ds' : List Char} (h : CodeUnit n ds) (h' : CodeUnit n' ds')
    (hhigh : 0xD800 ≤ n ∧ n < 0xDC00) (hlow : 0xDC00 ≤ n' ∧ n' ≤ 0xDFFF)
    (hc : c.At (ds ++ '\\' :: 'u' :: ds' ++ rest)) :
    Gives unicodeEscape c (Char.ofNat (0x10000 + (n - 0xD800) * 0x400 + (n' - 0xDC00))) rest := by
  rw [List.append_assoc] at hc
  obtain ⟨c₁, hread₁, hc₁⟩ := hexDigits_gives h hc
  obtain ⟨c₂, hread₂, hc₂⟩ := surrogateMark_gives (by decide) hc₁
  obtain ⟨c₃, hread₃, hc₃⟩ := surrogateMark_gives (by decide) hc₂
  obtain ⟨c₄, hread₄, hc₄⟩ := hexDigits_gives h' hc₃
  refine ⟨c₄, ?_, hc₄⟩
  rw [unicodeEscape, hread₁]
  simp only [bind, Except.bind]
  rw [if_neg (by simp; omega), if_neg (by simp; omega), hread₂]
  dsimp only
  rw [hread₃]
  dsimp only
  rw [hread₄]
  dsimp only
  rw [if_neg (by simp; omega)]

/-- A character is read from each of its escapes. -/
theorem escape_gives {ch : Char} {text : List Char} (h : Escape ch text) (hc : c.At (text ++ rest)) :
    Gives escape c ch rest := by
  cases h with
  | @letter l _ h =>
    have hl := letter_ascii h
    refine ⟨c.next, ?_, hc.next hl⟩
    rw [escape, hc.peek? hl]
    cases h <;> rfl
  | unit h hscalar =>
    obtain ⟨c', hread, hc'⟩ := unicodeEscape_unit h hscalar (hc.next (by decide))
    refine ⟨c', ?_, hc'⟩
    rw [escape, hc.peek? (by decide)]
    exact hread
  | pair h h' hhigh hlow =>
    obtain ⟨c', hread, hc'⟩ := unicodeEscape_pair h h' hhigh hlow (hc.next (by decide))
    refine ⟨c', ?_, hc'⟩
    rw [escape, hc.peek? (by decide)]
    exact hread

/-! ### Strings -/

/-- No byte of a character beyond ASCII is an ASCII character. -/
theorem large_of_mem {ch : Char} {b : UInt8} (hch : ¬ch.toNat < 128) (h : b ∈ String.utf8EncodeChar ch) :
    128 ≤ b.toNat := by
  have hval : ¬ch.val.toNat ≤ 127 := fun hle => hch (Nat.lt_succ_of_le hle)
  rw [String.utf8EncodeChar.eq_1, if_neg hval] at h
  split_ifs at h <;> simp only [List.mem_cons, List.not_mem_nil, or_false] at h
  · obtain rfl | rfl := h <;> (rw [UInt8.toNat_ofNat']; omega)
  · obtain rfl | rfl | rfl := h <;> (rw [UInt8.toNat_ofNat']; omega)
  · obtain rfl | rfl | rfl | rfl := h <;> (rw [UInt8.toNat_ofNat']; omega)

/-- A byte that stands for itself between quotes. -/
def Itself (b : UInt8) : Prop := b ≠ 0x22 ∧ b ≠ 0x5C ∧ ¬b < 32

/-- A character that needs no escape is taken as it stands. -/
theorem itself_of_plain {ch : Char} (hvisible : 32 ≤ ch.toNat) (hquote : ch ≠ '"') (hbackslash : ch ≠ '\\') :
    ∀ b ∈ String.utf8EncodeChar ch, Itself b := by
  intro b hb
  by_cases hascii : ch.toNat < 128
  · have hbyte : b = ch.toUInt8 := by
      have hencode := encode_ascii hascii []
      rw [encode_cons, encode_nil, List.append_nil] at hencode
      rwa [hencode, List.mem_singleton] at hb
    have hof : Char.ofUInt8 b = ch := hbyte ▸ ofUInt8_ascii hascii
    refine ⟨fun h => hquote (by rw [← hof, h]; rfl), fun h => hbackslash (by rw [← hof, h]; rfl), fun h => ?_⟩
    rw [hbyte, UInt8.lt_iff_toNat_lt, toNat_ascii hascii] at h
    exact absurd hvisible (Nat.not_le.mpr h)
  · have hlarge := large_of_mem hascii hb
    refine ⟨fun h => ?_, fun h => ?_, fun h => ?_⟩
    · exact absurd hlarge (by rw [h]; decide)
    · exact absurd hlarge (by rw [h]; decide)
    · exact absurd (UInt8.lt_iff_toNat_lt.mp h) (Nat.not_lt.mpr (Nat.le_trans (by decide) hlarge))

theorem bytesTo_append {bytes : List UInt8} (hbytes : ∀ b ∈ bytes, Itself b) (rounds : Nat) :
    ∀ (taken behind : List UInt8) (c : Cursor), c.rest = bytes ++ behind → ∃ c', c'.rest = behind ∧
      bytesTo (bytes.length + rounds) taken c = bytesTo rounds (bytes.reverse ++ taken) c' := by
  induction bytes with
  | nil => exact fun taken behind c hrest => ⟨c, hrest, by simp⟩
  | cons b bytes ih =>
    intro taken behind c hrest
    obtain ⟨⟨hquote, hbackslash, hvisible⟩, hbytes⟩ := List.forall_mem_cons.mp hbytes
    have hnext : c.next.rest = bytes ++ behind := by rw [rest_next, hrest, List.cons_append, List.tail_cons]
    obtain ⟨c', hc', hto⟩ := ih hbytes (b :: taken) behind c.next hnext
    refine ⟨c', hc', ?_⟩
    rw [List.length_cons, Nat.add_right_comm, bytesTo, hrest, List.cons_append]
    dsimp only
    rw [if_neg (by simpa using hquote), if_neg (by simpa using hbackslash), if_neg hvisible, hto]
    simp

/-- A character that is spelled is taken as its bytes, in no more rounds than the spelling has bytes. -/
theorem bytesTo_spelling {ch : Char} {t : List Char} (h : Spelling ch t) (rounds : Nat) (taken : List UInt8)
    (hrounds : (encode t).length ≤ rounds) (hc : c.At (t ++ rest)) : ∃ rounds' c', rounds ≤ rounds' + (encode t).length ∧
      c'.At rest ∧ bytesTo rounds taken c = bytesTo rounds' ((String.utf8EncodeChar ch).reverse ++ taken) c' := by
  cases h with
  | plain hvisible hquote hbackslash =>
    rw [encode_cons, encode_nil, List.append_nil] at hrounds ⊢
    obtain ⟨rounds', rfl⟩ := Nat.exists_eq_add_of_le hrounds
    have hrest : c.rest = String.utf8EncodeChar ch ++ encode rest := hc.trans (encode_cons ch rest)
    obtain ⟨c', hc', hto⟩ := bytesTo_append (itself_of_plain hvisible hquote hbackslash) rounds' taken _ c hrest
    exact ⟨rounds', c', Nat.le_of_eq (Nat.add_comm _ _), hc', hto⟩
  | @escaped text h =>
    rw [encode_ascii (by decide), List.length_cons] at hrounds ⊢
    obtain ⟨rounds', rfl⟩ := Nat.exists_eq_add_one_of_ne_zero (Nat.ne_zero_of_lt hrounds)
    obtain ⟨c', hread, hc'⟩ := escape_gives h (hc.next (by decide))
    refine ⟨rounds', c', by omega, hc', ?_⟩
    rw [bytesTo, hc.rest_eq (by decide)]
    dsimp only
    rw [if_neg (by decide), if_pos (by decide), hread]
    rfl

/-- What was spelled is taken up to the quote behind it. -/
theorem bytesTo_spelled {cs text : List Char} (h : Spelled cs text) : ∀ (rounds : Nat) (taken : List UInt8) (c : Cursor),
    (encode text).length < rounds → c.At (text ++ '"' :: rest) → ∃ c', c'.At ('"' :: rest) ∧
      bytesTo rounds taken c = .ok (taken.reverse ++ encode cs, c') := by
  induction h with
  | nil =>
    intro rounds taken c hrounds hc
    obtain ⟨rounds, rfl⟩ := Nat.exists_eq_add_one_of_ne_zero (Nat.ne_zero_of_lt hrounds)
    refine ⟨c, hc, ?_⟩
    rw [bytesTo, hc.rest_eq (by decide)]
    dsimp only
    rw [if_pos (by decide), encode_nil, List.append_nil]
  | @cons ch cs t text first others ih =>
    intro rounds taken c hrounds hc
    rw [encode_append, List.length_append] at hrounds
    rw [List.append_assoc] at hc
    obtain ⟨rounds', c', hrounds', hc', hto⟩ := bytesTo_spelling first rounds taken (by omega) hc
    obtain ⟨c'', hc'', hread⟩ := ih rounds' _ c' (by omega) hc'
    refine ⟨c'', hc'', ?_⟩
    rw [hto, hread, List.reverse_append, List.reverse_reverse, List.append_assoc, encode_cons]

/-- A string is read from every text that spells it. -/
theorem read_spelled {s : String} {text : List Char} (h : Spelled s.toList text) (hc : c.At (text ++ '"' :: rest)) :
    Gives read c s rest := by
  have hrounds : (encode text).length < c.rest.length + 1 := by
    rw [hc, encode_append, List.length_append]
    omega
  obtain ⟨c', hc', hto⟩ := bytesTo_spelled h _ [] c hrounds hc
  refine ⟨c'.next, ?_, hc'.next (by decide)⟩
  rw [read, hto]
  simp only [bind, Except.bind, List.reverse_nil, List.nil_append, fromUTF8?_encode]

end ModuleAudit.Json.Quote
