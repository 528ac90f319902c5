import Mathlib.Data.List.Basic
import ModuleAudit.Json.Reader
import ModuleAudit.Proofs.Json.Grammar

/-! Cursors in a text. The bytes of a document are those of its characters, so that a cursor between two characters has
    a text in front of it. A reader is told by what it gives there and by the text that it leaves. -/

namespace ModuleAudit.Json

variable {α β : Type}

/-! ### Bytes of a text -/

def encode (text : List Char) : List UInt8 := text.flatMap String.utf8EncodeChar

@[simp]
theorem encode_nil : encode [] = [] := rfl

theorem encode_cons (ch : Char) (text : List Char) : encode (ch :: text) = String.utf8EncodeChar ch ++ encode text :=
  List.flatMap_cons

@[simp]
theorem encode_append (text text' : List Char) : encode (text ++ text') = encode text ++ encode text' :=
  List.flatMap_append

theorem length_le_length_encode (text : List Char) : text.length ≤ (encode text).length := by
  induction text with
  | nil => exact Nat.le_refl _
  | cons ch text ih =>
    have hch : 0 < (String.utf8EncodeChar ch).length := List.length_pos_of_ne_nil String.utf8EncodeChar_ne_nil
    rw [encode_cons, List.length_cons, List.length_append]
    omega

theorem toList_loop (bytes : ByteArray) (i : Nat) (taken : List UInt8) :
    ByteArray.toList.loop bytes i taken = taken.reverse ++ bytes.data.toList.drop i := by
  rw [ByteArray.toList.loop]
  split
  · rename_i hi
    have hget : bytes.get! i = bytes.data.toList[i] := getElem!_pos bytes.data i hi
    rw [toList_loop, List.reverse_cons, List.append_assoc, List.singleton_append, hget,
      ← List.drop_eq_getElem_cons (l := bytes.data.toList) hi]
  · rename_i hi
    rw [List.drop_eq_nil_of_le (Nat.le_of_not_lt hi), List.append_nil]
termination_by bytes.size - i

theorem toList_bytes (bytes : ByteArray) : bytes.toList = bytes.data.toList := by
  rw [ByteArray.toList, toList_loop]
  simp

/-- The bytes of a string are those of its characters. -/
theorem toList_toUTF8 (s : String) : s.toUTF8.toList = encode s.toList := by
  rw [toList_bytes, String.toUTF8_eq_toByteArray, ← String.utf8Encode_toList, List.utf8Encode,
    List.toList_data_toByteArray, encode]

theorem fromUTF8?_encode (s : String) : String.fromUTF8? (encode s.toList).toByteArray = some s := by
  have hbytes : (encode s.toList).toByteArray = s.toByteArray := by
    rw [encode, ← List.utf8Encode, String.utf8Encode_toList]
  have hvalid : (encode s.toList).toByteArray.IsValidUTF8 := hbytes ▸ s.isValidUTF8
  rw [String.fromUTF8?, dif_pos hvalid, String.fromUTF8]
  exact congrArg some (String.toByteArray_inj.mp hbytes)

/-- An ASCII character is its own byte. -/
theorem encode_ascii {ch : Char} (h : ch.toNat < 128) (text : List Char) :
    encode (ch :: text) = ch.toUInt8 :: encode text := by
  have hsize : ch.utf8Size = 1 := Char.utf8Size_eq_one_iff.mpr (UInt32.le_iff_toNat_le.mpr (Nat.le_of_lt_succ h))
  rw [encode_cons, String.utf8EncodeChar_eq_singleton hsize, List.singleton_append, Char.toUInt8]

theorem toNat_ascii {ch : Char} (h : ch.toNat < 128) : ch.toUInt8.toNat = ch.toNat := by
  rw [Char.toUInt8, UInt32.toNat_toUInt8]
  exact Nat.mod_eq_of_lt (Nat.lt_trans h (by decide))

theorem ofUInt8_ascii {ch : Char} (h : ch.toNat < 128) : Char.ofUInt8 ch.toUInt8 = ch := by
  have hval : ch.toUInt8.toUInt32 = ch.val := UInt32.toNat_inj.mp (toNat_ascii h)
  exact Char.ext hval

/-! ### Cursors -/

/-- A character that is one byte and no white space. -/
def Mark (ch : Char) : Prop := ch.toNat < 128 ∧ Cursor.isBlank ch = false

instance (ch : Char) : Decidable (Mark ch) := inferInstanceAs (Decidable (_ ∧ _))

theorem mark_of_isDigit {ch : Char} (h : ch.isDigit) : Mark ch := by
  have hvalue : 48 ≤ ch.toNat ∧ ch.toNat ≤ 57 := by
    rw [Char.isDigit, Bool.and_eq_true, decide_eq_true_iff, decide_eq_true_iff] at h
    exact h
  refine ⟨by omega, Bool.eq_false_iff.mpr fun hblank => ?_⟩
  simp only [Cursor.isBlank, Bool.or_eq_true, beq_iff_eq] at hblank
  obtain (((rfl | rfl) | rfl) | rfl) := hblank <;> exact absurd h (by decide)

theorem Blank.ascii {blank : List Char} (h : Blank blank) {ch : Char} (hch : ch ∈ blank) :
    ch.toNat < 128 ∧ Cursor.isBlank ch = true := by
  have hmem := h ch hch
  simp only [List.mem_cons, List.not_mem_nil, or_false] at hmem
  obtain rfl | rfl | rfl | rfl := hmem <;> decide

namespace Cursor

variable {c : Cursor} {ch : Char} {text : List Char}

/-- A text is what is still to be read at a cursor. -/
def At (c : Cursor) (text : List Char) : Prop := c.rest = encode text

theorem rest_next (c : Cursor) : c.next.rest = c.rest.tail := by
  rw [next]
  split
  · simp [*]
  · rename_i hrest
    rw [hrest]
    split <;> rfl

theorem At.rest_eq (h : c.At (ch :: text)) (hch : ch.toNat < 128) : c.rest = ch.toUInt8 :: encode text :=
  h.trans (encode_ascii hch text)

theorem At.peek? (h : c.At (ch :: text)) (hch : ch.toNat < 128) : c.peek? = some ch := by
  rw [Cursor.peek?, h.rest_eq hch, List.head?_cons, Option.map_some, ofUInt8_ascii hch]

theorem At.next (h : c.At (ch :: text)) (hch : ch.toNat < 128) : c.next.At text := by
  rw [At, rest_next, h.rest_eq hch, List.tail_cons]

theorem skipFrom_at (hmark : ∀ ch ∈ text.head?, Mark ch) {blank : List Char} (hblank : Blank blank)
    (h : c.At (blank ++ text)) : (skipFrom (encode (blank ++ text)) c).At text := by
  induction blank generalizing c with
  | nil =>
    cases text with
    | nil => exact h
    | cons ch text =>
      obtain ⟨hch, hnot⟩ := hmark ch rfl
      rw [List.nil_append, encode_ascii hch, skipFrom, ofUInt8_ascii hch, if_neg (by simp [hnot])]
      exact h
  | cons ch blank ih =>
    obtain ⟨hch, his⟩ := hblank.ascii List.mem_cons_self
    rw [List.cons_append, encode_ascii hch, skipFrom, ofUInt8_ascii hch, if_pos his]
    exact ih (fun ch hmem => hblank ch (List.mem_cons_of_mem _ hmem)) (h.next hch)

/-- White space is passed over up to a mark or to the end. -/
theorem At.skipBlank (hmark : ∀ ch ∈ text.head?, Mark ch) {blank : List Char} (hblank : Blank blank)
    (h : c.At (blank ++ text)) : c.skipBlank.At text := by
  rw [Cursor.skipBlank, h]
  exact skipFrom_at hmark hblank h

/-- Behind white space a mark is seen. -/
theorem At.skipTo (hmark : Mark ch) {blank : List Char} (hblank : Blank blank) (h : c.At (blank ++ ch :: text)) :
    c.skipBlank.At (ch :: text) ∧ c.skipBlank.peek? = some ch ∧ c.skipBlank.next.At text := by
  have hat : c.skipBlank.At (ch :: text) := At.skipBlank (fun _ hch => Option.some.inj hch ▸ hmark) hblank h
  exact ⟨hat, hat.peek? hmark.1, hat.next hmark.1⟩

end Cursor

/-! ### Readers -/

/-- A reader gives a value at a cursor and leaves a text to be read. -/
def Gives (read : Reader α) (c : Cursor) (v : α) (rest : List Char) : Prop := ∃ c', read c = .ok (v, c') ∧ c'.At rest

/-- What can stand behind a value: nothing, white space, or a mark that separates or closes. -/
def Ends (rest : List Char) : Prop :=
  rest.head? ∈ [none, some ' ', some '\n', some '\t', some '\r', some ',', some ']', some '}']

theorem Ends.ascii {ch : Char} {rest : List Char} (h : Ends (ch :: rest)) : ch.toNat < 128 ∧ ch.isDigit = false := by
  simp only [Ends, List.head?_cons, List.mem_cons, Option.some.injEq, reduceCtorEq, List.not_mem_nil, or_false,
    false_or] at h
  obtain rfl | rfl | rfl | rfl | rfl | rfl | rfl := h <;> decide

theorem Ends.peek? {rest : List Char} {c : Cursor} (h : Ends rest) (hc : c.At rest) : c.peek? = rest.head? := by
  cases rest with
  | nil =>
    rw [Cursor.peek?, hc]
    rfl
  | cons ch rest => rw [hc.peek? h.ascii.1, List.head?_cons]

/-- A reader takes the texts of a grammar: wherever one stands, with white space in front of it, it gives the value and
    leaves what stands behind the text. -/
structure Takes (read : Reader α) (g : Grammar α) : Prop where
  opens : ∀ {v text}, g v text → ∃ ch tail, text = ch :: tail ∧ Mark ch ∧ ch ≠ ']'
  gives : ∀ {v text blank rest} {c : Cursor}, g v text → Blank blank → Ends rest → c.At (blank ++ text ++ rest) →
    Gives read c v rest

end ModuleAudit.Json
