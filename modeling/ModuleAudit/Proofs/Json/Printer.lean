import Mathlib.Data.List.Basic
import ModuleAudit.Json.Printer
import ModuleAudit.Proofs.Json.Grammar

/-! Written documents. What is written of strings, numbers, lists and maps is a text of their grammars, in either
    style. -/

namespace ModuleAudit.Json

open Grammar

variable {α : Type} {st : Style}

theorem Style.blank_gap (st : Style) (depth : Nat) : Blank (st.gap depth) := by
  intro ch hch
  cases st with
  | compact => cases hch
  | indented =>
    obtain rfl | hch := List.mem_cons.mp hch
    · decide
    · rw [List.eq_of_mem_replicate hch]
      decide

/-- Behind a colon stands white space or nothing. -/
theorem Style.colon_eq (st : Style) : ∃ blank, Blank blank ∧ st.colon = ':' :: blank := by
  cases st with
  | compact => exact ⟨[], .nil, rfl⟩
  | indented => exact ⟨[' '], by simp [Blank], rfl⟩

/-! ### Strings -/

theorem hexDigit_hexDigit {n : Nat} (h : n < 16) : HexDigit n (hexDigit n) := by
  have hdigits : ∀ n < 16, "0123456789abcdef".toList[n]? = some (hexDigit n) := by decide
  exact ⟨_, List.mem_cons_self, hdigits n h⟩

/-- A control character is written as its number. -/
theorem codeUnit_hexDigits {n : Nat} (h : n < 32) : CodeUnit n ['0', '0', hexDigit (n / 16), hexDigit (n % 16)] := by
  have hvalue : n = 0 * 4096 + 0 * 256 + n / 16 * 16 + n % 16 := by omega
  have hzero : HexDigit 0 '0' := hexDigit_hexDigit (by decide)
  have hunit := CodeUnit.mk hzero hzero (hexDigit_hexDigit (n := n / 16) (by omega))
    (hexDigit_hexDigit (n := n % 16) (by omega))
  rwa [← hvalue] at hunit

/-- Every character is written as one of its spellings. -/
theorem spelling_escape (ch : Char) : Spelling ch (escape ch) := by
  rw [escape]
  simp only [beq_iff_eq]
  split_ifs with hquote hbackslash hbackspace htab hnewline hfeed hreturn hcontrol
  · exact .escaped (.letter (hquote ▸ .quote))
  · exact .escaped (.letter (hbackslash ▸ .backslash))
  · exact .escaped (.letter (hbackspace ▸ .backspace))
  · exact .escaped (.letter (htab ▸ .tab))
  · exact .escaped (.letter (hnewline ▸ .newline))
  · exact .escaped (.letter (hfeed ▸ .formFeed))
  · exact .escaped (.letter (hreturn ▸ .carriageReturn))
  · have hunit := Escape.unit (codeUnit_hexDigits hcontrol) (.inl (by omega))
    rw [Char.ofNat_toNat] at hunit
    exact .escaped hunit
  · exact .plain (Nat.le_of_not_lt hcontrol) hquote hbackslash

theorem spelled_escape (cs : List Char) : Spelled cs (cs.flatMap escape) := by
  induction cs with
  | nil => exact .nil
  | cons ch cs ih =>
    rw [List.flatMap_cons]
    exact .cons (spelling_escape ch) ih

theorem quoted_quoted (s : String) : Quoted s (quoted s) := .mk (spelled_escape s.toList)

/-! ### Values -/

theorem write_string (st : Style) (depth : Nat) (s : String) : Quoted s (write st depth (.string s)) := by
  rw [write]
  exact quoted_quoted s

theorem write_nat (st : Style) (depth : Nat) {n : Nat} (h : n < Nat.pow 2 64) : Count n (write st depth (.nat n)) := by
  rw [nat, write]
  exact .mk h

theorem More.writeElements {item : Grammar α} {value : α → Json} {vs : List α} {depth : Nat} {blank : List Char}
    (hblank : Blank blank) (h : ∀ v ∈ vs, item v (write st depth (value v))) :
    More item vs (writeElements st depth (vs.map value) ++ blank) := by
  induction vs with
  | nil =>
    rw [List.map_nil, Json.writeElements]
    exact .nil hblank
  | cons v vs ih =>
    obtain ⟨hv, hvs⟩ := List.forall_mem_cons.mp h
    have hmore := More.cons .nil (st.blank_gap depth) hv (ih hvs)
    rw [List.map_cons, Json.writeElements]
    simpa using hmore

/-- A list is written as a text of its grammar when its elements are. -/
theorem write_array {item : Grammar α} {value : α → Json} {vs : List α} {depth : Nat}
    (h : ∀ v ∈ vs, item v (write st (depth + 1) (value v))) :
    Sequence item vs (write st depth (.array (vs.map value))) := by
  cases vs with
  | nil =>
    rw [List.map_nil, write]
    exact .mk (.nil .nil)
  | cons v vs =>
    obtain ⟨hv, hvs⟩ := List.forall_mem_cons.mp h
    have hitems := Items.cons (st.blank_gap (depth + 1)) hv (More.writeElements (st.blank_gap depth) hvs)
    have hsequence := Sequence.mk hitems
    rw [List.map_cons, write]
    simpa using hsequence

theorem write_strings (st : Style) (depth : Nat) (ss : List String) :
    Sequence Quoted ss (write st depth (.strings ss)) :=
  write_array fun s _ => write_string st (depth + 1) s

theorem writeMember_member {value : Grammar α} {json : α → Json} {m : String × α} {depth : Nat}
    (h : value m.2 (write st depth (json m.2))) : Member value m (writeMember st depth (m.1, json m.2)) := by
  obtain ⟨blank, hblank, hcolon⟩ := st.colon_eq
  have hmember := Member.mk (quoted_quoted m.1) .nil hblank h
  rw [writeMember, hcolon]
  simpa using hmember

theorem More.writeMembers {value : Grammar α} {json : α → Json} {ms : List (String × α)} {depth : Nat}
    {blank : List Char} (hblank : Blank blank) (h : ∀ m ∈ ms, value m.2 (write st depth (json m.2))) :
    More (Member value) ms (writeMembers st depth (ms.map fun m => (m.1, json m.2)) ++ blank) := by
  induction ms with
  | nil =>
    rw [List.map_nil, Json.writeMembers]
    exact .nil hblank
  | cons m ms ih =>
    obtain ⟨hm, hms⟩ := List.forall_mem_cons.mp h
    have hmore := More.cons .nil (st.blank_gap depth) (writeMember_member hm) (ih hms)
    rw [List.map_cons, Json.writeMembers]
    simpa using hmore

/-- An object is written as a text of its grammar when its values are. -/
theorem write_object {value : Grammar α} {json : α → Json} {ms : List (String × α)} {depth : Nat}
    (h : ∀ m ∈ ms, value m.2 (write st (depth + 1) (json m.2))) :
    Object value ms (write st depth (.object (ms.map fun m => (m.1, json m.2)))) := by
  cases ms with
  | nil =>
    rw [List.map_nil, write]
    exact .mk (.nil .nil)
  | cons m ms =>
    obtain ⟨hm, hms⟩ := List.forall_mem_cons.mp h
    have hitems := Items.cons (st.blank_gap (depth + 1)) (writeMember_member hm)
      (More.writeMembers (st.blank_gap depth) hms)
    have hobject := Object.mk hitems
    rw [List.map_cons, write]
    simpa using hobject

/-- The text of a map is a document with its entries, in their order. -/
theorem document_text {value : Grammar α} {json : α → Json} (t : ModuleMap α) (st : Style)
    (h : ∀ v ∈ t.values, ∀ depth, value v (write st depth (json v))) :
    Document (Object value) t.toList (text st (.ofMap json t)).toList := by
  have hvalues : ∀ m ∈ t.toList, value m.2 (write st (0 + 1) (json m.2)) := fun m hm =>
    h m.2 (List.mem_map.mpr ⟨m, hm, rfl⟩) _
  have hobject : Object value t.toList (write st 0 (.ofMap json t)) := write_object hvalues
  have hdocument := Document.mk .nil hobject .nil
  rw [text, String.toList_ofList]
  simpa using hdocument

end ModuleAudit.Json
