import ModuleAudit.Json.Document
import ModuleAudit.Proofs.Json.Quote

/-! Reading documents. Strings, lists and objects are read from every text of their grammar. Lists and objects are read
    round by round, and each round takes one item with the comma in front of it. -/

namespace ModuleAudit.Json

open Cursor Grammar

variable {α : Type} {c : Cursor} {text rest blank blank' : List Char} {ch : Char}

/-! ### What stands behind a value -/

theorem ends_nil : Ends [] := List.mem_cons_self

theorem ends_cons (h : ch ∈ [',', ']', '}']) (rest : List Char) : Ends (ch :: rest) := by
  simp only [List.mem_cons, List.not_mem_nil, or_false] at h
  obtain rfl | rfl | rfl := h <;> simp [Ends]

theorem Blank.ends (h : Blank blank) (hrest : Ends rest) : Ends (blank ++ rest) := by
  cases blank with
  | nil => exact hrest
  | cons ch blank =>
    have hmem := h ch List.mem_cons_self
    simp only [List.mem_cons, List.not_mem_nil, or_false] at hmem
    obtain rfl | rfl | rfl | rfl := hmem <;> simp [Ends]

theorem Grammar.More.ends {item : Grammar α} {vs : List α} (h : More item vs text) (hrest : Ends rest) :
    Ends (text ++ rest) := by
  cases h with
  | nil h => exact h.ends hrest
  | cons before _ _ _ =>
    simp only [List.append_assoc]
    exact before.ends (ends_cons (by decide) _)

/-- There are no more items than commas in front of them. -/
theorem Grammar.More.length_le {item : Grammar α} {vs : List α} (h : More item vs text) : vs.length ≤ text.length := by
  induction h with
  | nil _ => exact Nat.zero_le _
  | cons _ _ _ _ ih =>
    simp only [List.length_cons, List.length_append]
    omega

/-- The rounds that a list or an object is read in are enough for its items. -/
theorem Grammar.Items.length_lt {item : Grammar α} {vs : List α} (h : Items item vs text)
    (hc : c.At (ch :: (text ++ rest))) : vs.length < c.rest.length + 1 := by
  have hitems : vs.length ≤ text.length + 1 := by
    cases h with
    | nil _ => exact Nat.zero_le _
    | cons _ _ hothers =>
      have := hothers.length_le
      simp only [List.length_cons, List.length_append]
      omega
  have htext := length_le_length_encode (ch :: (text ++ rest))
  rw [← hc, List.length_cons, List.length_append] at htext
  omega

theorem Grammar.Member.opens {value : Grammar α} {m : String × α} (h : Member value m text) :
    ∃ tail, text = '"' :: tail := by
  obtain ⟨⟨_⟩, _, _, _⟩ := h
  exact ⟨_, rfl⟩

namespace Reader

/-! ### Strings -/

theorem string_takes : Takes string Quoted where
  opens := by
    rintro s text ⟨h⟩
    exact ⟨'"', _, rfl, by decide, by decide⟩
  gives := by
    rintro s _ blank rest c ⟨h⟩ hblank _ hc
    rw [List.append_assoc, List.cons_append, List.cons_append, List.append_assoc] at hc
    obtain ⟨-, hpeek, hnext⟩ := hc.skipTo (by decide) hblank
    obtain ⟨c', hread, hc'⟩ := Quote.read_spelled h hnext
    refine ⟨c', ?_, hc'⟩
    rw [string, hpeek]
    exact hread

/-! ### Lists -/

variable {first : Bool}

theorem nextElement_close (hblank : Blank blank) (hc : c.At (blank ++ ']' :: rest)) :
    Gives (nextElement first) c false (']' :: rest) := by
  obtain ⟨hat, hpeek, -⟩ := hc.skipTo (by decide) hblank
  refine ⟨_, ?_, hat⟩
  rw [nextElement, hpeek]
  rfl

theorem nextElement_first (hblank : Blank blank) (hmark : Mark ch) (hclose : ch ≠ ']')
    (hc : c.At (blank ++ ch :: text)) : Gives (nextElement true) c true (ch :: text) := by
  obtain ⟨hat, hpeek, -⟩ := hc.skipTo hmark hblank
  refine ⟨_, ?_, hat⟩
  rw [nextElement, hpeek]
  simp

theorem nextElement_comma (hblank : Blank blank) (hblank' : Blank blank') (hmark : Mark ch) (hclose : ch ≠ ']')
    (hc : c.At (blank ++ ',' :: (blank' ++ ch :: text))) : Gives (nextElement false) c true (ch :: text) := by
  obtain ⟨-, hcomma, hnext⟩ := hc.skipTo (by decide) hblank
  obtain ⟨hat, hpeek, -⟩ := hnext.skipTo hmark hblank'
  refine ⟨_, ?_, hat⟩
  rw [nextElement, hcomma]
  dsimp only
  rw [hpeek]
  simp

theorem endList_gives (hc : c.At (']' :: rest)) : Gives endList c () rest := by
  obtain ⟨-, hpeek, hnext⟩ := At.skipTo (by decide) .nil hc
  refine ⟨_, ?_, hnext⟩
  rw [endList, hpeek]
  rfl

section
variable {element : Reader α} {item : Grammar α} {v : α} {vs : List α} {rounds : Nat} {text' : List Char}

theorem elements_done (h : Gives (nextElement first) c false rest) :
    Gives (elements element (rounds + 1) first) c [] rest := by
  obtain ⟨c', hnext, hc'⟩ := h
  refine ⟨c', ?_, hc'⟩
  rw [elements, hnext]
  rfl

theorem elements_step (hnext : Gives (nextElement first) c true text)
    (hfirst : ∀ {c}, c.At text → Gives element c v text')
    (hothers : ∀ {c}, c.At text' → Gives (elements element rounds false) c vs rest) :
    Gives (elements element (rounds + 1) first) c (v :: vs) rest := by
  obtain ⟨c₁, hnext, hc₁⟩ := hnext
  obtain ⟨c₂, hfirst, hc₂⟩ := hfirst hc₁
  obtain ⟨c₃, hothers, hc₃⟩ := hothers hc₂
  refine ⟨c₃, ?_, hc₃⟩
  rw [elements, hnext]
  simp only [bind, Except.bind, Bool.not_true, Bool.false_eq_true, if_false, hfirst, hothers]
  rfl

theorem elements_more (h : Takes element item) (hmore : More item vs text) : ∀ {rounds : Nat} {c : Cursor},
    vs.length < rounds → c.At (text ++ ']' :: rest) → Gives (elements element rounds false) c vs (']' :: rest) := by
  induction hmore with
  | nil hblank =>
    intro rounds c hrounds hc
    obtain ⟨rounds, rfl⟩ := Nat.exists_eq_add_one_of_ne_zero (Nat.ne_zero_of_lt hrounds)
    exact elements_done (nextElement_close hblank hc)
  | @cons v vs blank blank' t text before behind hfirst hothers ih =>
    intro rounds c hrounds hc
    obtain ⟨rounds, rfl⟩ := Nat.exists_eq_add_one_of_ne_zero (Nat.ne_zero_of_lt hrounds)
    obtain ⟨ch, tail, rfl, hmark, hclose⟩ := h.opens hfirst
    have hends : Ends (text ++ ']' :: rest) := hothers.ends (ends_cons (by decide) _)
    simp only [List.append_assoc, List.cons_append] at hc
    refine elements_step (nextElement_comma before behind hmark hclose hc) (fun hc => ?_)
      (ih (Nat.lt_of_succ_lt_succ hrounds))
    exact h.gives hfirst .nil hends (by simpa using hc)

theorem elements_items (h : Takes element item) (hitems : Items item vs text) (hrounds : vs.length < rounds)
    (hc : c.At (text ++ ']' :: rest)) : Gives (elements element rounds true) c vs (']' :: rest) := by
  obtain ⟨rounds, rfl⟩ := Nat.exists_eq_add_one_of_ne_zero (Nat.ne_zero_of_lt hrounds)
  cases hitems with
  | nil hblank => exact elements_done (nextElement_close hblank hc)
  | @cons v vs blank t text before hfirst hothers =>
    obtain ⟨ch, tail, rfl, hmark, hclose⟩ := h.opens hfirst
    have hends : Ends (text ++ ']' :: rest) := hothers.ends (ends_cons (by decide) _)
    simp only [List.append_assoc, List.cons_append] at hc
    refine elements_step (nextElement_first before hmark hclose hc) (fun hc => ?_)
      (elements_more h hothers (Nat.lt_of_succ_lt_succ hrounds))
    exact h.gives hfirst .nil hends (by simpa using hc)

theorem list_takes (h : Takes element item) : Takes (list element) (Sequence item) where
  opens := by
    rintro vs text ⟨hitems⟩
    exact ⟨'[', _, rfl, by decide, by decide⟩
  gives := by
    rintro vs _ blank rest c ⟨hitems⟩ hblank _ hc
    simp only [List.append_assoc, List.cons_append, List.nil_append] at hc
    obtain ⟨hat, hpeek, hnext⟩ := hc.skipTo (by decide) hblank
    obtain ⟨c₁, hread, hc₁⟩ := elements_items h hitems (hitems.length_lt hat) hnext
    obtain ⟨c₂, hend, hc₂⟩ := endList_gives hc₁
    refine ⟨c₂, ?_, hc₂⟩
    rw [list, hpeek]
    simp only [beq_self_eq_true, if_true, hread, hend, bind, Except.bind]
    rfl

/-! ### Objects -/

theorem nextKey_close (hblank : Blank blank) (hc : c.At (blank ++ '}' :: rest)) :
    Gives (nextKey first) c false ('}' :: rest) := by
  obtain ⟨hat, hpeek, -⟩ := hc.skipTo (by decide) hblank
  refine ⟨_, ?_, hat⟩
  rw [nextKey, hpeek]
  rfl

theorem nextKey_first (hblank : Blank blank) (hc : c.At (blank ++ '"' :: text)) :
    Gives (nextKey true) c true ('"' :: text) := by
  obtain ⟨hat, hpeek, -⟩ := hc.skipTo (by decide) hblank
  refine ⟨_, ?_, hat⟩
  rw [nextKey, hpeek]
  rfl

theorem nextKey_comma (hblank : Blank blank) (hblank' : Blank blank')
    (hc : c.At (blank ++ ',' :: (blank' ++ '"' :: text))) : Gives (nextKey false) c true ('"' :: text) := by
  obtain ⟨-, hcomma, hnext⟩ := hc.skipTo (by decide) hblank
  obtain ⟨hat, hpeek, -⟩ := hnext.skipTo (by decide) hblank'
  refine ⟨_, ?_, hat⟩
  rw [nextKey, hcomma]
  dsimp only
  rw [hpeek]
  rfl

theorem colon_gives (hblank : Blank blank) (hc : c.At (blank ++ ':' :: text)) : Gives colon c () text := by
  obtain ⟨-, hpeek, hnext⟩ := hc.skipTo (by decide) hblank
  refine ⟨_, ?_, hnext⟩
  rw [colon, hpeek]
  rfl

theorem endObject_gives (hc : c.At ('}' :: rest)) : Gives endObject c () rest := by
  obtain ⟨-, hpeek, hnext⟩ := At.skipTo (by decide) .nil hc
  refine ⟨_, ?_, hnext⟩
  rw [endObject, hpeek]
  rfl

theorem members_done (h : Gives (nextKey first) c false rest) :
    Gives (members element (rounds + 1) first) c [] rest := by
  obtain ⟨c', hnext, hc'⟩ := h
  refine ⟨c', ?_, hc'⟩
  rw [members, hnext]
  rfl

/-- A key, the colon and the value behind it are read one after the other. -/
theorem members_step (h : Takes element item) {m : String × α} {ms : List (String × α)} {tail : List Char}
    (hmember : Member item m ('"' :: tail)) (hends : Ends text)
    (hnext : Gives (nextKey first) c true ('"' :: (tail ++ text)))
    (hothers : ∀ {c}, c.At text → Gives (members element rounds false) c ms rest) :
    Gives (members element (rounds + 1) first) c (m :: ms) rest := by
  generalize hquoted : '"' :: tail = t at hmember
  obtain ⟨⟨hspelled⟩, before, behind, hvalue⟩ := hmember
  simp only [List.cons_append, List.append_assoc, List.cons.injEq, true_and, List.nil_append] at hquoted
  subst hquoted
  obtain ⟨c₁, hnext, hc₁⟩ := hnext
  obtain ⟨c₂, hkey, hc₂⟩ := Quote.read_spelled hspelled (by simpa using hc₁.next (by decide))
  obtain ⟨c₃, hcolon, hc₃⟩ := colon_gives before hc₂
  obtain ⟨c₄, hvalue, hc₄⟩ := h.gives hvalue behind hends (by simpa using hc₃)
  obtain ⟨c₅, hothers, hc₅⟩ := hothers hc₄
  refine ⟨c₅, ?_, hc₅⟩
  rw [members, hnext]
  simp only [bind, Except.bind, Bool.not_true, Bool.false_eq_true, if_false, hkey, hcolon, hvalue, hothers]
  rfl

theorem members_more (h : Takes element item) {ms : List (String × α)} (hmore : More (Member item) ms text) :
    ∀ {rounds : Nat} {c : Cursor}, ms.length < rounds → c.At (text ++ '}' :: rest) →
      Gives (members element rounds false) c ms ('}' :: rest) := by
  induction hmore with
  | nil hblank =>
    intro rounds c hrounds hc
    obtain ⟨rounds, rfl⟩ := Nat.exists_eq_add_one_of_ne_zero (Nat.ne_zero_of_lt hrounds)
    exact members_done (nextKey_close hblank hc)
  | @cons m ms blank blank' t text before behind hfirst hothers ih =>
    intro rounds c hrounds hc
    obtain ⟨rounds, rfl⟩ := Nat.exists_eq_add_one_of_ne_zero (Nat.ne_zero_of_lt hrounds)
    obtain ⟨tail, rfl⟩ := hfirst.opens
    have hends : Ends (text ++ '}' :: rest) := hothers.ends (ends_cons (by decide) _)
    simp only [List.append_assoc, List.cons_append] at hc
    exact members_step h hfirst hends (nextKey_comma before behind hc) (ih (Nat.lt_of_succ_lt_succ hrounds))

theorem members_items (h : Takes element item) {ms : List (String × α)} (hitems : Items (Member item) ms text)
    (hrounds : ms.length < rounds) (hc : c.At (text ++ '}' :: rest)) :
    Gives (members element rounds true) c ms ('}' :: rest) := by
  obtain ⟨rounds, rfl⟩ := Nat.exists_eq_add_one_of_ne_zero (Nat.ne_zero_of_lt hrounds)
  cases hitems with
  | nil hblank => exact members_done (nextKey_close hblank hc)
  | @cons m ms blank t text before hfirst hothers =>
    obtain ⟨tail, rfl⟩ := hfirst.opens
    have hends : Ends (text ++ '}' :: rest) := hothers.ends (ends_cons (by decide) _)
    simp only [List.append_assoc, List.cons_append] at hc
    exact members_step h hfirst hends (nextKey_first before hc) (members_more h hothers (Nat.lt_of_succ_lt_succ hrounds))

theorem object_takes (h : Takes element item) (expected : String) : Takes (object expected element) (Object item) where
  opens := by
    rintro vs text ⟨hitems⟩
    exact ⟨'{', _, rfl, by decide, by decide⟩
  gives := by
    rintro vs _ blank rest c ⟨hitems⟩ hblank _ hc
    simp only [List.append_assoc, List.cons_append, List.nil_append] at hc
    obtain ⟨hat, hpeek, hnext⟩ := hc.skipTo (by decide) hblank
    obtain ⟨c₁, hread, hc₁⟩ := members_items h hitems (hitems.length_lt hat) hnext
    obtain ⟨c₂, hend, hc₂⟩ := endObject_gives hc₁
    refine ⟨c₂, ?_, hc₂⟩
    rw [object, hpeek]
    simp only [beq_self_eq_true, if_true, hread, hend, bind, Except.bind]
    rfl

/-- A document is read as the value that is written in it. -/
theorem document_takes (h : Takes element item) (hdocument : Document item v text) :
    document element (encode text) = .ok v := by
  obtain @⟨v, blank, text, blank', before, hvalue, behind⟩ := hdocument
  have hends : Ends blank' := by simpa using behind.ends ends_nil
  have hstart : (Cursor.start (encode (blank ++ text ++ blank'))).At (blank ++ text ++ blank') := rfl
  obtain ⟨c, hread, hc⟩ := h.gives hvalue before hends hstart
  have hend : c.skipBlank.At [] := At.skipBlank (by simp) behind (by simpa using hc)
  rw [document, hread]
  simp only [bind, Except.bind, show c.skipBlank.rest = [] from hend, List.isEmpty_nil, if_true]

end
end Reader
end ModuleAudit.Json
