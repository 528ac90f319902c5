import ModuleAudit.Json.Document
import ModuleAudit.Proofs.Json.Number
import ModuleAudit.Proofs.Json.Printer
import ModuleAudit.Proofs.Json.Reader
import ModuleAudit.Proofs.ModuleMap

/-! Documents of maps. A map comes back from its own documents as it was written. From any other document come the keys
    in the order in which they first stand there, each with the last of its values. -/

namespace ModuleAudit.Json

open Grammar

variable {α β : Type}

theorem Reader.document_map (read : Reader α) (f : α → β) (bytes : List UInt8) :
    document (fun c => (read c).map fun r => (f r.1, r.2)) bytes = (document read bytes).map f := by
  rw [document, document]
  cases read (Cursor.start bytes) with
  | error e => rfl
  | ok r =>
    simp only [bind, Except.bind, Except.map]
    split <;> rfl

/-- What becomes of the members of an object: every key once, where it first stood, and with its last value. -/
structure Entered (ms : List (String × α)) (t : ModuleMap α) : Prop where
  keys : t.keys = (ms.map Prod.fst).eraseDups
  last : ∀ m, t.get? m = ms.reverse.lookup m

theorem entered_ofList (ms : List (String × α)) : Entered ms (.ofList ms) :=
  ⟨ModuleMap.keys_ofList ms, ModuleMap.get?_ofList ms⟩

section
variable {read : Reader α} {value : Grammar α} {json : α → Json} {ms : List (String × α)} {s : String}

theorem document_reader (h : Takes read value) (hs : Document (Object value) ms s.toList) :
    Reader.document (ModuleMap.reader read) s.toUTF8.toList = .ok (.ofList ms) := by
  have hobject := Reader.document_takes (Reader.object_takes h "a map keyed by module identifier") hs
  have hmap := Reader.document_map (Reader.object "a map keyed by module identifier" read) ModuleMap.ofList
    (encode s.toList)
  rw [hobject] at hmap
  rw [toList_toUTF8]
  exact hmap

/-- A map comes back from its documents with its entries in their order. -/
theorem document_text_returns (h : Takes read value) (t : ModuleMap α) (st : Style)
    (hvalues : ∀ v ∈ t.values, ∀ depth, value v (write st depth (json v))) :
    ∃ t', Reader.document (ModuleMap.reader read) (text st (.ofMap json t)).toUTF8.toList = .ok t' ∧
      t'.toList = t.toList :=
  ⟨.ofList t.toList, document_reader h (document_text t st hvalues), ModuleMap.toList_ofList t.keys_nodup⟩

end

theorem tree_returns (t : Tree) (st : Style) :
    ∃ t', Tree.ofJson (text st t.toJson).toUTF8.toList = .ok t' ∧ t'.toList = t.toList :=
  document_text_returns (Reader.list_takes Reader.string_takes) t st fun ss _ depth => write_strings st depth ss

theorem counts_return (t : ModuleMap Nat) (ht : ∀ n ∈ t.values, n < Nat.pow 2 64) (st : Style) :
    ∃ t', Reader.document (ModuleMap.reader Reader.count) (text st (.ofMap .nat t)).toUTF8.toList = .ok t' ∧
      t'.toList = t.toList :=
  document_text_returns count_takes t st fun n hn depth => write_nat st depth (ht n hn)

theorem tree_entered {ms : List (String × List String)} {s : String}
    (hs : Document (Object (Sequence Quoted)) ms s.toList) :
    ∃ t, Tree.ofJson s.toUTF8.toList = .ok t ∧ Entered ms t :=
  ⟨_, document_reader (Reader.list_takes Reader.string_takes) hs, entered_ofList ms⟩

/-- Maps come back from their documents. A tree that comes from any document whatever is written to documents that give
    it back, and it is written in the same way again. -/
theorem documents_return :
    (∀ (t : Tree) (st : Style), ∃ t', Tree.ofJson (text st t.toJson).toUTF8.toList = .ok t' ∧ t'.toList = t.toList) ∧
    (∀ t : ModuleMap Nat, (∀ n ∈ t.values, n < Nat.pow 2 64) → ∀ st : Style, ∃ t',
      Reader.document (ModuleMap.reader Reader.count) (text st (.ofMap .nat t)).toUTF8.toList = .ok t' ∧
        t'.toList = t.toList) ∧
    ∀ (ms : List (String × List String)) (s : String), Document (Object (Sequence Quoted)) ms s.toList →
      ∃ t, Tree.ofJson s.toUTF8.toList = .ok t ∧ Entered ms t ∧ ∀ st : Style, ∃ t',
        Tree.ofJson (text st t.toJson).toUTF8.toList = .ok t' ∧ t'.toList = t.toList ∧
          text st t'.toJson = text st t.toJson := by
  refine ⟨tree_returns, counts_return, fun ms s hs => ?_⟩
  obtain ⟨t, hread, ht⟩ := tree_entered hs
  refine ⟨t, hread, ht, fun st => ?_⟩
  obtain ⟨t', hread', ht'⟩ := tree_returns t st
  refine ⟨t', hread', ht', ?_⟩
  rw [Tree.toJson, Tree.toJson, ofMap, ofMap, ht']

/-! A document in which a key stands twice, with white space in it and a character that is spelled as two surrogates. -/

def repeatedText : String := "\x7b\"b\": [\"\\uD83d\\ude00\"],\"a\":[] ,\"b\":[\"a\"]\x7d"

def repeatedMembers : List (String × List String) := [("b", ["😀"]), ("a", []), ("b", ["a"])]

theorem document_repeated : Document (Object (Sequence Quoted)) repeatedMembers repeatedText.toList := by
  have hblank : Blank [' '] := by simp [Blank]
  have hD : HexDigit 13 'D' := ⟨_, List.mem_cons_of_mem _ List.mem_cons_self, rfl⟩
  have hd : HexDigit 13 'd' := ⟨_, List.mem_cons_self, rfl⟩
  have h8 : HexDigit 8 '8' := ⟨_, List.mem_cons_self, rfl⟩
  have h3 : HexDigit 3 '3' := ⟨_, List.mem_cons_self, rfl⟩
  have he : HexDigit 14 'e' := ⟨_, List.mem_cons_self, rfl⟩
  have h0 : HexDigit 0 '0' := ⟨_, List.mem_cons_self, rfl⟩
  have hhigh : CodeUnit 0xD83D ['D', '8', '3', 'd'] := .mk hD h8 h3 hd
  have hlow : CodeUnit 0xDE00 ['d', 'e', '0', '0'] := .mk hd he h0 h0
  have hpair := Escape.pair hhigh hlow (by decide) (by decide)
  have hchar : Char.ofNat (0x10000 + (0xD83D - 0xD800) * 0x400 + (0xDE00 - 0xDC00)) = '😀' := by decide
  rw [hchar] at hpair
  have hface : Quoted "😀" _ := .mk (s := "😀") (.cons (.escaped hpair) .nil)
  have hb₁ : Member (Sequence Quoted) ("b", ["😀"]) _ :=
    .mk (quoted_quoted "b") .nil hblank (.mk (.cons .nil hface (.nil .nil)))
  have ha : Member (Sequence Quoted) ("a", []) _ := .mk (quoted_quoted "a") .nil .nil (.mk (.nil .nil))
  have hb₂ : Member (Sequence Quoted) ("b", ["a"]) _ :=
    .mk (quoted_quoted "b") .nil .nil (.mk (.cons .nil (quoted_quoted "a") (.nil .nil)))
  have hdocument : Document (Object (Sequence Quoted)) repeatedMembers _ :=
    .mk .nil (.mk (.cons .nil hb₁ (.cons .nil .nil ha (.cons hblank .nil hb₂ (.nil .nil))))) .nil
  exact hdocument

def tallies : ModuleMap Nat := .ofList [("a", 3), ("\"\\", 0)]

theorem repeated_returns : (∀ n ∈ tallies.values, n < Nat.pow 2 64) ∧
    Document (Object (Sequence Quoted)) repeatedMembers repeatedText.toList ∧
    (∃ t, Reader.document (ModuleMap.reader Reader.count) (text .compact (.ofMap .nat tallies)).toUTF8.toList = .ok t ∧
      t.toList = [("a", 3), ("\"\\", 0)]) ∧
    ∃ t, Tree.ofJson repeatedText.toUTF8.toList = .ok t ∧ t.keys = ["b", "a"] ∧ t.get? "b" = some ["a"] := by
  have htallies : tallies.toList = [("a", 3), ("\"\\", 0)] := ModuleMap.toList_ofList (by decide)
  have hvalues : ∀ n ∈ tallies.values, n < Nat.pow 2 64 := by
    rw [ModuleMap.values, htallies]
    decide
  obtain ⟨-, hcounts, hdocuments⟩ := documents_return
  obtain ⟨t, hread, hlist⟩ := hcounts tallies hvalues .compact
  obtain ⟨t', hread', hentered, -⟩ := hdocuments repeatedMembers repeatedText document_repeated
  refine ⟨hvalues, document_repeated, ⟨t, hread, hlist.trans htallies⟩, t', hread', ?_, ?_⟩
  · rw [hentered.keys]
    decide
  · rw [hentered.last]
    rfl

end ModuleAudit.Json
