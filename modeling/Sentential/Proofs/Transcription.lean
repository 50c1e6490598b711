/-
What a sentence keeps of its text.  Every character that is neither a space nor a
parenthesis stands for one symbol, and a text that is read gives a row of just these
symbols: the connectives may have moved, the variables stand as in the text.  None of this
needs a formula, so it holds of ill-formed texts as well.
-/
import Sentential.Proofs.Conservation
import Sentential.Proofs.Embedding

namespace Sentential

variable {α β : Type}

/-- The characters that stand for no symbol. -/
def silentCharacters : List Char := [' ', '(', ')']

/-- The symbol that any other character stands for. -/
def symbolNamed : Char → Symbol Char
  | '~' => .connective .negation
  | '&' => .connective .conjunction
  | '|' => .connective .disjunction
  | name => .atom name

/-- A character gives the symbol it stands for, or none. -/
theorem symbol?_ofChar? (c : Char) :
    (Token.ofChar? c).bind Token.symbol? =
      if c ∈ silentCharacters then none else some (symbolNamed c) := by
  by_cases hreserved : Reserved c
  · simp only [Reserved, reservedCharacters, List.mem_cons, List.not_mem_nil,
      or_false] at hreserved
    rcases hreserved with rfl | rfl | rfl | rfl | rfl | rfl <;> rfl
  · have hsilent : c ∉ silentCharacters := by
      intro hsilent
      have hsublist : silentCharacters.Sublist reservedCharacters := by decide
      exact hreserved (hsublist.mem hsilent)
    have hatom : symbolNamed c = .atom c := by
      unfold symbolNamed
      split
      · exact absurd (by decide) hreserved
      · exact absurd (by decide) hreserved
      · exact absurd (by decide) hreserved
      · rfl
    rw [Token.ofChar?_of_not_reserved hreserved, if_neg hsilent, hatom]
    rfl

/-- A text has one symbol for each character that is not silent. -/
theorem filterMap_symbol?_lex (text : List Char) :
    (Token.lex text).filterMap Token.symbol? =
      (text.filter (· ∉ silentCharacters)).map symbolNamed := by
  have hcharacter : (fun c => (Token.ofChar? c).bind Token.symbol?) =
      fun c => if decide (c ∉ silentCharacters) = true then some (symbolNamed c) else none := by
    funext c
    rw [symbol?_ofChar?]
    by_cases hc : c ∈ silentCharacters <;> simp [hc]
  rw [Token.lex, List.filterMap_filterMap, hcharacter, ← List.filterMap_filter,
    ← List.filterMap_eq_map]
  rfl

theorem Token.symbol?_map (f : α → β) (t : Token α) :
    (t.map f).symbol? = t.symbol?.map (Symbol.map f) := by
  cases t <;> rfl

namespace Registry

variable {r : Registry} {text : String} {s : Sentence}

theorem filterMap_symbol?_tokensOf (r : Registry) (text : String) :
    (r.tokensOf text).filterMap Token.symbol? =
      (text.toList.filter (· ∉ silentCharacters)).map fun c =>
        (symbolNamed c).map r.variableOf := by
  have htoken : Token.symbol? ∘ Token.map r.variableOf =
      fun t => (Token.symbol? t).map (Symbol.map r.variableOf) :=
    funext (Token.symbol?_map r.variableOf)
  rw [tokensOf, List.filterMap_map, htoken, ← List.map_filterMap, filterMap_symbol?_lex,
    List.map_map]
  rfl

/-- The symbols of a sentence are those of its text, rearranged. -/
theorem perm_symbols_of_parse (h : (r.parse text).1 = .ok s) :
    s.symbols.Perm ((text.toList.filter (· ∉ silentCharacters)).map fun c =>
      (symbolNamed c).map (r.parse text).2.variableOf) := by
  rw [← filterMap_symbol?_tokensOf]
  exact perm_of_toPostfix (h ▸ r.hasRead_parse text).toPostfix_eq_ok

/-- The variables of a sentence are those of its text, in the same order. -/
theorem occurrences_eq_of_parse (h : (r.parse text).1 = .ok s) :
    s.occurrences = (text.toList.filter fun c => ¬ Reserved c).map
      (r.parse text).2.variableOf := by
  rw [← filterMap_atom?_tokensOf]
  exact filterMap_atom?_of_toPostfix (h ▸ r.hasRead_parse text).toPostfix_eq_ok

end Registry

/-- Each atom is one occurrence. -/
theorem Sentence.countP_isAtom_symbols (s : Sentence) :
    s.symbols.countP Symbol.isAtom = s.occurrences.length := by
  rw [occurrences, List.length_filterMap_eq_countP]
  congr 1
  funext t
  cases t <;> rfl

/-- A sentence that is read from a text, well formed or not, has no parenthesis among its
tokens; its symbols are those that the other characters of the text stand for, each as often
as the text has it; and its variables are named as the text names them, from left to
right. -/
theorem Sentence.keeps_symbols_of_text {r : Registry} {text : String} {s : Sentence}
    (h : (r.parse text).1 = .ok s) :
    let later := (r.parse text).2
    let names := text.toList.filter fun c => ¬ Reserved c
    (∀ t ∈ s.symbols.map Token.symbol, t ≠ .opening ∧ t ≠ .closing) ∧
      s.symbols.Perm ((text.toList.filter (· ∉ silentCharacters)).map fun c =>
        (symbolNamed c).map later.variableOf) ∧
      s.occurrences = names.map later.variableOf ∧
      s.symbols.countP Symbol.isAtom = names.length ∧
      s.occurrences.map Variable.name = names := by
  intro later names
  have hoccurrences := Registry.occurrences_eq_of_parse h
  refine ⟨?_, Registry.perm_symbols_of_parse h, hoccurrences, ?_, ?_⟩
  · intro t ht
    obtain ⟨symbol, _, rfl⟩ := List.mem_map.mp ht
    exact ⟨nofun, nofun⟩
  · rw [s.countP_isAtom_symbols, hoccurrences, List.length_map]
  · rw [hoccurrences, List.map_map]
    exact List.map_id names

/-- Connectives that have no operand to join are kept, and so is a name that is used
twice. -/
theorem Sentence.keeps_dangling_connectives :
    let read := Registry.empty.parse "é|(~ a&) éa~"
    let a : Variable := ⟨'a', 97⟩
    let é : Variable := ⟨'é', 128⟩
    ∃ s : Sentence, read.1 = .ok s ∧
      s.symbols = [.atom é, .atom a, .connective .negation, .connective .conjunction, .atom é,
        .atom a, .connective .negation, .connective .disjunction] ∧
      s.symbols.Perm [.atom é, .connective .disjunction, .connective .negation, .atom a,
        .connective .conjunction, .atom é, .atom a, .connective .negation] ∧
      s.occurrences.map Variable.name = ['é', 'a', 'é', 'a'] := by
  intro read a é
  let s : Sentence := ⟨[.atom é, .atom a, .connective .negation, .connective .conjunction,
    .atom é, .atom a, .connective .negation, .connective .disjunction]⟩
  have hread : read.1 = .ok s := by decide +kernel
  obtain ⟨_, hperm, _, _, hnames⟩ := keeps_symbols_of_text hread
  have hsymbols : (("é|(~ a&) éa~".toList.filter (· ∉ silentCharacters)).map fun c =>
      (symbolNamed c).map read.2.variableOf) =
        [.atom é, .connective .disjunction, .connective .negation, .atom a,
          .connective .conjunction, .atom é, .atom a, .connective .negation] := by
    decide +kernel
  have hfilter : ("é|(~ a&) éa~".toList.filter fun c => ¬ Reserved c) =
      ['é', 'a', 'é', 'a'] := by
    decide +kernel
  exact ⟨s, hread, rfl, hsymbols ▸ hperm, hnames.trans hfilter⟩

end Sentential
