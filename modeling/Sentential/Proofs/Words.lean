/-
Sentences in words.  The style that writes the connectives as words shares its letters with
the names of variables and is not read by the reader of signs.  It can be read all the same:
a name is a single letter, and what follows it is never a letter, as no operand stands next
to another; so nothing but a negation begins with two letters in a row.  Reading the words
gives back the tokens and then the sentence, hence different sentences have different texts.
-/
import Sentential.Proofs.Alternation
import Sentential.Proofs.RoundTrip

namespace Sentential

namespace Token

/-- The tokens of a text in which the connectives are words with the room around them.  Any
other character names an atom. -/
def readWords : List Char → List (Token Char)
  | [] => []
  | '(' :: rest => opening :: readWords rest
  | ')' :: rest => closing :: readWords rest
  | 'n' :: 'o' :: 't' :: ' ' :: rest => symbol (.connective .negation) :: readWords rest
  | ' ' :: 'a' :: 'n' :: 'd' :: ' ' :: rest =>
      symbol (.connective .conjunction) :: readWords rest
  | ' ' :: 'o' :: 'r' :: ' ' :: rest => symbol (.connective .disjunction) :: readWords rest
  | name :: rest => symbol (.atom name) :: readWords rest

/-- A name is read as such unless the letters of a negation begin with it. -/
theorem readWords_cons {name : Char} (hname : ¬ Reserved name) {rest : List Char}
    (hrest : ∀ c ∈ rest.head?, c ≠ 'o') :
    readWords (name :: rest) = symbol (.atom name) :: readWords rest := by
  simp only [Reserved, reservedCharacters, List.mem_cons, List.not_mem_nil, or_false,
    not_or] at hname
  obtain ⟨hspace, _, _, _, hopening, hclosing⟩ := hname
  rw [readWords]
  · exact hopening
  · exact hclosing
  · rintro more rfl rfl
    exact hrest 'o' rfl rfl
  · exact fun _ hname _ => hspace hname
  · exact fun _ hname _ => hspace hname

/-- The text of a token that starts no operand begins with no letter. -/
theorem head?_spellToken_ne {t : Token Char} (ht : t.startsOperand = false) (more : List Char) :
    ∀ c ∈ (Style.words.spellToken t ++ more).head?, c ≠ 'o' := by
  rcases t with (name | c) | _ | _
  · cases ht
  · cases c with
    | negation => cases ht
    | conjunction => exact fun c hc => Option.some.inj hc ▸ by decide
    | disjunction => exact fun c hc => Option.some.inj hc ▸ by decide
  · cases ht
  · exact fun c hc => Option.some.inj hc ▸ by decide

/-- Tokens written in words are read back, if no operand stands next to another. -/
theorem readWords_write {tokens : List (Token Char)} (hseparated : Separated tokens)
    (hwritable : ∀ t ∈ tokens, t.Writable) :
    readWords (Style.words.write tokens) = tokens := by
  induction tokens with
  | nil => rfl
  | cons t rest ih =>
      obtain ⟨ht, hothers⟩ := List.forall_mem_cons.mp hwritable
      obtain ⟨hnext, hrest⟩ := List.isChain_cons.mp hseparated
      have hread := ih hrest hothers
      rw [Style.write_cons]
      rcases t with (name | c) | _ | _
      · have hhead : ∀ c ∈ (Style.words.write rest).head?, c ≠ 'o' := by
          cases rest with
          | nil => exact fun c hc => nomatch hc
          | cons u more =>
              have hu : u.startsOperand = false := by
                have hapart := hnext u rfl
                simpa [Juxtaposed, endsOperand] using hapart
              exact head?_spellToken_ne hu (Style.words.write more)
        change readWords (name :: Style.words.write rest) = _
        rw [readWords_cons (ht name rfl) hhead, hread]
      · cases c with
        | negation => exact congrArg (_ :: ·) hread
        | conjunction => exact congrArg (_ :: ·) hread
        | disjunction => exact congrArg (_ :: ·) hread
      · exact congrArg (opening :: ·) hread
      · exact congrArg (closing :: ·) hread

end Token

namespace Registry

variable {r : Registry}

/-- Reads a sentence in words over the variables of the registry. -/
def parseWords (r : Registry) (text : String) : Except ReadError Sentence :=
  (toPostfix ((Token.readWords text.toList).map (Token.map r.variableOf))).map Sentence.mk

/-- The text of a formula in words is read as the symbols of the formula. -/
theorem parseWords_render {f : Formula Variable} (hr : ∀ v ∈ f.atoms, r.Issued v) :
    r.parseWords (f.render .words) = .ok ⟨f.symbols⟩ := by
  have hderives : Derives .expression f.tokens f := f.derives_tokens f.rank_le_expression
  have hnamed := hderives.map Variable.name
  have hread : Token.readWords (f.render .words).toList =
      f.tokens.map (Token.map Variable.name) := by
    rw [Formula.render, Formula.tokens_map, String.toList_ofList]
    exact Token.readWords_write hnamed.alternating.separated (hderives.writable hr)
  have hsame : (f.map Variable.name).map r.variableOf = f := by
    rw [Formula.map_map]
    exact Formula.map_eq_self fun v hv => (hr v hv).variableOf_name
  have hsymbols := (hnamed.map r.variableOf).toPostfix_eq
  rw [hsame] at hsymbols
  rw [parseWords, hread, hsymbols]
  rfl

/-- Every well-formed sentence over variables given out has a text in words, and this is
read as the sentence. -/
theorem exists_render_words {s : Sentence} (hs : s.WellFormed)
    (hr : ∀ v ∈ s.occurrences, r.Issued v) :
    ∃ text, s.render .words = .ok text ∧ r.parseWords text = .ok s := by
  obtain ⟨f, hf⟩ := hs
  have hatoms : s.occurrences = f.atoms := by
    rw [Sentence.occurrences, ← hf, f.filterMap_atom?_symbols]
  have hrender : s.render .words = .ok (f.render .words) := by
    rw [Sentence.render, Sentence.formula, ← hf, Formula.ofSymbols_symbols]
    rfl
  have hread := parseWords_render (hatoms ▸ hr)
  rw [hf] at hread
  exact ⟨_, hrender, hread⟩

end Registry

/-- Well-formed sentences have texts in words, which are read back, and two of them have the
same text only if they are the same sentence. -/
theorem render_words_unambiguous {r : Registry} {s t : Sentence} (hs : s.WellFormed)
    (ht : t.WellFormed) (hrs : ∀ v ∈ s.occurrences, r.Issued v)
    (hrt : ∀ v ∈ t.occurrences, r.Issued v) :
    ∃ left right, s.render .words = .ok left ∧ t.render .words = .ok right ∧
      r.parseWords left = .ok s ∧ r.parseWords right = .ok t ∧ (left = right → s = t) := by
  obtain ⟨left, hleft, hreadLeft⟩ := Registry.exists_render_words hs hrs
  obtain ⟨right, hright, hreadRight⟩ := Registry.exists_render_words ht hrt
  refine ⟨left, right, hleft, hright, hreadLeft, hreadRight, ?_⟩
  rintro rfl
  exact Except.ok.inj (hreadLeft.symm.trans hreadRight)

/-- The letters of all three words as names, with and without parentheses. -/
theorem render_words_apart :
    let n : Variable := ⟨'n', 110⟩
    let o : Variable := ⟨'o', 111⟩
    let d : Variable := ⟨'d', 100⟩
    let s : Sentence := ⟨(Formula.disj (.neg (.atom n)) (.conj (.atom o) (.atom d))).symbols⟩
    let t : Sentence := ⟨(Formula.neg (.disj (.atom n) (.conj (.atom o) (.atom d)))).symbols⟩
    s.WellFormed ∧ t.WellFormed ∧
      (∀ v ∈ s.occurrences ++ t.occurrences, Registry.empty.Issued v) ∧
      s.render .words = .ok "not n or o and d" ∧
      t.render .words = .ok "not (n or o and d)" ∧
      Registry.empty.parseWords "not n or o and d" = .ok s ∧
      Registry.empty.parseWords "not (n or o and d)" = .ok t := by
  intro n o d s t
  have hs : s.WellFormed := ⟨_, rfl⟩
  have ht : t.WellFormed := ⟨_, rfl⟩
  have hissued : ∀ v ∈ s.occurrences ++ t.occurrences, Registry.empty.Issued v := by
    have hn : Registry.empty.Issued n := ⟨by decide, .inl (by decide), rfl⟩
    have ho : Registry.empty.Issued o := ⟨by decide, .inl (by decide), rfl⟩
    have hd : Registry.empty.Issued d := ⟨by decide, .inl (by decide), rfl⟩
    change ∀ v ∈ [n, o, d, n, o, d], _
    simp [hn, ho, hd]
  have hleft : s.render .words = .ok "not n or o and d" := by decide +kernel
  have hright : t.render .words = .ok "not (n or o and d)" := by decide +kernel
  obtain ⟨hrs, hrt⟩ := List.forall_mem_append.mp hissued
  obtain ⟨left, right, hl, hr, hreadLeft, hreadRight, _⟩ := render_words_unambiguous hs ht hrs hrt
  obtain rfl : left = _ := Except.ok.inj (hl.symm.trans hleft)
  obtain rfl : right = _ := Except.ok.inj (hr.symm.trans hright)
  exact ⟨hs, ht, hissued, hleft, hright, hreadLeft, hreadRight⟩

end Sentential
