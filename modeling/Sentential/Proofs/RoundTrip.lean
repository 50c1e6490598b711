/-
Writing a formula and reading it back.  The tokens written for a formula derive
it, because an operand is enclosed where it would bind looser than its place
allows; so every style that writes the connectives by their signs gives a text
that is read as the symbols of the formula.
-/
import Sentential.Proofs.Postorder
import Sentential.Proofs.Precedence

namespace Sentential

variable {α : Type}

/-- A phrase is also one of any kind that binds as loose. -/
theorem Derives.loosen {tight loose : Phrase} {w : List (Token α)} {f : Formula α}
    (h : Derives tight w f) (hle : tight.connective.rank ≤ loose.connective.rank) :
    Derives loose w f := by
  cases tight with
  | factor =>
      cases loose with
      | factor => exact h
      | term => exact .factor h
      | expression => exact .term (.factor h)
  | term =>
      cases loose with
      | factor => exact absurd hle (by decide)
      | term => exact h
      | expression => exact .term h
  | expression =>
      cases loose with
      | factor => exact absurd hle (by decide)
      | term => exact absurd hle (by decide)
      | expression => exact h

/-- An operand is a phrase of the kind its place asks for, enclosed if need be. -/
theorem derives_operand (phrase : Phrase) (f : Formula α) {bare : Prop} [Decidable bare]
    (hbare : bare → Derives phrase f.tokens f) (hf : Derives .expression f.tokens f) :
    Derives phrase (if bare then f.tokens else enclose f.tokens) f := by
  split
  · rename_i h
    exact hbare h
  · exact (Derives.enclosed hf).loosen (Nat.zero_le _)

namespace Formula

theorem rank_le_expression (f : Formula α) : f.rank ≤ Phrase.expression.connective.rank := by
  cases f <;> simp [rank, Phrase.connective, Connective.rank]

/-- The tokens written for a formula derive it as a phrase that binds as loose as
the formula. -/
theorem derives_tokens (f : Formula α) {phrase : Phrase}
    (h : f.rank ≤ phrase.connective.rank) : Derives phrase f.tokens f := by
  induction f generalizing phrase with
  | atom a => exact (Derives.atom a).loosen h
  | neg f ih =>
      have hoperand := derives_operand .factor f ih (ih f.rank_le_expression)
      exact (Derives.negation hoperand).loosen h
  | conj l r ihl ihr =>
      have hleft := derives_operand .term l ihl (ihl l.rank_le_expression)
      have hright := derives_operand .factor r
        (fun hlt => ihr (Nat.le_of_lt_succ hlt)) (ihr r.rank_le_expression)
      exact (Derives.conjunction hleft hright).loosen h
  | disj l r ihl ihr =>
      have hleft := derives_operand .expression l ihl (ihl l.rank_le_expression)
      have hright := derives_operand .term r
        (fun hlt => ihr (Nat.le_of_lt_succ hlt)) (ihr r.rank_le_expression)
      exact (Derives.disjunction hleft hright).loosen h

end Formula

/-- A style that writes each connective by its sign, with spaces around it. -/
def Style.Padded (style : Style) : Prop :=
  ∀ c, ∃ before after,
    (style.spell c).toList = List.replicate before ' ' ++ c.sign :: List.replicate after ' '

theorem Style.signs_padded : Style.signs.Padded := by
  intro c
  cases c with
  | negation => exact ⟨0, 0, rfl⟩
  | conjunction => exact ⟨1, 1, rfl⟩
  | disjunction => exact ⟨1, 1, rfl⟩

theorem spells_replicate_space (n : Nat) : Spells (List.replicate n ' ') [] := by
  induction n with
  | zero => exact .nil
  | succ n ih => exact .space ih

theorem Style.Padded.spells_spellToken {style : Style} (hstyle : style.Padded)
    {t : Token Char} (ht : t.Writable) : Spells (style.spellToken t) [t] := by
  cases t with
  | symbol s =>
      cases s with
      | atom name => exact .token ht .nil
      | connective c =>
          obtain ⟨before, after, hspell⟩ := hstyle c
          have hsign : Spells (c.sign :: List.replicate after ' ')
              [.symbol (.connective c)] :=
            .token ht (spells_replicate_space after)
          change Spells (style.spell c).toList _
          rw [hspell]
          exact (spells_replicate_space before).append hsign
  | opening => exact .token ht .nil
  | closing => exact .token ht .nil

/-- A padded style writes a text that spells the tokens. -/
theorem Style.Padded.spells_write {style : Style} (hstyle : style.Padded)
    {tokens : List (Token Char)} (htokens : ∀ t ∈ tokens, t.Writable) :
    Spells (style.write tokens) tokens := by
  induction tokens with
  | nil => exact .nil
  | cons t rest ih =>
      have ht := hstyle.spells_spellToken (htokens t List.mem_cons_self)
      have hrest := ih fun u hu => htokens u (List.mem_cons_of_mem t hu)
      exact ht.append hrest

/-- The tokens of a phrase over variables given out can be written. -/
theorem Derives.writable {r : Registry} {phrase : Phrase} {w : List (Token Variable)}
    {f : Formula Variable} (h : Derives phrase w f) (hr : ∀ v ∈ f.atoms, r.Issued v) :
    ∀ t ∈ w.map (Token.map Variable.name), t.Writable := by
  intro t ht name hname
  have hatom := List.mem_filterMap.mpr ⟨t, ht, hname⟩
  rw [(h.map Variable.name).filterMap_atom?, Formula.atoms_map] at hatom
  obtain ⟨v, hv, rfl⟩ := List.mem_map.mp hatom
  exact (hr v hv).readable

/-- The text of a formula over variables given out spells its tokens. -/
theorem Formula.spells_render {r : Registry} {style : Style} {f : Formula Variable}
    (hr : ∀ v ∈ f.atoms, r.Issued v) (hstyle : style.Padded) :
    Spells (f.render style).toList (f.tokens.map (Token.map Variable.name)) := by
  have hderives : Derives .expression f.tokens f := f.derives_tokens f.rank_le_expression
  rw [Formula.render, Formula.tokens_map, String.toList_ofList]
  exact hstyle.spells_write (hderives.writable hr)

/-- The text of a formula over variables given out is read as the symbols of the
formula. -/
theorem Registry.parse_render {r : Registry} {style : Style} {f : Formula Variable}
    (hr : ∀ v ∈ f.atoms, r.Issued v) (hstyle : style.Padded) :
    r.parse (f.render style) = (.ok ⟨f.symbols⟩, r) :=
  Registry.parse_of_issued_expression hr (f.derives_tokens f.rank_le_expression)
    (Formula.spells_render hr hstyle)

/-- A row of tokens that has an infix text lists a formula, whose text it is. -/
theorem eq_map_symbols_of_map_render {tokens : List (Token Variable)} {style : Style}
    {text : String}
    (h : (Formula.ofPostfix tokens).map (Formula.render style) = .ok text) :
    ∃ f : Formula Variable, tokens = f.symbols.map Token.symbol ∧ f.render style = text := by
  cases hf : Formula.ofPostfix tokens with
  | error e =>
      rw [hf] at h
      cases h
  | ok f =>
      rw [hf] at h
      cases h
      exact ⟨f, Formula.ofPostfix_eq_ok_iff.mp hf, rfl⟩

/-- A row of tokens has an infix text just when it lists a formula in postfix order,
and a padded style then gives a text that is read back as the same row. -/
theorem parse_of_infix_text {r : Registry} {style : Style} (hstyle : style.Padded)
    {tokens : List (Token Variable)}
    (hissued : ∀ v ∈ tokens.filterMap Token.atom?, r.Issued v) :
    ((∃ text, (Formula.ofPostfix tokens).map (Formula.render style) = .ok text) ↔
        ∃ f : Formula Variable, tokens = f.symbols.map Token.symbol) ∧
      (∀ text, (Formula.ofPostfix tokens).map (Formula.render style) = .ok text →
        ∃ s : Sentence, r.parse text = (.ok s, r) ∧ s.symbols.map Token.symbol = tokens) ∧
      Style.signs.Padded ∧
      ∀ s : Sentence, s.symbols.map Token.symbol = tokens →
        ∀ text, s.render style = .ok text → r.parse text = (.ok s, r) := by
  have hback : ∀ f : Formula Variable, tokens = f.symbols.map Token.symbol →
      r.parse (f.render style) = (.ok ⟨f.symbols⟩, r) := by
    intro f hf
    have hatoms : tokens.filterMap Token.atom? = f.atoms := by
      rw [hf, List.filterMap_map, ← f.filterMap_atom?_symbols]
      rfl
    exact Registry.parse_render (hatoms ▸ hissued) hstyle
  refine ⟨⟨?_, ?_⟩, ?_, Style.signs_padded, ?_⟩
  · rintro ⟨text, htext⟩
    obtain ⟨f, hf, _⟩ := eq_map_symbols_of_map_render htext
    exact ⟨f, hf⟩
  · rintro ⟨f, hf⟩
    refine ⟨f.render style, ?_⟩
    rw [Formula.ofPostfix_eq_ok_iff.mpr hf]
    rfl
  · intro text htext
    obtain ⟨f, hf, rfl⟩ := eq_map_symbols_of_map_render htext
    exact ⟨⟨f.symbols⟩, hback f hf, hf.symm⟩
  · rintro ⟨row⟩ hrow text htext
    have hrendered : (Formula.ofPostfix tokens).map (Formula.render style) = .ok text := by
      rw [← hrow, Formula.ofPostfix_map_symbol]
      exact htext
    obtain ⟨f, hf, rfl⟩ := eq_map_symbols_of_map_render hrendered
    have hsame : row = f.symbols := Formula.map_symbol_injective (hrow.trans hf)
    rw [hback f hf, hsame]

/-- A tab and an accented letter as names, uneven room around the signs. -/
theorem parse_of_enclosed_infix_text :
    let tab : Variable := ⟨'\t', 9⟩
    let accented : Variable := ⟨'é', 128⟩
    let r : Registry := Registry.empty.enroll 'é'
    let style : Style := ⟨"&", " |  ", " ~"⟩
    let tokens : List (Token Variable) := [.atom tab, .atom accented,
      .connective .disjunction, .atom accented, .atom tab, .connective .conjunction,
      .connective .negation, .connective .conjunction].map Token.symbol
    style.Padded ∧ (∀ v ∈ tokens.filterMap Token.atom?, r.Issued v) ∧
      (Formula.ofPostfix tokens).map (Formula.render style) = .ok "(\t |  é)& ~(é&\t)" ∧
      ∃ s : Sentence, r.parse "(\t |  é)& ~(é&\t)" = (.ok s, r) ∧
        s.symbols.map Token.symbol = tokens := by
  intro tab accented r style tokens
  have hstyle : style.Padded := by
    intro c
    cases c with
    | negation => exact ⟨1, 0, by decide +kernel⟩
    | conjunction => exact ⟨0, 0, by decide +kernel⟩
    | disjunction => exact ⟨1, 2, by decide +kernel⟩
  have hissued : ∀ v ∈ tokens.filterMap Token.atom?, r.Issued v := by
    have htab : r.Issued tab := ⟨by decide, Or.inl (by decide), rfl⟩
    have haccented : r.Issued accented := Registry.empty.issued_enroll_self (by decide)
    change ∀ v ∈ [tab, accented, accented, tab], r.Issued v
    simp [htab, haccented]
  have htext : (Formula.ofPostfix tokens).map (Formula.render style) =
      .ok "(\t |  é)& ~(é&\t)" := by
    decide +kernel
  obtain ⟨_, hread, _⟩ := parse_of_infix_text hstyle hissued
  exact ⟨hstyle, hissued, htext, hread _ htext⟩

end Sentential
