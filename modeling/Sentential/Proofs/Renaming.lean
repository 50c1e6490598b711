/-
Renaming.  Which characters name the variables, and which numbers a session gives them,
has no bearing on how texts are read and what is answered about them: a text and its
renaming are read as the same row of symbols over names, up to the renaming, and all
answers are told by this row.
-/
import Sentential.Proofs.Answers

namespace Sentential

variable {α β : Type}

namespace Reordering

variable {g : α → β}

/-- The state with its atoms renamed. -/
def map (g : α → β) (state : Reordering α) : Reordering β :=
  { emitted := state.emitted.map (Symbol.map g)
    pending := state.pending
    enclosing := state.enclosing }

theorem map_emit (emitted : List (Symbol α)) (connectives : List Connective) :
    (emit emitted connectives).map (Symbol.map g) =
      emit (emitted.map (Symbol.map g)) connectives := by
  simp [emit, Symbol.map, Function.comp_def]

theorem step_map (state : Reordering α) (t : Token α) :
    (state.map g).step (t.map g) = (state.step t).map (map g) := by
  cases t with
  | symbol s =>
      cases s with
      | atom a => rfl
      | connective c =>
          change Except.ok _ = Except.ok _
          simp only [map, map_emit]
  | opening => rfl
  | closing =>
      obtain ⟨emitted, pending, enclosing⟩ := state
      cases enclosing with
      | nil => rfl
      | cons outer rest =>
          change Except.ok _ = Except.ok _
          simp only [map, map_emit]

theorem run_map (state : Reordering α) (tokens : List (Token α)) :
    (state.map g).run (tokens.map (Token.map g)) = (state.run tokens).map (map g) := by
  induction tokens generalizing state with
  | nil => rfl
  | cons t rest ih =>
      rw [List.map_cons, run_cons, run_cons, step_map]
      cases state.step t with
      | error e => rfl
      | ok next => exact ih next

theorem finish_map (state : Reordering α) :
    (state.map g).finish = state.finish.map (List.map (Symbol.map g)) := by
  obtain ⟨emitted, pending, enclosing⟩ := state
  cases enclosing with
  | nil =>
      change Except.ok _ = Except.ok _
      simp only [map, map_emit, List.map_reverse]
  | cons outer rest => rfl

end Reordering

/-- Tokens are reordered in the same way whatever their atoms are. -/
theorem toPostfix_map (g : α → β) (tokens : List (Token α)) :
    toPostfix (tokens.map (Token.map g)) =
      (toPostfix tokens).map (List.map (Symbol.map g)) := by
  have hrun := Reordering.run_map (g := g) {} tokens
  rw [toPostfix, toPostfix]
  change (Reordering.run (Reordering.map g {}) _ >>= _) = _
  rw [hrun]
  cases Reordering.run {} tokens with
  | error e => rfl
  | ok last => exact last.finish_map

/-- A renaming of the characters that can name variables; the reserved ones are kept. -/
structure Renaming where
  rename : Char → Char
  rename_reserved : ∀ c, Reserved c → rename c = c
  not_reserved_rename : ∀ c, ¬ Reserved c → ¬ Reserved (rename c)
  /-- Different names stay different. -/
  eq_of_rename_eq : ∀ c d, ¬ Reserved c → ¬ Reserved d → rename c = rename d → c = d

namespace Renaming

/-- The text with each character renamed. -/
def text (ρ : Renaming) (source : String) : String :=
  String.ofList (source.toList.map ρ.rename)

variable (ρ : Renaming)

theorem injective : Function.Injective ρ.rename := by
  intro c d h
  by_cases hc : Reserved c
  · by_cases hd : Reserved d
    · rwa [ρ.rename_reserved c hc, ρ.rename_reserved d hd] at h
    · rw [ρ.rename_reserved c hc] at h
      exact absurd (h ▸ hc) (ρ.not_reserved_rename d hd)
  · by_cases hd : Reserved d
    · rw [ρ.rename_reserved d hd] at h
      exact absurd (h ▸ hd) (ρ.not_reserved_rename c hc)
    · exact ρ.eq_of_rename_eq c d hc hd h

theorem toList_text (source : String) :
    (ρ.text source).toList = source.toList.map ρ.rename := by
  rw [text, String.toList_ofList]

/-- Reserved characters are kept, wherever they stand. -/
theorem map_rename_eq_self {l : List Char} (h : (l.all (Reserved ·)) = true) :
    l.map ρ.rename = l := by
  have hreserved : ∀ c ∈ l, Reserved c := by simpa using h
  rw [List.map_congr_left fun c hc => ρ.rename_reserved c (hreserved c hc), List.map_id']

theorem text_eq_self {source : String} (h : (source.toList.all (Reserved ·)) = true) :
    ρ.text source = source := by
  rw [text, ρ.map_rename_eq_self h, String.ofList_toList]

theorem text_toString (c : Char) : ρ.text c.toString = (ρ.rename c).toString := by
  simp [text]

theorem text_append (left right : String) :
    ρ.text (left ++ right) = ρ.text left ++ ρ.text right := by
  simp [text]

theorem text_intercalate (separator : String) (parts : List String) :
    ρ.text (separator.intercalate parts) =
      (ρ.text separator).intercalate (parts.map ρ.text) := by
  induction parts with
  | nil => rfl
  | cons first rest ih =>
      cases rest with
      | nil => simp
      | cons second rest =>
          simp only [List.map_cons, String.intercalate_cons_cons, text_append] at ih ⊢
          rw [ih]

/-- The renaming that exchanges two names. -/
def swap (x y : Char) (hx : ¬ Reserved x) (hy : ¬ Reserved y) : Renaming where
  rename := Equiv.swap x y
  rename_reserved := by
    intro c hc
    apply Equiv.swap_apply_of_ne_of_ne
    · rintro rfl
      exact hx hc
    · rintro rfl
      exact hy hc
  not_reserved_rename := by
    intro c hc
    rw [Equiv.swap_apply_def]
    split
    · exact hy
    · split
      · exact hx
      · exact hc
  eq_of_rename_eq := fun c d _ _ h => (Equiv.swap x y).injective h

theorem ofChar?_rename (c : Char) :
    Token.ofChar? (ρ.rename c) = (Token.ofChar? c).map (Token.map ρ.rename) := by
  by_cases hc : Reserved c
  · rw [ρ.rename_reserved c hc]
    simp only [Reserved, reservedCharacters, List.mem_cons, List.not_mem_nil, or_false] at hc
    rcases hc with rfl | rfl | rfl | rfl | rfl | rfl <;> rfl
  · rw [Token.ofChar?_of_not_reserved hc,
      Token.ofChar?_of_not_reserved (ρ.not_reserved_rename c hc)]
    rfl

theorem lex_rename (source : List Char) :
    Token.lex (source.map ρ.rename) = (Token.lex source).map (Token.map ρ.rename) := by
  rw [Token.lex, Token.lex, List.filterMap_map, List.map_filterMap]
  congr 1
  funext c
  exact ρ.ofChar?_rename c

end Renaming

/-- A row of symbols over names, read over variables. -/
def Sentence.ofNames (g : Char → Variable) (row : List (Symbol Char)) : Sentence :=
  ⟨row.map (Symbol.map g)⟩

namespace Registry.HasRead

variable {later : Registry} {source : String} {result : Except ReadError Sentence}

theorem eq_ofNames (h : later.HasRead source result) :
    result = (toPostfix (Token.lex source.toList)).map (Sentence.ofNames later.variableOf) := by
  rw [h.eq_toPostfix, tokensOf, toPostfix_map]
  cases toPostfix (Token.lex source.toList) <;> rfl

/-- A renamed text is read as the same row over the new names. -/
theorem eq_ofNames_rename (ρ : Renaming) (h : later.HasRead (ρ.text source) result) :
    result = (toPostfix (Token.lex source.toList)).map
      (Sentence.ofNames (later.variableOf ∘ ρ.rename)) := by
  rw [h.eq_ofNames, ρ.toList_text, ρ.lex_rename, toPostfix_map]
  cases toPostfix (Token.lex source.toList) with
  | error e => rfl
  | ok row => simp [Except.map, Sentence.ofNames, Function.comp_def]

end Registry.HasRead

namespace Renaming

variable (ρ : Renaming)

theorem write_rename (tokens : List (Token Char)) :
    Style.signs.write (tokens.map (Token.map ρ.rename)) =
      (Style.signs.write tokens).map ρ.rename := by
  have htoken : ∀ t : Token Char,
      Style.signs.spellToken (t.map ρ.rename) = (Style.signs.spellToken t).map ρ.rename := by
    intro t
    cases t with
    | symbol s =>
        cases s with
        | atom c => rfl
        | connective c =>
            change (Style.signs.spell c).toList = (Style.signs.spell c).toList.map ρ.rename
            rw [ρ.map_rename_eq_self (by cases c <;> decide +kernel)]
    | opening => exact (ρ.map_rename_eq_self (l := ['(']) (by decide)).symm
    | closing => exact (ρ.map_rename_eq_self (l := [')']) (by decide)).symm
  simp only [Style.write, List.flatMap_map, List.map_flatMap, htoken]

/-- What is shown of a sentence and of one read from the renamed text: the names in it are
the new ones, the answers are the same. -/
structure Carries (s s' : Sentence) : Prop where
  toString_eq : toString s' = ρ.text (toString s)
  render_eq : s'.render .signs = (s.render .signs).map ρ.text
  names_eq : s'.vocabulary.toList.map Variable.name =
    (s.vocabulary.toList.map Variable.name).map ρ.rename
  outcomes_eq : (Proposition.sentence s').outcomes = (Proposition.sentence s).outcomes
  valid_eq : (Proposition.sentence s').valid = (Proposition.sentence s).valid
  satisfiable_eq : (Proposition.sentence s').satisfiable = (Proposition.sentence s).satisfiable
  contingent_eq : (Proposition.sentence s').contingent = (Proposition.sentence s).contingent

section Names

variable {ρ} {g g' : Char → Variable} (hname : ∀ c, (g' c).name = ρ.rename (g c).name)
include hname

theorem toString_ofNames (row : List (Symbol Char)) :
    toString (Sentence.ofNames g' row) = ρ.text (toString (Sentence.ofNames g row)) := by
  have hsymbol : ∀ s : Symbol Char, toString (s.map g') = ρ.text (toString (s.map g)) := by
    intro s
    cases s with
    | atom c =>
        change (g' c).name.toString = ρ.text (g c).name.toString
        rw [text_toString, hname]
    | connective c =>
        change c.sign.toString = ρ.text c.sign.toString
        rw [text_toString, ρ.rename_reserved _ (by cases c <;> decide)]
  have hspace : ρ.text " " = " " := ρ.text_eq_self (by decide +kernel)
  change " ".intercalate _ = ρ.text (" ".intercalate _)
  rw [text_intercalate, hspace]
  simp only [Sentence.ofNames, List.map_map, Function.comp_def, hsymbol]

theorem render_ofNames (row : List (Symbol Char)) :
    (Sentence.ofNames g' row).render .signs =
      ((Sentence.ofNames g row).render .signs).map ρ.text := by
  have hnames : Variable.name ∘ g' = ρ.rename ∘ (Variable.name ∘ g) := funext hname
  have hformula : ∀ f : Formula Char,
      (f.map g').render .signs = ρ.text ((f.map g).render .signs) := by
    intro f
    rw [Formula.render, Formula.render, Formula.map_map, Formula.map_map, hnames,
      ← Formula.map_map, Formula.tokens_map, write_rename, text, String.toList_ofList]
  rw [Sentence.render, Sentence.render, Sentence.formula, Sentence.formula, Sentence.ofNames,
    Sentence.ofNames, Formula.ofSymbols_map, Formula.ofSymbols_map]
  cases Formula.ofSymbols row with
  | error e => rfl
  | ok f => exact congrArg Except.ok (hformula f)

end Names

/-- Sentences read from the same row over names that are kept apart. -/
theorem carries_ofNames {g g' : Char → Variable} (hg : Function.Injective g)
    (hg' : Function.Injective g') (hname : ∀ c, (g' c).name = ρ.rename (g c).name)
    (row : List (Symbol Char)) :
    ρ.Carries (Sentence.ofNames g row) (Sentence.ofNames g' row) := by
  have houtcomes : (Proposition.sentence (Sentence.ofNames g' row)).outcomes =
      (Proposition.sentence (Sentence.ofNames g row)).outcomes := by
    rw [Proposition.outcomes_eq_rowOutcomes, Proposition.outcomes_eq_rowOutcomes]
    exact (rowOutcomes_map hg' row).trans (rowOutcomes_map hg row).symm
  have hproperties : (Proposition.sentence (Sentence.ofNames g' row)).properties =
      (Proposition.sentence (Sentence.ofNames g row)).properties :=
    congrArg (Except.map Properties.ofOutcomes) houtcomes
  refine ⟨toString_ofNames hname row, render_ofNames hname row, ?_, houtcomes, ?_, ?_, ?_⟩
  · have hlist : ∀ {h : Char → Variable}, Function.Injective h →
        (Sentence.ofNames h row).vocabulary.toList = (distinctAtoms row).map h := by
      intro h hh
      rw [← distinctAtoms_map hh]
      exact Proposition.toList_vocabulary (.sentence (Sentence.ofNames h row))
    rw [hlist hg, hlist hg', List.map_map, List.map_map, List.map_map]
    exact List.map_congr_left fun c _ => hname c
  · exact congrArg (Except.map Properties.valid) hproperties
  · exact congrArg (Except.map Properties.satisfiable) hproperties
  · exact congrArg (Except.map Properties.contingent) hproperties

theorem verdict_ofNames {g g' : Char → Variable} (hg : Function.Injective g)
    (hg' : Function.Injective g') (premise conclusion : List (Symbol Char)) :
    (Proposition.entails (.sentence (Sentence.ofNames g' premise))
        (.sentence (Sentence.ofNames g' conclusion))).map Comparison.verdict =
      (Proposition.entails (.sentence (Sentence.ofNames g premise))
        (.sentence (Sentence.ofNames g conclusion))).map Comparison.verdict := by
  rw [Proposition.verdict_entails_eq_rowVerdict, Proposition.verdict_entails_eq_rowVerdict]
  exact (rowVerdict_map hg' premise conclusion).trans (rowVerdict_map hg premise conclusion).symm

theorem verdict_equivalent_ofNames {g g' : Char → Variable} (hg : Function.Injective g)
    (hg' : Function.Injective g') (left right : List (Symbol Char)) :
    (Proposition.equivalent (.sentence (Sentence.ofNames g' left))
        (.sentence (Sentence.ofNames g' right))).map Comparison.verdict =
      (Proposition.equivalent (.sentence (Sentence.ofNames g left))
        (.sentence (Sentence.ofNames g right))).map Comparison.verdict := by
  simp only [Proposition.verdict_equivalent_eq, ← Proposition.verdict_entails_eq_rowVerdict,
    verdict_ofNames hg hg']

end Renaming

/-- Two texts read in one session and their renamings read in another, whatever either
session has read before: the one is read just when the other is, they show the same up to
the renaming, and all answers about them are the same. -/
theorem answers_of_renamed_texts (ρ : Renaming) {here there : Registry} {p q : String}
    {s t s' t' : Except ReadError Sentence}
    (hs : here.HasRead p s) (ht : here.HasRead q t)
    (hs' : there.HasRead (ρ.text p) s') (ht' : there.HasRead (ρ.text q) t') :
    ((∃ a', s' = .ok a') ↔ ∃ a, s = .ok a) ∧ (∀ e, s' = .error e ↔ s = .error e) ∧
      (∀ a a', s = .ok a → s' = .ok a' → ρ.Carries a a') ∧
      ∀ a b a' b', s = .ok a → t = .ok b → s' = .ok a' → t' = .ok b' →
        (Proposition.entails (.sentence a') (.sentence b')).map Comparison.verdict =
            (Proposition.entails (.sentence a) (.sentence b)).map Comparison.verdict ∧
          (Proposition.equivalent (.sentence a') (.sentence b')).map Comparison.verdict =
            (Proposition.equivalent (.sentence a) (.sentence b)).map Comparison.verdict := by
  have hhere := here.variableOf_injective
  have hthere : Function.Injective (there.variableOf ∘ ρ.rename) :=
    there.variableOf_injective.comp ρ.injective
  obtain rfl := hs.eq_ofNames
  obtain rfl := ht.eq_ofNames
  obtain rfl := hs'.eq_ofNames_rename
  obtain rfl := ht'.eq_ofNames_rename
  cases toPostfix (Token.lex p.toList) with
  | error e => exact ⟨⟨nofun, nofun⟩, fun _ => Iff.rfl, nofun, nofun⟩
  | ok row =>
      refine ⟨⟨fun _ => ⟨_, rfl⟩, fun _ => ⟨_, rfl⟩⟩, fun _ => ⟨nofun, nofun⟩, ?_, ?_⟩
      · intro a a' ha ha'
        cases ha
        cases ha'
        exact ρ.carries_ofNames hhere hthere (fun _ => rfl) row
      · intro a b a' b' ha hb ha' hb'
        cases ha
        cases ha'
        cases hother : toPostfix (Token.lex q.toList) with
        | error e =>
            rw [hother] at hb
            cases hb
        | ok other =>
            rw [hother] at hb hb'
            cases hb
            cases hb'
            exact ⟨Renaming.verdict_ofNames hhere hthere row other,
              Renaming.verdict_equivalent_ofNames hhere hthere row other⟩

/-- An ASCII name and another one change places, and the second session has given the first
number away before: the order by number is not the same, the answers are. -/
theorem answers_of_exchanged_names :
    let ρ := Renaming.swap 'a' 'é' (by decide) (by decide)
    let first := (Registry.empty.parse "é&~a").2
    let other := (Registry.empty.parse "ñ").2
    let second := (other.parse "a&~é").2
    let s : Sentence := ⟨[.atom ⟨'é', 128⟩, .atom ⟨'a', 97⟩, .connective .negation,
      .connective .conjunction]⟩
    let t : Sentence := ⟨[.atom ⟨'a', 97⟩, .atom ⟨'é', 128⟩, .connective .disjunction]⟩
    let s' : Sentence := ⟨[.atom ⟨'a', 97⟩, .atom ⟨'é', 129⟩, .connective .negation,
      .connective .conjunction]⟩
    let t' : Sentence := ⟨[.atom ⟨'é', 129⟩, .atom ⟨'a', 97⟩, .connective .disjunction]⟩
    ρ.text "é&~a" = "a&~é" ∧ ρ.text "a|é" = "é|a" ∧
      (Registry.empty.parse "é&~a").1 = .ok s ∧ (first.parse "a|é").1 = .ok t ∧
      (other.parse "a&~é").1 = .ok s' ∧ (second.parse "é|a").1 = .ok t' ∧ ρ.Carries s s' ∧
      (Proposition.entails (.sentence s') (.sentence t')).map Comparison.verdict = .ok .holds ∧
      (Proposition.equivalent (.sentence s') (.sentence t')).map Comparison.verdict =
        .ok .fails := by
  intro ρ first other second s t s' t'
  have hp : ρ.text "é&~a" = "a&~é" := by decide +kernel
  have hq : ρ.text "a|é" = "é|a" := by decide +kernel
  have hs : (Registry.empty.parse "é&~a").1 = .ok s := by decide +kernel
  have ht : (first.parse "a|é").1 = .ok t := by decide +kernel
  have hs' : (other.parse "a&~é").1 = .ok s' := by decide +kernel
  have ht' : (second.parse "é|a").1 = .ok t' := by decide +kernel
  have hhere : (first.parse "a|é").2.HasRead "é&~a" (.ok s) := by
    rw [← hs]
    exact (Registry.empty.hasRead_parse "é&~a").of_extends (first.extends_parse "a|é")
  have hthere : (second.parse "é|a").2.HasRead (ρ.text "é&~a") (.ok s') := by
    rw [hp, ← hs']
    exact (other.hasRead_parse "a&~é").of_extends (second.extends_parse "é|a")
  have hrenamed : (second.parse "é|a").2.HasRead (ρ.text "a|é") (.ok t') := by
    rw [hq, ← ht']
    exact second.hasRead_parse "é|a"
  have horiginal : (first.parse "a|é").2.HasRead "a|é" (.ok t) := by
    rw [← ht]
    exact first.hasRead_parse "a|é"
  obtain ⟨_, _, hcarries, hverdicts⟩ :=
    answers_of_renamed_texts ρ hhere horiginal hthere hrenamed
  obtain ⟨hentails, hequivalent⟩ := hverdicts s t s' t' rfl rfl rfl rfl
  have hholds : (Proposition.entails (.sentence s) (.sentence t)).map Comparison.verdict =
      .ok .holds := by decide +kernel
  have hfails : (Proposition.equivalent (.sentence s) (.sentence t)).map Comparison.verdict =
      .ok .fails := by decide +kernel
  exact ⟨hp, hq, hs, ht, hs', ht', hcarries s s' rfl rfl, hentails.trans hholds,
    hequivalent.trans hfails⟩

end Sentential
