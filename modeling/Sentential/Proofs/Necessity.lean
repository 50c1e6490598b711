/-
No parenthesis too many.  Whichever tokens express a formula, they open at least as many
parentheses as are written for it; so the tokens left over when a pair is deleted express
another formula or none.  They are reordered all the same, for their parentheses match,
and no operand has come to stand next to another.
-/
import Sentential.Proofs.Alternation
import Sentential.Proofs.Balance
import Sentential.Proofs.Embedding
import Sentential.Proofs.RoundTrip

namespace Sentential

variable {α : Type}

namespace Formula

variable {f l r : Formula α}

/-- The tokens written for a formula where a phrase is expected: they are enclosed if the
formula binds looser than the phrase may. -/
def tokensAs (phrase : Phrase) (f : Formula α) : List (Token α) :=
  if f.rank ≤ phrase.connective.rank then f.tokens else enclose f.tokens

theorem tokensAs_expression (f : Formula α) : f.tokensAs .expression = f.tokens :=
  if_pos f.rank_le_expression

theorem tokens_neg (f : Formula α) :
    (neg f).tokens = .symbol (.connective .negation) :: f.tokensAs .factor :=
  rfl

theorem tokens_conj (l r : Formula α) :
    (conj l r).tokens =
      l.tokensAs .term ++ .symbol (.connective .conjunction) :: r.tokensAs .factor := by
  have htight : r.rank < Connective.conjunction.rank ↔
      r.rank ≤ Phrase.factor.connective.rank := Nat.lt_succ_iff
  simp only [tokens, tokensAs, htight]
  rfl

theorem tokens_disj (l r : Formula α) :
    (disj l r).tokens =
      l.tokensAs .expression ++ .symbol (.connective .disjunction) :: r.tokensAs .term := by
  have htight : r.rank < Connective.disjunction.rank ↔
      r.rank ≤ Phrase.term.connective.rank := Nat.lt_succ_iff
  simp only [tokens, tokensAs, htight]
  rfl

/-- Enclosing costs one pair at most. -/
theorem openings_tokensAs_le (phrase : Phrase) (f : Formula α) :
    openings (f.tokensAs phrase) ≤ openings f.tokens + 1 := by
  unfold tokensAs
  split
  · exact Nat.le_succ _
  · exact Nat.le_of_eq (openings_enclose _)

/-- A phrase that may bind looser asks for no more parentheses. -/
theorem openings_tokensAs_mono {tight loose : Phrase}
    (hle : tight.connective.rank ≤ loose.connective.rank) (f : Formula α) :
    openings (f.tokensAs loose) ≤ openings (f.tokensAs tight) := by
  unfold tokensAs
  by_cases hfits : f.rank ≤ tight.connective.rank
  · rw [if_pos hfits, if_pos (Nat.le_trans hfits hle)]
  · rw [if_neg hfits, openings_enclose]
    exact openings_tokensAs_le loose f

end Formula

/-- Of all tokens that a phrase can have for a formula, those written for it open the
fewest parentheses. -/
theorem Derives.openings_tokensAs_le {phrase : Phrase} {w : List (Token α)} {f : Formula α}
    (h : Derives phrase w f) : openings (f.tokensAs phrase) ≤ openings w := by
  induction h with
  | atom a => exact Nat.zero_le _
  | @negation w f _ ih =>
      change openings (Formula.neg f).tokens ≤ _
      rw [Formula.tokens_neg, openings_cons, openings_cons _ w]
      exact Nat.add_le_add_left ih _
  | @enclosed w f _ ih =>
      rw [Formula.tokensAs_expression] at ih
      rw [openings_enclose]
      exact Nat.le_trans (f.openings_tokensAs_le .factor) (Nat.succ_le_succ ih)
  | @factor w f _ ih =>
      exact Nat.le_trans (Formula.openings_tokensAs_mono (by decide) f) ih
  | @conjunction u v l r _ _ ihl ihr =>
      change openings (Formula.conj l r).tokens ≤ _
      rw [Formula.tokens_conj, openings_append, openings_append, openings_cons,
        openings_cons _ v]
      omega
  | @term w f _ ih =>
      exact Nat.le_trans (Formula.openings_tokensAs_mono (by decide) f) ih
  | @disjunction u v l r _ _ ihl ihr =>
      change openings (Formula.disj l r).tokens ≤ _
      rw [Formula.tokens_disj, openings_append, openings_append, openings_cons,
        openings_cons _ v]
      omega

section Deletion

variable {left inner right tokens : List (Token α)} {t : Token α}

/-- A token that ends no operand before it, or starts none after it, holds none apart. -/
theorem Separated.delete (h : Separated (left ++ t :: right))
    (hgap : (∀ u ∈ left.getLast?, u.endsOperand = false) ∨
      ∀ u ∈ right.head?, u.startsOperand = false) : Separated (left ++ right) := by
  obtain ⟨hleft, hright, _⟩ := List.isChain_append.mp h
  refine List.isChain_append.mpr ⟨hleft, hright.tail, ?_⟩
  rintro u hu v hv ⟨hends, hstarts⟩
  rcases hgap with hgap | hgap
  · exact Bool.false_ne_true ((hgap u hu).symm.trans hends)
  · exact Bool.false_ne_true ((hgap v hv).symm.trans hstarts)

/-- Around a pair of parentheses there are no operands to be brought together. -/
theorem Alternating.separated_of_delete (h : Alternating (left ++ enclose inner ++ right)) :
    Separated (left ++ inner ++ right) := by
  have hchain : (left ++ enclose inner ++ right).IsChain Token.InTurn :=
    h.infix ⟨[.opening], [.closing], rfl⟩
  have hbefore : ∀ u ∈ left.getLast?, u.endsOperand = false := by
    intro u hu
    rw [List.append_assoc, List.isChain_append] at hchain
    have hturn : Token.InTurn u .opening := hchain.2.2 u hu .opening rfl
    simpa [Token.InTurn, Token.startsOperand] using hturn
  have hafter : ∀ u ∈ right.head?, u.startsOperand = false := by
    intro u hu
    rw [List.isChain_append] at hchain
    have hlast : (left ++ enclose inner).getLast? = some .closing := by
      rw [enclose, ← List.append_assoc]
      exact List.getLast?_concat
    have hturn : Token.InTurn .closing u := hchain.2.2 .closing hlast u hu
    simpa [Token.InTurn, Token.endsOperand] using hturn
  have hopened : Separated (left ++ (inner ++ .closing :: right)) := by
    apply Separated.delete (t := .opening) _ (Or.inl hbefore)
    simpa [enclose] using h.separated
  rw [← List.append_assoc] at hopened
  exact hopened.delete (Or.inr hafter)

/-- A prefix of tokens in a row is one of the first of them, or it has all of these. -/
theorem prefix_append_cases {head : List (Token α)} (h : head <+: left ++ right) :
    head <+: left ∨ ∃ rest, rest <+: right ∧ head = left ++ rest := by
  obtain hshort | ⟨rest, rfl⟩ := List.prefix_or_prefix_of_prefix h (List.prefix_append left right)
  · exact Or.inl hshort
  · exact Or.inr ⟨rest, (List.prefix_append_right_inj left).mp h, rfl⟩

/-- Parentheses still match when a pair of them is deleted. -/
theorem Balanced.delete (h : Balanced (left ++ enclose inner ++ right))
    (hinner : Balanced inner) : Balanced (left ++ inner ++ right) := by
  obtain ⟨hnever, hequal⟩ := h
  simp only [openings_append, closings_append, openings_enclose, closings_enclose] at hequal
  have hleft : closings left ≤ openings left :=
    hnever left (by simp only [List.append_assoc, List.prefix_append])
  refine ⟨fun head hhead => ?_, ?_⟩
  · obtain hshort | ⟨rest, hrest, rfl⟩ := prefix_append_cases hhead
    · obtain hfirst | ⟨within, hwithin, rfl⟩ := prefix_append_cases hshort
      · apply hnever
        rw [List.append_assoc]
        exact hfirst.trans (List.prefix_append left _)
      · have hdepth := hinner.1 within hwithin
        rw [openings_append, closings_append]
        omega
    · have hdepth := hnever (left ++ enclose inner ++ rest)
        ((List.prefix_append_right_inj _).mpr hrest)
      simp only [openings_append, closings_append, openings_enclose, closings_enclose] at hdepth ⊢
      omega
  · simp only [openings_append, closings_append]
    omega

/-- Without a pair of the parentheses written for a formula, its tokens are reordered into
other symbols. -/
theorem Formula.exists_toPostfix_of_delete {f : Formula α}
    (h : f.tokens = left ++ enclose inner ++ right) (hinner : Balanced inner) :
    ∃ row, toPostfix (left ++ inner ++ right) = .ok row ∧ row ≠ f.symbols := by
  have hderives : Derives .expression f.tokens f := f.derives_tokens f.rank_le_expression
  have hbalanced : Balanced f.tokens := exists_toPostfix_iff.mp ⟨_, hderives.toPostfix_eq⟩
  have halternating := hderives.alternating
  rw [h] at hbalanced halternating
  obtain ⟨row, hrow⟩ := exists_toPostfix_iff.mpr (hbalanced.delete hinner)
  refine ⟨row, hrow, ?_⟩
  rintro rfl
  have hfewer := ((derives_iff_separated hrow).mpr
    halternating.separated_of_delete).openings_tokensAs_le
  rw [tokensAs_expression, h] at hfewer
  simp only [openings_append, openings_enclose] at hfewer
  omega

end Deletion

section Text

variable {r : Registry} {f : Formula Variable} {style : Style} {text left inner right : String}

/-- Over the variables given out, the text of a formula has the tokens of the formula. -/
theorem Registry.tokensOf_render (hr : ∀ v ∈ f.atoms, r.Issued v) (hstyle : style.Padded) :
    r.tokensOf (f.render style) = f.tokens := by
  have hsame : f.map (r.variableOf ∘ Variable.name) = f :=
    Formula.map_eq_self fun v hv => (hr v hv).variableOf_name
  rw [tokensOf, (Formula.spells_render hr hstyle).lex_eq, ← Formula.tokens_map,
    ← Formula.tokens_map, Formula.map_map, hsame]

/-- A text that names variables given out is read over them, and enrolls no other. -/
theorem Registry.parse_of_issued
    (h : ∀ v ∈ (r.tokensOf text).filterMap Token.atom?, r.Issued v) :
    r.parse text = ((toPostfix (r.tokensOf text)).map Sentence.mk, r) := by
  have hspells := Spells.of_lex text.toList
  have hvariables := r.filterMap_atom?_tokensOf text
  rw [hspells.filter_eq] at hvariables
  have hsame : r.enrollAll ((Token.lex text.toList).filterMap Token.atom?) = r := by
    have henroll := enrollAll_eq_self h
    rw [hvariables, List.map_map] at henroll
    have hnames : Variable.name ∘ r.variableOf = id := rfl
    rwa [hnames, List.map_id] at henroll
  rw [r.parse_of_spells hspells, hsame]
  rfl

/-- Whichever matching pair is deleted from the text of a formula, what is left over is
read as another sentence. -/
theorem Registry.exists_parse_of_delete (hr : ∀ v ∈ f.atoms, r.Issued v)
    (hstyle : style.Padded) (htext : f.render style = left ++ "(" ++ inner ++ ")" ++ right)
    (hinner : Matched inner.toList) :
    ∃ s : Sentence, r.parse (left ++ inner ++ right) = (.ok s, r) ∧ s.symbols ≠ f.symbols := by
  have htokens : f.tokens =
      r.tokensOf left ++ enclose (r.tokensOf inner) ++ r.tokensOf right := by
    rw [← tokensOf_render hr hstyle, htext, tokensOf_embedded]
  obtain ⟨row, hrow, hother⟩ :=
    f.exists_toPostfix_of_delete htokens (r.balanced_tokensOf_iff.mpr hinner)
  have hatoms : (r.tokensOf (left ++ inner ++ right)).filterMap Token.atom? = f.atoms := by
    rw [← (f.derives_tokens f.rank_le_expression).filterMap_atom?, htokens]
    simp [tokensOf_append, enclose, List.filterMap_cons]
  refine ⟨⟨row⟩, ?_, hother⟩
  rw [parse_of_issued (hatoms ▸ hr), tokensOf_append, tokensOf_append, hrow]
  rfl

/-- Where more parentheses are closed than opened, those open before included, the first
one too many closes all that stands before it. -/
theorem exists_closing {chars : List Char} {depth : Nat}
    (h : depth + chars.count '(' < chars.count ')') :
    ∃ before after, chars = before ++ ')' :: after ∧
      (∀ head, head <+: before → head.count ')' ≤ depth + head.count '(') ∧
      before.count ')' = depth + before.count '(' := by
  induction chars generalizing depth with
  | nil => exact absurd h (Nat.not_lt_zero _)
  | cons c rest ih =>
      have hcons : ∀ (x : Char) (l : List Char), (c :: l).count x = [c].count x + l.count x := by
        intro x l
        rw [← List.count_append]
        rfl
      by_cases hlast : c = ')' ∧ depth = 0
      · obtain ⟨rfl, rfl⟩ := hlast
        refine ⟨[], rest, rfl, ?_, rfl⟩
        intro head hhead
        rw [List.prefix_nil.mp hhead]
        exact Nat.zero_le _
      -- any other character leaves a depth at which the rest still closes one too many
      · have hle : [c].count ')' ≤ depth + [c].count '(' := by
          by_cases hclosing : c = ')'
          · have hopen : depth ≠ 0 := fun hzero => hlast ⟨hclosing, hzero⟩
            have hone : [c].count ')' = 1 := by rw [hclosing, List.count_singleton_self]
            omega
          · rw [List.count_eq_zero_of_not_mem (by simpa using Ne.symm hclosing)]
            exact Nat.zero_le _
        obtain ⟨next, hnext⟩ := Nat.exists_eq_add_of_le hle
        rw [hcons '(' rest, hcons ')' rest] at h
        obtain ⟨before, after, rfl, hnever, hequal⟩ := @ih next (by omega)
        refine ⟨c :: before, after, rfl, ?_, ?_⟩
        · intro head hhead
          obtain rfl | ⟨shorter, rfl, hshorter⟩ := List.prefix_cons_iff.mp hhead
          · exact Nat.zero_le _
          · have hdepth := hnever shorter hshorter
            rw [hcons ')' shorter, hcons '(' shorter]
            omega
        · rw [hcons ')' before, hcons '(' before]
          omega

/-- Each parenthesis that is opened in a text whose parentheses match belongs to a pair. -/
theorem Matched.exists_pair (h : Matched text.toList) (htext : text = left ++ "(" ++ right) :
    ∃ inner after : String, right = inner ++ ")" ++ after ∧ Matched inner.toList := by
  obtain ⟨hnever, hequal⟩ := h
  have hchars : text.toList = left.toList ++ '(' :: right.toList := by
    rw [htext]
    simp
  have hleft := hnever left.toList (hchars ▸ List.prefix_append _ _)
  rw [hchars] at hequal
  have hopen : 0 + right.toList.count '(' < right.toList.count ')' := by
    simp at hequal
    omega
  obtain ⟨before, after, hsplit, hdepth, hcount⟩ := exists_closing hopen
  refine ⟨String.ofList before, String.ofList after, ?_, ?_⟩
  · apply String.toList_inj.mp
    simp [hsplit]
  · simpa [Matched] using And.intro hdepth hcount

/-- In the text of a formula, written in signs, every parenthesis that is opened belongs to
a matching pair, and without this pair the text is read as another sentence. -/
theorem reading_of_deleted_parentheses {r : Registry} {f : Formula Variable}
    (hr : ∀ v ∈ f.atoms, r.Issued v) :
    ∃ text, (Sentence.mk f.symbols).render .signs = .ok text ∧
      (∀ left rest : String, text = left ++ "(" ++ rest →
        ∃ inner right : String, rest = inner ++ ")" ++ right ∧ Matched inner.toList) ∧
      ∀ left inner right : String, text = left ++ "(" ++ inner ++ ")" ++ right →
        Matched inner.toList →
          ∃ s : Sentence, r.parse (left ++ inner ++ right) = (.ok s, r) ∧
            s.symbols ≠ f.symbols := by
  have hrender : (Sentence.mk f.symbols).render .signs = .ok (f.render .signs) := by
    rw [Sentence.render, Sentence.formula, Formula.ofSymbols_symbols]
    rfl
  have hmatched : Matched (f.render .signs).toList := by
    rw [← r.balanced_tokensOf_iff, Registry.tokensOf_render hr Style.signs_padded]
    exact exists_toPostfix_iff.mp ⟨_, (f.derives_tokens f.rank_le_expression).toPostfix_eq⟩
  refine ⟨f.render .signs, hrender, fun left rest htext => hmatched.exists_pair htext, ?_⟩
  intro left inner right htext hinner
  exact Registry.exists_parse_of_delete hr Style.signs_padded htext hinner

/-- The outer pair of two keeps the right operand of a conjunction together; all atoms are
the same. -/
theorem reading_without_outer_pair :
    let v : Variable := ⟨'é', 128⟩
    let r : Registry := Registry.empty.enroll 'é'
    let f : Formula Variable :=
      .conj (.atom v) (.conj (.atom v) (.neg (.disj (.atom v) (.atom v))))
    (∀ u ∈ f.atoms, r.Issued u) ∧
      (Sentence.mk f.symbols).render .signs = .ok "é & (é & ~(é | é))" ∧
      Matched "é & ~(é | é)".toList ∧
      ∃ s : Sentence, r.parse "é & é & ~(é | é)" = (.ok s, r) ∧ s.symbols ≠ f.symbols := by
  intro v r f
  have hissued : ∀ u ∈ f.atoms, r.Issued u := by
    have hv : r.Issued v := Registry.empty.issued_enroll_self (by decide)
    change ∀ u ∈ [v, v, v, v], r.Issued u
    simp [hv]
  have hrender : (Sentence.mk f.symbols).render .signs = .ok "é & (é & ~(é | é))" := by
    decide +kernel
  have hinner : Matched "é & ~(é | é)".toList := by
    rw [← r.balanced_tokensOf_iff, ← exists_toPostfix_iff]
    exact ⟨[.atom v, .atom v, .atom v, .connective .disjunction, .connective .negation,
      .connective .conjunction], by decide +kernel⟩
  obtain ⟨text, htext, _, hdeleted⟩ := reading_of_deleted_parentheses hissued
  obtain rfl := Except.ok.inj (htext.symm.trans hrender)
  exact ⟨hissued, hrender, hinner,
    hdeleted "é & " "é & ~(é | é)" "" (by decide +kernel) hinner⟩

end Text

end Sentential
