/-
Writing in one pass.  A sentence can be written while its symbols are read, over a stack
of fragments that keep their text and the connective at their root.  Nothing more of
the formula has to be known to place the parentheses, so the pass writes the formula
that the symbols list, and it fails just where an evaluation fails.
-/
import Sentential.Proofs.Malformed

namespace Sentential

variable {α : Type}

/-- A written part of a sentence. -/
structure Fragment where
  text : List Char
  /-- The connective that joined the part last; an atom has none. -/
  root : Option Connective
deriving DecidableEq, Repr

namespace Fragment

/-- The text between parentheses. -/
def enclosed (x : Fragment) : List Char := '(' :: x.text ++ [')']

/-- Whether a root binds too loosely for an operand of a binary connective: a `strict`
operand has to bind tighter than the connective, any other at least as tight. -/
def tooLoose (c : Connective) (strict : Bool) : Option Connective → Bool
  | none | some .negation => false
  | some root => if strict then c.rank ≤ root.rank else c.rank < root.rank

/-- The text as an operand of a binary connective. -/
def operand (c : Connective) (strict : Bool) (x : Fragment) : List Char :=
  if tooLoose c strict x.root then x.enclosed else x.text

/-- The text as the operand of a negation. -/
def negated (x : Fragment) : List Char :=
  match x.root with
  | some .conjunction | some .disjunction => x.enclosed
  | none | some .negation => x.text

end Fragment

/-- The connective at the root of a formula. -/
def Formula.root : Formula α → Option Connective
  | atom _ => none
  | neg _ => some .negation
  | conj _ _ => some .conjunction
  | disj _ _ => some .disjunction

theorem Fragment.tooLoose_root_left {c : Connective} {f : Formula α} :
    tooLoose c false f.root = true ↔ ¬ f.rank ≤ c.rank := by
  cases f <;> cases c <;> simp [tooLoose, Formula.root, Formula.rank, Connective.rank]

theorem Fragment.tooLoose_root_right {c : Connective} {f : Formula α} (hc : 0 < c.rank) :
    tooLoose c true f.root = true ↔ ¬ f.rank < c.rank := by
  cases f <;> cases c <;> simp_all [tooLoose, Formula.root, Formula.rank, Connective.rank]

namespace Style

/-- Two fragments joined by a binary connective. -/
def join (style : Style) (c : Connective) (left right : Fragment) : Fragment :=
  ⟨left.operand c false ++ (style.spell c).toList ++ right.operand c true, some c⟩

/-- Symbols as fragments. -/
def fragments (style : Style) : Interpretation Variable Fragment where
  atom v := .ok ⟨[v.name], none⟩
  negation x := ⟨(style.spell .negation).toList ++ x.negated, some .negation⟩
  conjunction := style.join .conjunction
  disjunction := style.join .disjunction

/-- The fragment that a formula over names is written as. -/
def fragmentOf (style : Style) (f : Formula Char) : Fragment :=
  ⟨style.write f.tokens, f.root⟩

theorem write_enclose (style : Style) (tokens : List (Token Char)) :
    style.write (enclose tokens) = '(' :: style.write tokens ++ [')'] := by
  simp [write, enclose, spellToken]

theorem write_cons (style : Style) (t : Token Char) (tokens : List (Token Char)) :
    style.write (t :: tokens) = style.spellToken t ++ style.write tokens :=
  rfl

/-- The root of a fragment tells which operands of a binary connective are enclosed. -/
theorem join_fragmentOf (style : Style) {c : Connective} (hc : 0 < c.rank)
    (l r : Formula Char) :
    style.join c (style.fragmentOf l) (style.fragmentOf r) =
      ⟨style.write ((if l.rank ≤ c.rank then l.tokens else enclose l.tokens) ++
        .symbol (.connective c) ::
          (if r.rank < c.rank then r.tokens else enclose r.tokens)), some c⟩ := by
  have hleft : (style.fragmentOf l).operand c false =
      style.write (if l.rank ≤ c.rank then l.tokens else enclose l.tokens) := by
    rw [Fragment.operand, fragmentOf, apply_ite style.write, write_enclose]
    simp only [Fragment.tooLoose_root_left, ite_not]
    rfl
  have hright : (style.fragmentOf r).operand c true =
      style.write (if r.rank < c.rank then r.tokens else enclose r.tokens) := by
    rw [Fragment.operand, fragmentOf, apply_ite style.write, write_enclose]
    simp only [Fragment.tooLoose_root_right hc, ite_not]
    rfl
  rw [join, hleft, hright, write_append, write_cons, List.append_assoc]
  rfl

/-- So it does for the operand of a negation. -/
theorem negated_fragmentOf (style : Style) (f : Formula Char) :
    (style.fragmentOf f).negated =
      style.write (if f.rank ≤ Connective.negation.rank then f.tokens else enclose f.tokens) := by
  cases f with
  | atom a => rfl
  | neg f => rfl
  | conj l r => exact (style.write_enclose _).symm
  | disj l r => exact (style.write_enclose _).symm

/-- The fragment of a row of symbols is that of the formula the row lists. -/
theorem ofFormula_fragments (style : Style) (f : Formula Variable) :
    style.fragments.ofFormula f = .ok (style.fragmentOf (f.map Variable.name)) := by
  induction f with
  | atom v => rfl
  | neg f ih =>
      have hnegated := style.negated_fragmentOf (f.map Variable.name)
      rw [Interpretation.ofFormula, ih]
      change Except.ok (Fragment.mk (_ ++ (style.fragmentOf _).negated) _) = _
      rw [hnegated]
      rfl
  | conj l r ihl ihr =>
      rw [Interpretation.ofFormula, ihl, ihr]
      exact congrArg Except.ok (style.join_fragmentOf (c := .conjunction) (by decide) _ _)
  | disj l r ihl ihr =>
      rw [Interpretation.ofFormula, ihl, ihr]
      exact congrArg Except.ok (style.join_fragmentOf (c := .disjunction) (by decide) _ _)

end Style

/-- The variables that have a value are just those of a vocabulary. -/
def Assignment.Over (a : Assignment) (l : Vocabulary) : Prop :=
  ∀ v, (a.get? v).isSome = true ↔ v ∈ l

theorem Assignment.over_iff_domain_eq {a : Assignment} {l : Vocabulary} :
    a.Over l ↔ a.domain = l.toSet := by
  rw [VariableSet.ext_iff]
  simp only [Over, mem_domain, Vocabulary.mem_toSet]

namespace Sentence

variable {s : Sentence} {style : Style}

/-- The symbols list a formula. -/
def WellFormed (s : Sentence) : Prop := ∃ f : Formula Variable, f.symbols = s.symbols

/-- A sentence is written in one pass over its symbols. -/
theorem render_eq_value_fragments (s : Sentence) (style : Style) :
    s.render style = (style.fragments.value s.symbols).map fun x => String.ofList x.text := by
  have hcovers : style.fragments.Covers s.symbols := fun v _ => ⟨_, rfl⟩
  rw [hcovers.value_eq, render, formula]
  cases Formula.ofSymbols s.symbols with
  | error e => rfl
  | ok f =>
      change _ = Except.map _ (style.fragments.ofFormula f)
      rw [style.ofFormula_fragments]
      rfl

theorem exists_render_iff : (∃ text, s.render style = .ok text) ↔ s.WellFormed := by
  rw [WellFormed, ← Formula.exists_ofSymbols_iff, render, formula]
  cases Formula.ofSymbols s.symbols with
  | error e => exact ⟨nofun, nofun⟩
  | ok f => exact ⟨fun _ => ⟨f, rfl⟩, fun _ => ⟨_, rfl⟩⟩

theorem exists_evaluate_iff {a : Assignment} (ha : a.Over s.vocabulary) :
    (∃ b, s.evaluate a = .ok b) ↔ s.WellFormed := by
  have hvalue : s.evaluate a = _ :=
    Proposition.evaluate_eq (p := .sentence s) (Assignment.over_iff_domain_eq.mp ha)
  rw [WellFormed, ← Formula.exists_ofSymbols_iff, hvalue]
  change (∃ b, Except.map _ (Formula.ofSymbols s.symbols) = _) ↔ _
  cases Formula.ofSymbols s.symbols with
  | error e => exact ⟨nofun, nofun⟩
  | ok f => exact ⟨fun _ => ⟨f, rfl⟩, fun _ => ⟨_, rfl⟩⟩

theorem not_expresses_of_not_wellFormed (hs : ¬ s.WellFormed) (f : Formula Variable) :
    ¬ (Proposition.sentence s).Expresses f :=
  fun hf => hs ⟨f, Proposition.expresses_iff.mp hf⟩

theorem exists_outcomes_iff (hsize : s.vocabulary.size < positionBits) :
    (∃ outcomes, (Proposition.sentence s).outcomes = .ok outcomes) ↔ s.WellFormed := by
  constructor
  · rintro ⟨outcomes, houtcomes⟩
    by_contra hs
    rw [Proposition.outcomes_eq_malformed (not_expresses_of_not_wellFormed hs) hsize] at houtcomes
    cases houtcomes
  · rintro ⟨f, hf⟩
    have hs : (Proposition.sentence s).Expresses f := Proposition.expresses_iff.mpr hf
    exact ⟨_, hs.outcomes_eq hsize⟩

/-- A sentence can be written, in any style, just when it has a value under some
assignment of just its variables, just when it has one under all of them, and just when
it lists a formula; it is malformed for both otherwise.  With fewer than 64 variables
its outcomes exist just then. -/
theorem written_iff_evaluated (s : Sentence) (style : Style) :
    ((∃ text, s.render style = .ok text) ↔
        ∃ a : Assignment, a.Over s.vocabulary ∧ ∃ b, s.evaluate a = .ok b) ∧
      ((∃ text, s.render style = .ok text) ↔
        ∀ a : Assignment, a.Over s.vocabulary → ∃ b, s.evaluate a = .ok b) ∧
      ((∃ text, s.render style = .ok text) ↔ s.WellFormed) ∧
      (¬ s.WellFormed → s.render style = .error .malformedExpression ∧
        ∀ a : Assignment, a.Over s.vocabulary → s.evaluate a = .error .malformedExpression) ∧
      (s.vocabulary.size < 64 →
        ((∃ outcomes, (Proposition.sentence s).outcomes = .ok outcomes) ↔ s.WellFormed)) ∧
      s.render style = (style.fragments.value s.symbols).map fun x => String.ofList x.text := by
  have hover : (s.vocabulary.assign fun _ => false).Over s.vocabulary :=
    Assignment.over_iff_domain_eq.mpr Vocabulary.domain_assign
  refine ⟨?_, ?_, exists_render_iff, ?_, exists_outcomes_iff,
    render_eq_value_fragments s style⟩
  · rw [exists_render_iff]
    constructor
    · exact fun hs => ⟨_, hover, (exists_evaluate_iff hover).mpr hs⟩
    · rintro ⟨a, ha, hvalue⟩
      exact (exists_evaluate_iff ha).mp hvalue
  · rw [exists_render_iff]
    constructor
    · exact fun hs a ha => (exists_evaluate_iff ha).mpr hs
    · exact fun hall => (exists_evaluate_iff hover).mp (hall _ hover)
  · intro hs
    have hlisted : Formula.ofSymbols s.symbols = .error .malformedExpression :=
      Formula.ofSymbols_eq_error_iff.mpr ⟨fun f hf => hs ⟨f, hf⟩, rfl⟩
    refine ⟨?_, fun a ha => ?_⟩
    · rw [render, formula, hlisted]
      rfl
    · exact Proposition.evaluate_eq_malformed (not_expresses_of_not_wellFormed hs)
        (Assignment.over_iff_domain_eq.mp ha)

/-- Two values are left over: neither the words nor the truth values can be joined. -/
theorem malformed_stray_operand :
    let a : Variable := ⟨'a', 97⟩
    let b : Variable := ⟨'b', 98⟩
    let s : Sentence := ⟨[.atom b, .connective .negation, .atom a]⟩
    let values : Assignment := .ofPairs [(a, true), (b, false)]
    ¬ s.WellFormed ∧ values.Over s.vocabulary ∧ s.vocabulary.size < 64 ∧
      s.render .words = .error .malformedExpression ∧
      s.evaluate values = .error .malformedExpression ∧
      ¬ ∃ outcomes, (Proposition.sentence s).outcomes = .ok outcomes := by
  intro a b s values
  have hlisted : Formula.ofSymbols s.symbols = .error .malformedExpression := rfl
  have hs : ¬ s.WellFormed := by
    rintro ⟨f, hf⟩
    exact (Formula.ofSymbols_eq_error_iff.mp hlisted).1 f hf
  have hvalues : values.Over s.vocabulary := by
    rw [Assignment.over_iff_domain_eq]
    decide
  have hsize : s.vocabulary.size < 64 := by decide
  obtain ⟨_, _, _, hmalformed, houtcomes, _⟩ := written_iff_evaluated s .words
  obtain ⟨hrender, hevaluate⟩ := hmalformed hs
  exact ⟨hs, hvalues, hsize, hrender, hevaluate _ hvalues, (houtcomes hsize).not.mpr hs⟩

end Sentence

end Sentential
