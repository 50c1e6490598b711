/-
When a comparison is refused.  The questions that decide an entailment are asked in a
fixed order, and the first one that settles it gives the answer: whether the variables
can be compared, whether the premise can be enumerated and has values, whether anything
satisfies it, and only then the same about the conclusion.  Since every assignment is
adapted to just the variables of the conclusion, none is ever found to lack a variable
or to have one too many.
-/
import Sentential.Proofs.Answers
import Sentential.Proofs.Fragments

namespace Sentential

namespace Proposition

variable {p q : Proposition} {f g : Formula Variable}

/-- A variable by itself, or a sentence whose symbols list a formula. -/
def WellFormed : Proposition → Prop
  | atom _ => True
  | sentence s => s.WellFormed

/-- One of two propositions has all variables of the other. -/
def Comparable (p q : Proposition) : Prop :=
  p.vocabulary.toSet ⊆ q.vocabulary.toSet ∨ q.vocabulary.toSet ⊆ p.vocabulary.toSet

instance (p q : Proposition) : Decidable (Comparable p q) :=
  inferInstanceAs (Decidable (_ ∨ _))

/-- Some assignment of just its variables makes a proposition true. -/
def Satisfied (p : Proposition) : Prop :=
  ∃ a : Assignment, a.Over p.vocabulary ∧ p.evaluate a = .ok true

/-- A conclusion is true under every valuation under which the premise is. -/
def Follows (premise conclusion : Proposition) : Prop :=
  ∀ ν : Variable → Bool, premise.evaluate (premise.vocabulary.assign ν) = .ok true →
    conclusion.evaluate (conclusion.vocabulary.assign ν) = .ok true

theorem wellFormed_iff_exists_expresses : p.WellFormed ↔ ∃ f, p.Expresses f := by
  cases p with
  | atom v => exact ⟨fun _ => ⟨.atom v, rfl⟩, fun _ => trivial⟩
  | sentence s => exact exists_congr fun f => eq_comm

theorem Expresses.wellFormed (hf : p.Expresses f) : p.WellFormed :=
  wellFormed_iff_exists_expresses.mpr ⟨f, hf⟩

theorem not_wellFormed_of_forall_not_expresses (hnone : ∀ f, ¬ p.Expresses f) :
    ¬ p.WellFormed :=
  fun hp => not_exists.mpr hnone (wellFormed_iff_exists_expresses.mp hp)

theorem Expresses.evaluate_assign (hf : p.Expresses f) (ν : Variable → Bool) :
    p.evaluate (p.vocabulary.assign ν) = .ok (f.eval ν) := by
  rw [hf.evaluate_eq Vocabulary.domain_assign, hf.eval_read_assign]

theorem Expresses.satisfied_iff (hf : p.Expresses f) :
    p.Satisfied ↔ ∃ ν : Variable → Bool, f.eval ν = true := by
  constructor
  · rintro ⟨a, ha, hvalue⟩
    rw [hf.evaluate_eq (Assignment.over_iff_domain_eq.mp ha)] at hvalue
    exact ⟨a.read, Except.ok.inj hvalue⟩
  · rintro ⟨ν, hν⟩
    refine ⟨p.vocabulary.assign ν, Assignment.over_iff_domain_eq.mpr Vocabulary.domain_assign, ?_⟩
    rw [hf.evaluate_assign, hν]

theorem Expresses.follows_iff (hf : p.Expresses f) (hg : q.Expresses g) :
    p.Follows q ↔ ∀ ν : Variable → Bool, f.eval ν = true → g.eval ν = true := by
  apply forall_congr'
  intro ν
  rw [hf.evaluate_assign, hg.evaluate_assign, Except.ok.injEq, Except.ok.injEq]

open Classical in
/-- The answer to whether one proposition entails another, by the first question that
settles it. -/
noncomputable def settled (p q : Proposition) : Except EvaluationError Verdict :=
  if ¬ Comparable p q then .error .incompatibleVariableSets
  else if 64 ≤ p.vocabulary.size then .error (.tooManyVariables p.vocabulary.size)
  else if ¬ p.WellFormed then .error .malformedExpression
  else if ¬ p.Satisfied then .ok .holds
  else if 64 ≤ (q.vocabulary.without p.vocabulary.toSet).size then
    .error (.tooManyVariables (q.vocabulary.without p.vocabulary.toSet).size)
  else if ¬ q.WellFormed then .error .malformedExpression
  else .ok (.ofBool (decide (p.Follows q)))

theorem verdict_entails_eq_settled (p q : Proposition) :
    (p.entails q).map Comparison.verdict = settled p q := by
  classical
  rw [verdict_entails_eq_rowVerdict]
  simp only [rowVerdict, settled, ← size_vocabulary, ← size_without_vocabulary,
    ← toSet_vocabulary_subset_iff, ite_not, ← not_lt (b := 64)]
  obtain ⟨f, hf, hlisted⟩ | ⟨hnone, hlisted⟩ := p.cases_of_symbols
  swap
  · rw [if_neg (not_wellFormed_of_forall_not_expresses hnone), hlisted]
    rfl
  rw [if_pos hf.wellFormed, hlisted, hf.satisfied_iff]
  obtain ⟨g, hg, hconclusion⟩ | ⟨hnone, hconclusion⟩ := q.cases_of_symbols
  · simp only [if_pos hg.wellFormed, hconclusion, hf.follows_iff hg]
    rfl
  · simp only [if_neg (not_wellFormed_of_forall_not_expresses hnone), hconclusion]
    rfl

theorem settled_eq_incompatible_iff :
    settled p q = .error .incompatibleVariableSets ↔ ¬ Comparable p q := by
  constructor
  · intro h hsets
    rw [settled, if_neg (not_not_intro hsets)] at h
    split_ifs at h
    all_goals cases h
  · intro hsets
    rw [settled, if_pos hsets]

end Proposition

/-- A cause other than a variable without a value or with one too many. -/
def EvaluationError.SparesVariables : EvaluationError → Prop
  | .undefinedVariable _ | .unexpectedVariable _ => False
  | .malformedExpression | .incompatibleVariableSets | .tooManyVariables _ => True

namespace Proposition

variable {p q : Proposition} {failure : EvaluationError}

theorem sparesVariables_of_settled (h : settled p q = .error failure) :
    failure.SparesVariables := by
  unfold settled at h
  split_ifs at h
  all_goals
    cases h
    trivial

theorem sparesVariables_of_entails (h : p.entails q = .error failure) :
    failure.SparesVariables := by
  apply sparesVariables_of_settled (p := p) (q := q)
  rw [← verdict_entails_eq_settled, h]
  rfl

/-- Both entailments are decided, so the comparison is refused as one of them is. -/
theorem sparesVariables_of_equivalent (h : p.equivalent q = .error failure) :
    failure.SparesVariables := by
  unfold equivalent at h
  cases hforth : p.entails q with
  | error first =>
      rw [hforth] at h
      cases h
      exact sparesVariables_of_entails hforth
  | ok forth =>
      rw [hforth] at h
      cases hback : q.entails p with
      | error second =>
          rw [hback] at h
          cases h
          exact sparesVariables_of_entails hback
      | ok back =>
          rw [hback] at h
          cases h

/-- The first question that settles an entailment gives its answer, and only variables
that cannot be compared are refused as incompatible.  No comparison complains about the
value of a variable. -/
theorem entails_settled (p q : Proposition) :
    (p.entails q).map Comparison.verdict = settled p q ∧
      ((p.entails q).map Comparison.verdict = .error .incompatibleVariableSets ↔
        ¬ Comparable p q) ∧
      ∀ v : Variable,
        p.entails q ≠ .error (.undefinedVariable v) ∧
          p.entails q ≠ .error (.unexpectedVariable v) ∧
          p.equivalent q ≠ .error (.undefinedVariable v) ∧
          p.equivalent q ≠ .error (.unexpectedVariable v) := by
  have hverdict := verdict_entails_eq_settled p q
  refine ⟨hverdict, ?_, fun v => ⟨?_, ?_, ?_, ?_⟩⟩
  · rw [hverdict]
    exact settled_eq_incompatible_iff
  · exact sparesVariables_of_entails
  · exact sparesVariables_of_entails
  · exact sparesVariables_of_equivalent
  · exact sparesVariables_of_equivalent

/-- A premise that nothing satisfies entails a connective without operands. -/
example :
    let a : Variable := ⟨'a', 97⟩
    let premise : Proposition := .sentence ⟨(Formula.conj (.atom a) (.neg (.atom a))).symbols⟩
    (premise.entails (.sentence ⟨[.connective .conjunction]⟩)).map Comparison.verdict =
      .ok .holds := by
  decide +kernel

end Proposition

end Sentential
