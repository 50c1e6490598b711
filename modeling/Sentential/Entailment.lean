/-
Entailment and equivalence of propositions, one of which has all variables of
the other.  A premise entails a conclusion if the conclusion is true wherever
the premise is; the first assignment of the premise that shows otherwise is the
counterexample.
-/
import Sentential.Proposition
import Sentential.Verdict

namespace Sentential

/-- How the variables of a conclusion relate to those of its premise. -/
inductive Scope where
  /-- They are the same. -/
  | same
  /-- The conclusion has these in addition. -/
  | wider (extra : Vocabulary)
  /-- The conclusion has only these. -/
  | narrower (shared : VariableSet)
deriving DecidableEq

namespace Scope

/-- The scope of a conclusion, when one vocabulary includes the other. -/
def between (premise conclusion : Vocabulary) : Except EvaluationError Scope :=
  let left := premise.toSet
  let right := conclusion.toSet
  if premise.size = conclusion.size ∧ left = right then .ok .same
  else if premise.size < conclusion.size ∧ left ⊆ right then
    .ok (.wider (conclusion.without left))
  else if conclusion.size < premise.size ∧ right ⊆ left then .ok (.narrower right)
  else .error .incompatibleVariableSets

/-- Whether a conclusion is true under an assignment of the premise, whatever
the variables that only the conclusion has. -/
def concludes (scope : Scope) (conclusion : Proposition) (a : Assignment) :
    Except EvaluationError Bool :=
  match scope with
  | same => conclusion.evaluate a
  | wider extra => do
      let extensions ← Enumeration.ofVocabulary extra
      let failing ← extensions.findM? fun extension => do
        return !(← conclusion.evaluate (a.override extension))
      return failing.isNone
  | narrower shared => conclusion.evaluate (a.restrict shared)

end Scope

/-- A verdict with the counterexamples that were met. -/
structure Comparison where
  verdict : Verdict
  counterexamples : List Assignment
deriving DecidableEq

namespace Comparison

/-- A comparison that fails if there is a counterexample. -/
def ofCounterexample? : Option Assignment → Comparison
  | none => ⟨.holds, []⟩
  | some a => ⟨.fails, [a]⟩

/-- Two comparisons together. -/
def and (left right : Comparison) : Comparison :=
  ⟨left.verdict.and right.verdict, left.counterexamples ++ right.counterexamples⟩

/-- A line for each counterexample. -/
def trace (c : Comparison) : List String :=
  c.counterexamples.map fun a => "counter-example: " ++ toString a

theorem trace_and (left right : Comparison) :
    (left.and right).trace = left.trace ++ right.trace :=
  List.map_append

end Comparison

namespace Proposition

/-- The first assignment that makes a premise true and does not make the
conclusion true. -/
def counterexample? (premise conclusion : Proposition) :
    Except EvaluationError (Option Assignment) := do
  let scope ← Scope.between premise.vocabulary conclusion.vocabulary
  let satisfying ← premise.satisfying
  satisfying.findM? fun a => do
    return !(← scope.concludes conclusion a)

/-- Whether a conclusion is true wherever its premise is. -/
def entails (premise conclusion : Proposition) : Except EvaluationError Comparison :=
  (counterexample? premise conclusion).map .ofCounterexample?

/-- Whether two propositions entail each other.  Both entailments are decided,
the first one first.  An error in the second is all there is to the answer: a
counterexample to the first is left out. -/
def equivalent (left right : Proposition) : Except EvaluationError Comparison := do
  let forth ← entails left right
  let back ← entails right left
  return forth.and back

end Proposition

end Sentential
