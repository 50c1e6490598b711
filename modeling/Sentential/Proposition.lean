/-
Propositions: a variable by itself or a sentence.  The queries run through the
assignments of the distinct variables in order and stop at the first error.
-/
import Sentential.Enumeration
import Sentential.Sentence

namespace Sentential

/-- What can be evaluated under assignments. -/
inductive Proposition where
  | atom (v : Variable)
  | sentence (s : Sentence)
deriving DecidableEq, Repr

/-- Semantic properties. -/
structure Properties where
  /-- True under every assignment. -/
  valid : Bool
  /-- True under some assignment. -/
  satisfiable : Bool
  /-- True under some assignment and false under another. -/
  contingent : Bool
deriving DecidableEq, Repr

/-- The properties that outcomes show. -/
def Properties.ofOutcomes (outcomes : List Bool) : Properties :=
  let valid := outcomes.all id
  let satisfiable := outcomes.any id
  { valid, satisfiable, contingent := satisfiable && !valid }

namespace Proposition

/-- The distinct variables in order of first occurrence. -/
def vocabulary : Proposition → Vocabulary
  | atom v => .ofList [v]
  | sentence s => s.vocabulary

/-- The truth value under an assignment of just the variables of the
proposition. -/
def evaluate (p : Proposition) (a : Assignment) : Except EvaluationError Bool :=
  match p with
  | atom v => do
      a.requireWithin (.ofList [v])
      a.value v
  | sentence s => s.evaluate a

/-- The assignments of the distinct variables. -/
def assignments (p : Proposition) : Except EvaluationError Enumeration :=
  Enumeration.ofVocabulary p.vocabulary

/-- The value under each assignment, in order. -/
def outcomes (p : Proposition) : Except EvaluationError (List Bool) := do
  let e ← p.assignments
  e.filterMapM fun a => return some (← p.evaluate a)

/-- Each assignment with its value, in order. -/
def truthTable (p : Proposition) : Except EvaluationError (List (Assignment × Bool)) := do
  let e ← p.assignments
  e.filterMapM fun a => return some (a, ← p.evaluate a)

/-- The assignments that make the proposition true, in order. -/
def satisfying (p : Proposition) : Except EvaluationError (List Assignment) := do
  let e ← p.assignments
  e.filterMapM fun a => return if ← p.evaluate a then some a else none

/-- The semantic properties. -/
def properties (p : Proposition) : Except EvaluationError Properties :=
  p.outcomes.map .ofOutcomes

/-- Whether every assignment makes the proposition true. -/
def valid (p : Proposition) : Except EvaluationError Bool :=
  p.properties.map Properties.valid

/-- Whether some assignment makes the proposition true. -/
def satisfiable (p : Proposition) : Except EvaluationError Bool :=
  p.properties.map Properties.satisfiable

/-- Whether some assignment makes the proposition true and another false. -/
def contingent (p : Proposition) : Except EvaluationError Bool :=
  p.properties.map Properties.contingent

end Proposition

end Sentential
