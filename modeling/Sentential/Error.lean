/-
What can go wrong.  Reading a text fails with a `ReadError`, evaluating or
comparing propositions with an `EvaluationError`; `message` is the wording of
each cause.
-/
import Sentential.Variable.Basic

namespace Sentential

/-- Why a text is not a sentence, a variable or an assignment. -/
inductive ReadError where
  /-- A closing parenthesis without its opening one, or the other way round. -/
  | mismatchedParenthesis
  /-- The text does not name a variable. -/
  | invalidInput (text : String)
  /-- The text does not describe an assignment. -/
  | invalidAssignment (text : String)
deriving DecidableEq, Repr

/-- Why a proposition has no value, or two propositions cannot be compared. -/
inductive EvaluationError where
  /-- The assignment gives no value to a variable of the proposition. -/
  | undefinedVariable (v : Variable)
  /-- The assignment gives a value to a variable that the proposition does not
  use. -/
  | unexpectedVariable (v : Variable)
  /-- The symbols do not reduce to a single value. -/
  | malformedExpression
  /-- Neither set of variables includes the other. -/
  | incompatibleVariableSets
  /-- So many variables have more assignments than a word can count. -/
  | tooManyVariables (count : Nat)
deriving DecidableEq, Repr

/-- The wording of a reading error. -/
def ReadError.message : ReadError → String
  | .mismatchedParenthesis => "Mismatched parenthesis"
  | .invalidInput text => "Unrecognized input: " ++ text
  | .invalidAssignment text => "The assignment '" ++ text ++ "' is invalid"

/-- The wording of an evaluation error. -/
def EvaluationError.message : EvaluationError → String
  | .undefinedVariable v => "There is no value for the variable '" ++ toString v ++ "'"
  | .unexpectedVariable v =>
      "The variable '" ++ toString v ++ "' is not used in this sentence"
  | .malformedExpression => "Not a well-formed expression"
  | .incompatibleVariableSets =>
      "The variables of one sentence must include the variables of the other"
  | .tooManyVariables count =>
      "Can not enumerate the assignments of " ++ toString count ++ " variables"

variable {ε α β : Type}

/-- Two steps in a row succeed if the first does and the second does from its
result. -/
theorem bind_eq_ok_iff {x : Except ε α} {f : α → Except ε β} {b : β} :
    x >>= f = .ok b ↔ ∃ a, x = .ok a ∧ f a = .ok b := by
  cases x with
  | error e => exact ⟨nofun, nofun⟩
  | ok a =>
      constructor
      · intro h
        exact ⟨a, rfl, h⟩
      · rintro ⟨_, ha, h⟩
        cases ha
        exact h

theorem map_eq_ok_iff {x : Except ε α} {f : α → β} {b : β} :
    x.map f = .ok b ↔ ∃ a, x = .ok a ∧ f a = b := by
  cases x with
  | error e => exact ⟨nofun, nofun⟩
  | ok a => simp [Except.map]

theorem map_eq_error_iff {x : Except ε α} {f : α → β} {e : ε} :
    x.map f = .error e ↔ x = .error e := by
  cases x with
  | error failure => simp [Except.map]
  | ok a => exact ⟨nofun, nofun⟩

end Sentential
