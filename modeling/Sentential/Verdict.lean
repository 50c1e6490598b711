/-
Verdicts on a comparison, one of which leaves the question open.
-/

namespace Sentential

/-- The answer to a question that may stay open. -/
inductive Verdict where
  | holds
  | fails
  | undetermined
deriving DecidableEq, Repr

namespace Verdict

/-- Whether both hold; open if either is open. -/
def and : Verdict → Verdict → Verdict
  | undetermined, _ | _, undetermined => undetermined
  | holds, holds => holds
  | _, _ => fails

def ofBool : Bool → Verdict
  | true => holds
  | false => fails

/-- The answer as a truth value, unless it is open. -/
def toBool? : Verdict → Option Bool
  | holds => some true
  | fails => some false
  | undetermined => none

instance : ToString Verdict where
  toString
    | holds => "True"
    | fails => "False"
    | undetermined => "Undetermined"

theorem ofBool_eq_holds_iff {b : Bool} : ofBool b = holds ↔ b = true := by
  cases b <;> decide

theorem ofBool_and (left right : Bool) :
    (ofBool left).and (ofBool right) = ofBool (left && right) := by
  cases left <;> cases right <;> rfl

end Verdict

end Sentential
