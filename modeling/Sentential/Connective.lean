/-
The three connectives, with the sign that denotes each in a text and the
precedence that orders them there: a lower rank binds tighter.
-/

namespace Sentential

/-- The connectives of propositional logic used in sentences. -/
inductive Connective where
  | negation
  | conjunction
  | disjunction
deriving DecidableEq, Repr

/-- Which of two neighbouring operators of one rank takes the operand between
them. -/
inductive Associativity where
  | left
  | right
deriving DecidableEq, Repr

namespace Connective

/-- All connectives, from the tightest to the loosest binding. -/
def all : List Connective := [negation, conjunction, disjunction]

/-- The character that denotes a connective. -/
def sign : Connective → Char
  | negation => '~'
  | conjunction => '&'
  | disjunction => '|'

/-- The connective denoted by a character. -/
def ofSign? (c : Char) : Option Connective :=
  all.find? fun connective => connective.sign == c

/-- Precedence: negation binds tightest, then conjunction, then disjunction. -/
def rank : Connective → Nat
  | negation => 0
  | conjunction => 1
  | disjunction => 2

/-- The number of operands. -/
def arity : Connective → Nat
  | negation => 1
  | conjunction | disjunction => 2

/-- Negation stands before its operand and groups to the right, the binary
connectives group to the left. -/
def associativity : Connective → Associativity
  | negation => .right
  | conjunction | disjunction => .left

/-- Whether an earlier connective, still waiting for its last operand, has all
of its operands once this one is met. -/
def yieldsTo (c earlier : Connective) : Bool :=
  match c.associativity with
  | .left => earlier.rank ≤ c.rank
  | .right => earlier.rank < c.rank

instance : ToString Connective where
  toString c := c.sign.toString

theorem ofSign?_eq_some_iff {c : Char} {connective : Connective} :
    ofSign? c = some connective ↔ connective.sign = c := by
  simp only [ofSign?, all, List.find?_cons, List.find?_nil]
  constructor
  · intro h
    repeat' split at h
    all_goals simp_all
  · rintro rfl
    cases connective <;> rfl

end Connective

end Sentential
