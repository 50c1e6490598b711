/-
The registry numbers the characters used as variables.  An ASCII character has
its code point as number; every other character gets the next number from 128 on
when it is enrolled.  A number, once given, never changes: enrolling only adds
characters at the end.
-/
import Std.Data.TreeMap
import Sentential.Error
import Sentential.Text.Blank
import Sentential.Token

namespace Sentential

/-- The first number that no ASCII character has. -/
def asciiLimit : Nat := 128

/-- The enrolled characters in order of enrolment, and their numbers. -/
structure Registry where
  numbers : Std.TreeMap Char Nat := ∅
  names : Array Char := #[]

namespace Registry

/-- The registry in which no character is enrolled. -/
def empty : Registry := {}

instance : Inhabited Registry := ⟨empty⟩

/-- The number that the next enrolled character gets. -/
def nextNumber (r : Registry) : Nat := asciiLimit + r.names.size

/-- The number of a character, or the number it gets if it is enrolled next. -/
def numberOf (r : Registry) (c : Char) : Nat :=
  if c.toNat < asciiLimit then c.toNat else r.numbers.getD c r.nextNumber

/-- The variable named by a character. -/
def variableOf (r : Registry) (c : Char) : Variable := ⟨c, r.numberOf c⟩

/-- Gives a character its number.  Nothing changes for an ASCII character or one
that is enrolled already. -/
def enroll (r : Registry) (c : Char) : Registry :=
  if c.toNat < asciiLimit ∨ c ∈ r.numbers then r
  else { numbers := r.numbers.insert c r.nextNumber, names := r.names.push c }

/-- Enrolls characters from left to right. -/
def enrollAll (r : Registry) (cs : List Char) : Registry := cs.foldl enroll r

/-- The variable with a given number, if there is one. -/
def variableAt? (r : Registry) (number : Nat) : Option Variable :=
  if number < asciiLimit then some ⟨Char.ofNat number, number⟩
  else (r.names[number - asciiLimit]?).map fun name => ⟨name, number⟩

/-- The variables named by a text, reserved characters skipped. -/
def variablesOf (r : Registry) (text : List Char) : List Variable × Registry :=
  let names := text.filter fun c => ¬ Reserved c
  let r := r.enrollAll names
  (names.map r.variableOf, r)

/-- Reads one character as a variable. -/
def readChar (r : Registry) (c : Char) : Except ReadError Variable × Registry :=
  if Reserved c then (.error (.invalidInput c.toString), r)
  else (.ok (r.variableOf c), r.enroll c)

/-- The variable that is all of a text but the blanks around it.  The first
character of a longer text is enrolled although the text names no variable. -/
def trimmedVariable? (r : Registry) (text : List Char) : Option Variable × Registry :=
  match trim text with
  | [] => (none, r)
  | c :: rest =>
      if Reserved c then (none, r)
      else (if rest.isEmpty then some (r.variableOf c) else none, r.enroll c)

/-- Reads a text as a variable. -/
def readVariable (r : Registry) (text : String) : Except ReadError Variable × Registry :=
  match r.trimmedVariable? text.toList with
  | (some v, r) => (.ok v, r)
  | (none, r) => (.error (.invalidInput text), r)

/-- The tokens of a text over variables, after enrolling all of its atoms. -/
def tokenize (r : Registry) (text : String) : List (Token Variable) × Registry :=
  let tokens := Token.lex text.toList
  let r := r.enrollAll (tokens.filterMap Token.atom?)
  (tokens.map (Token.map r.variableOf), r)

@[simp] theorem name_variableOf (r : Registry) (c : Char) : (r.variableOf c).name = c :=
  rfl

theorem numberOf_of_ascii (r : Registry) {c : Char} (hc : c.toNat < asciiLimit) :
    r.numberOf c = c.toNat := by
  simp [numberOf, hc]

/-- Enrolling a character gives it the number that was announced. -/
theorem numberOf_enroll_self (r : Registry) (c : Char) :
    (r.enroll c).numberOf c = r.numberOf c := by
  unfold enroll
  split
  · rfl
  · rename_i h
    simp only [not_or] at h
    simp [numberOf, h.1, Std.TreeMap.getD_eq_fallback h.2]

@[simp] theorem enrollAll_nil (r : Registry) : r.enrollAll [] = r := rfl

@[simp] theorem enrollAll_cons (r : Registry) (c : Char) (cs : List Char) :
    r.enrollAll (c :: cs) = (r.enroll c).enrollAll cs :=
  rfl

theorem enrollAll_append (r : Registry) (left right : List Char) :
    r.enrollAll (left ++ right) = (r.enrollAll left).enrollAll right := by
  simp [enrollAll]

end Registry

end Sentential
