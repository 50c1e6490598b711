/-
Sentences.  A sentence is a row of symbols in postfix order; reading one fails
only on unmatched parentheses, so a sentence need not list a formula.  A value
or an infix text exists just when it does.
-/
import Sentential.Assignment.Basic
import Sentential.Formula.Infix
import Sentential.Postfix
import Sentential.Variable.Registry

namespace Sentential

/-- A sentence: its symbols in postfix order. -/
structure Sentence where
  symbols : List (Symbol Variable)
deriving DecidableEq, Repr

namespace Sentence

/-- The variables from left to right, repeats included. -/
def occurrences (s : Sentence) : List Variable := s.symbols.filterMap Symbol.atom?

/-- The distinct variables in order of first occurrence. -/
def vocabulary (s : Sentence) : Vocabulary := .ofList s.occurrences

/-- The formula that the symbols list. -/
def formula (s : Sentence) : Except EvaluationError (Formula Variable) :=
  Formula.ofSymbols s.symbols

/-- The infix text. -/
def render (s : Sentence) (style : Style) : Except EvaluationError String :=
  s.formula.map (Formula.render style)

/-- The truth value under an assignment of just the variables of the sentence. -/
def evaluate (s : Sentence) (a : Assignment) : Except EvaluationError Bool := do
  a.requireWithin s.vocabulary.toSet
  a.valuation.value s.symbols

instance : ToString Sentence where
  toString s := " ".intercalate (s.symbols.map toString)

end Sentence

/-- Reads a text as a sentence.  Its variables are enrolled even if the
parentheses do not match. -/
def Registry.parse (r : Registry) (text : String) : Except ReadError Sentence × Registry :=
  let (tokens, r) := r.tokenize text
  ((toPostfix tokens).map Sentence.mk, r)

end Sentential
