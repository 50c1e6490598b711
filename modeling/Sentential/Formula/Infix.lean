/-
Formulas in infix order.  `tokens` encloses an operand in parentheses only where
its connective would otherwise lose an operand to a neighbour; a `Style` chooses
the texts of the connectives.
-/
import Sentential.Formula.Basic

namespace Sentential

variable {α β : Type}

/-- Tokens between parentheses. -/
def enclose (tokens : List (Token α)) : List (Token α) :=
  .opening :: tokens ++ [.closing]

namespace Formula

/-- The tokens in infix order.  A left operand may have the rank of its
connective, a right operand has to bind tighter, and the operand of a negation
is an atom or a negation; any other operand is enclosed. -/
def tokens : Formula α → List (Token α)
  | atom a => [.symbol (.atom a)]
  | neg f =>
      .symbol (.connective .negation) ::
        (if f.rank ≤ Connective.negation.rank then f.tokens else enclose f.tokens)
  | conj l r =>
      (if l.rank ≤ Connective.conjunction.rank then l.tokens else enclose l.tokens) ++
        .symbol (.connective .conjunction) ::
          (if r.rank < Connective.conjunction.rank then r.tokens else enclose r.tokens)
  | disj l r =>
      (if l.rank ≤ Connective.disjunction.rank then l.tokens else enclose l.tokens) ++
        .symbol (.connective .disjunction) ::
          (if r.rank < Connective.disjunction.rank then r.tokens else enclose r.tokens)

end Formula

/-- The texts that connectives are written with. -/
structure Style where
  conjunction : String
  disjunction : String
  negation : String
deriving DecidableEq, Repr

namespace Style

/-- The signs of the connectives, with room around the binary ones. -/
def signs : Style := ⟨" & ", " | ", "~"⟩

/-- Words in lower case. -/
def words : Style := ⟨" and ", " or ", "not "⟩

/-- The text of a connective. -/
def spell (style : Style) : Connective → String
  | .negation => style.negation
  | .conjunction => style.conjunction
  | .disjunction => style.disjunction

/-- The characters of one token. -/
def spellToken (style : Style) : Token Char → List Char
  | .symbol (.atom name) => [name]
  | .symbol (.connective c) => (style.spell c).toList
  | .opening => ['(']
  | .closing => [')']

/-- The characters of tokens in a row. -/
def write (style : Style) (tokens : List (Token Char)) : List Char :=
  tokens.flatMap style.spellToken

@[simp] theorem write_append (style : Style) (left right : List (Token Char)) :
    style.write (left ++ right) = style.write left ++ style.write right := by
  simp [write]

end Style

/-- The text of a formula over variables. -/
def Formula.render (style : Style) (f : Formula Variable) : String :=
  String.ofList (style.write (f.map Variable.name).tokens)

theorem map_enclose (f : α → β) (tokens : List (Token α)) :
    (enclose tokens).map (Token.map f) = enclose (tokens.map (Token.map f)) := by
  simp [enclose, Token.map]

theorem Formula.tokens_map (f : α → β) (g : Formula α) :
    (g.map f).tokens = g.tokens.map (Token.map f) := by
  induction g with
  | atom a => rfl
  | neg g ih =>
      simp only [map, tokens, rank_map, ih, List.map_cons]
      split <;> simp [Token.map, Symbol.map, map_enclose]
  | conj l r ihl ihr =>
      simp only [map, tokens, rank_map, ihl, ihr, List.map_append, List.map_cons]
      split <;> split <;> simp [Token.map, Symbol.map, map_enclose]
  | disj l r ihl ihr =>
      simp only [map, tokens, rank_map, ihl, ihr, List.map_append, List.map_cons]
      split <;> split <;> simp [Token.map, Symbol.map, map_enclose]

end Sentential
