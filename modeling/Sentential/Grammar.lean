/-
The grammar of infix sentences.  `Derives` relates tokens in infix order to the
formula they express: negation binds tighter than conjunction, conjunction
tighter than disjunction, and both binary connectives group to the left.
`Balanced` says only that the parentheses match.
-/
import Sentential.Formula.Infix

namespace Sentential

variable {α : Type}

/-- How loose a phrase may bind: a factor is an atom, a negated factor or an
enclosed expression; a term joins factors; an expression joins terms. -/
inductive Phrase where
  | factor
  | term
  | expression
deriving DecidableEq, Repr

/-- The tokens of a phrase and the formula they express. -/
inductive Derives : Phrase → List (Token α) → Formula α → Prop where
  | atom (a : α) : Derives .factor [.symbol (.atom a)] (.atom a)
  | negation {w : List (Token α)} {f : Formula α} :
      Derives .factor w f →
        Derives .factor (.symbol (.connective .negation) :: w) (.neg f)
  | enclosed {w : List (Token α)} {f : Formula α} :
      Derives .expression w f → Derives .factor (enclose w) f
  | factor {w : List (Token α)} {f : Formula α} :
      Derives .factor w f → Derives .term w f
  | conjunction {u v : List (Token α)} {l r : Formula α} :
      Derives .term u l → Derives .factor v r →
        Derives .term (u ++ .symbol (.connective .conjunction) :: v) (.conj l r)
  | term {w : List (Token α)} {f : Formula α} :
      Derives .term w f → Derives .expression w f
  | disjunction {u v : List (Token α)} {l r : Formula α} :
      Derives .expression u l → Derives .term v r →
        Derives .expression (u ++ .symbol (.connective .disjunction) :: v) (.disj l r)

/-- The opening parentheses of some tokens. -/
def openings (tokens : List (Token α)) : Nat :=
  tokens.countP fun t => t matches .opening

/-- The closing parentheses of some tokens. -/
def closings (tokens : List (Token α)) : Nat :=
  tokens.countP fun t => t matches .closing

/-- As many opening as closing parentheses, and nowhere more closing ones so
far. -/
def Balanced (tokens : List (Token α)) : Prop :=
  (∀ head, head <+: tokens → closings head ≤ openings head) ∧
    closings tokens = openings tokens

end Sentential
