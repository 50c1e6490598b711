/-
Symbols and tokens.  A symbol is an atom or a connective; a token is a symbol or
a parenthesis.  Both are kept over any type of atoms: a text names its atoms by
characters, a sentence by variables.
-/
import Sentential.Connective
import Sentential.Variable.Basic

namespace Sentential

variable {α β γ : Type}

/-- A symbol of a sentence. -/
inductive Symbol (α : Type) where
  | atom (a : α)
  | connective (c : Connective)
deriving DecidableEq, Repr

/-- A token of a text: a symbol or a parenthesis. -/
inductive Token (α : Type) where
  | symbol (s : Symbol α)
  | opening
  | closing
deriving DecidableEq, Repr

namespace Symbol

/-- The symbol with its atom renamed. -/
def map (f : α → β) : Symbol α → Symbol β
  | atom a => atom (f a)
  | connective c => connective c

/-- The atom of a symbol that is not a connective. -/
def atom? : Symbol α → Option α
  | atom a => some a
  | connective _ => none

instance [ToString α] : ToString (Symbol α) where
  toString
    | atom a => toString a
    | connective c => toString c

@[simp] theorem atom?_atom (a : α) : (atom a).atom? = some a := rfl

@[simp] theorem atom?_connective (c : Connective) :
    (connective c : Symbol α).atom? = none :=
  rfl

@[simp] theorem map_map (f : α → β) (g : β → γ) (s : Symbol α) :
    (s.map f).map g = s.map (g ∘ f) := by
  cases s <;> rfl

@[simp] theorem atom?_map (f : α → β) (s : Symbol α) :
    (s.map f).atom? = s.atom?.map f := by
  cases s <;> rfl

end Symbol

namespace Token

/-- The token with its atom renamed. -/
def map (f : α → β) : Token α → Token β
  | symbol s => symbol (s.map f)
  | opening => opening
  | closing => closing

/-- The symbol of a token that is not a parenthesis. -/
def symbol? : Token α → Option (Symbol α)
  | symbol s => some s
  | opening | closing => none

/-- The atom of a token that is one. -/
def atom? : Token α → Option α
  | symbol s => s.atom?
  | opening | closing => none

instance [ToString α] : ToString (Token α) where
  toString
    | symbol s => toString s
    | opening => "("
    | closing => ")"

@[simp] theorem atom?_symbol (s : Symbol α) : (symbol s).atom? = s.atom? := rfl

@[simp] theorem atom?_opening : (opening : Token α).atom? = none := rfl

@[simp] theorem atom?_closing : (closing : Token α).atom? = none := rfl

/-- The token that a character stands for.  A space stands for none. -/
def ofChar? (c : Char) : Option (Token Char) :=
  if c = ' ' then none
  else if c = '(' then some opening
  else if c = ')' then some closing
  else match Connective.ofSign? c with
    | some connective => some (symbol (.connective connective))
    | none => some (symbol (.atom c))

/-- The tokens of a text, one for each character but the spaces. -/
def lex (text : List Char) : List (Token Char) :=
  text.filterMap ofChar?

@[simp] theorem lex_nil : lex [] = [] := rfl

@[simp] theorem lex_append (left right : List Char) :
    lex (left ++ right) = lex left ++ lex right := by
  simp [lex]

/-- A character that is not reserved stands for the atom it names. -/
theorem ofChar?_of_not_reserved {c : Char} (hc : ¬ Reserved c) :
    ofChar? c = some (symbol (.atom c)) := by
  simp only [Reserved, reservedCharacters, List.mem_cons, List.not_mem_nil, or_false,
    not_or] at hc
  obtain ⟨hspace, hnot, hand, hor, hopen, hclose⟩ := hc
  have hsign : Connective.ofSign? c = none := by
    cases hfound : Connective.ofSign? c with
    | none => rfl
    | some connective =>
        have hsign := (Connective.ofSign?_eq_some_iff.mp hfound).symm
        cases connective
        · exact absurd hsign hnot
        · exact absurd hsign hand
        · exact absurd hsign hor
  simp [ofChar?, hspace, hopen, hclose, hsign]

theorem atom?_map (f : α → β) (t : Token α) : (t.map f).atom? = t.atom?.map f := by
  cases t with
  | symbol s => exact Symbol.atom?_map f s
  | opening => rfl
  | closing => rfl

theorem atom?_eq_some_iff {t : Token α} {a : α} : t.atom? = some a ↔ t = symbol (.atom a) := by
  cases t with
  | symbol s => cases s <;> simp
  | opening => simp
  | closing => simp

end Token

end Sentential
