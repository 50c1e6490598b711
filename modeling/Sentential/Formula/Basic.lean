/-
Formulas as trees.  A formula has a truth value for every valuation of its
atoms; `symbols` lists it in postfix order, each connective after its operands.
-/
import Sentential.Token

namespace Sentential

variable {α β γ : Type}

/-- A propositional formula over atoms. -/
inductive Formula (α : Type) where
  | atom (a : α)
  | neg (operand : Formula α)
  | conj (left right : Formula α)
  | disj (left right : Formula α)
deriving DecidableEq, Repr

namespace Formula

/-- The truth value under a valuation of the atoms. -/
def eval (valuation : α → Bool) : Formula α → Bool
  | atom a => valuation a
  | neg f => !f.eval valuation
  | conj l r => l.eval valuation && r.eval valuation
  | disj l r => l.eval valuation || r.eval valuation

/-- The symbols in postfix order. -/
def symbols : Formula α → List (Symbol α)
  | atom a => [.atom a]
  | neg f => f.symbols ++ [.connective .negation]
  | conj l r => l.symbols ++ r.symbols ++ [.connective .conjunction]
  | disj l r => l.symbols ++ r.symbols ++ [.connective .disjunction]

/-- The atoms from left to right, repeats included. -/
def atoms : Formula α → List α
  | atom a => [a]
  | neg f => f.atoms
  | conj l r | disj l r => l.atoms ++ r.atoms

/-- The formula with its atoms renamed. -/
def map (f : α → β) : Formula α → Formula β
  | atom a => atom (f a)
  | neg g => neg (g.map f)
  | conj l r => conj (l.map f) (r.map f)
  | disj l r => disj (l.map f) (r.map f)

/-- The rank of the outermost connective.  An atom binds as tight as a
negation. -/
def rank : Formula α → Nat
  | atom _ => 0
  | neg _ => Connective.negation.rank
  | conj _ _ => Connective.conjunction.rank
  | disj _ _ => Connective.disjunction.rank

theorem filterMap_atom?_symbols (f : Formula α) :
    f.symbols.filterMap Symbol.atom? = f.atoms := by
  induction f with
  | atom a => rfl
  | neg f ih => simp [symbols, atoms, ih, Symbol.atom?]
  | conj l r ihl ihr => simp [symbols, atoms, ihl, ihr, Symbol.atom?]
  | disj l r ihl ihr => simp [symbols, atoms, ihl, ihr, Symbol.atom?]

theorem map_map (f : α → β) (g : β → γ) (h : Formula α) :
    (h.map f).map g = h.map (g ∘ f) := by
  induction h with
  | atom a => rfl
  | neg h ih => simp [map, ih]
  | conj l r ihl ihr => simp [map, ihl, ihr]
  | disj l r ihl ihr => simp [map, ihl, ihr]

theorem map_eq_self {f : α → α} {g : Formula α} (h : ∀ a ∈ g.atoms, f a = a) :
    g.map f = g := by
  induction g with
  | atom a => simp [map, h a (by simp [atoms])]
  | neg g ih => simp [map, ih h]
  | conj l r ihl ihr =>
      have hl := ihl fun a ha => h a (by simp [atoms, ha])
      have hr := ihr fun a ha => h a (by simp [atoms, ha])
      simp [map, hl, hr]
  | disj l r ihl ihr =>
      have hl := ihl fun a ha => h a (by simp [atoms, ha])
      have hr := ihr fun a ha => h a (by simp [atoms, ha])
      simp [map, hl, hr]

@[simp] theorem atoms_map (f : α → β) (g : Formula α) :
    (g.map f).atoms = g.atoms.map f := by
  induction g with
  | atom a => rfl
  | neg g ih => exact ih
  | conj l r ihl ihr => simp [map, atoms, ihl, ihr]
  | disj l r ihl ihr => simp [map, atoms, ihl, ihr]

@[simp] theorem rank_map (f : α → β) (g : Formula α) : (g.map f).rank = g.rank := by
  cases g <;> rfl

/-- Only the atoms of a formula bear on its value. -/
theorem eval_congr {v w : α → Bool} {f : Formula α}
    (h : ∀ a ∈ f.atoms, v a = w a) : f.eval v = f.eval w := by
  induction f with
  | atom a => exact h a (by simp [atoms])
  | neg f ih => simp [eval, ih h]
  | conj l r ihl ihr =>
      have hl := ihl fun a ha => h a (by simp [atoms, ha])
      have hr := ihr fun a ha => h a (by simp [atoms, ha])
      simp [eval, hl, hr]
  | disj l r ihl ihr =>
      have hl := ihl fun a ha => h a (by simp [atoms, ha])
      have hr := ihr fun a ha => h a (by simp [atoms, ha])
      simp [eval, hl, hr]

theorem eval_map (f : α → β) (v : β → Bool) (g : Formula α) :
    (g.map f).eval v = g.eval (v ∘ f) := by
  induction g with
  | atom a => rfl
  | neg g ih => simp [eval, map, ih]
  | conj l r ihl ihr => simp [eval, map, ihl, ihr]
  | disj l r ihl ihr => simp [eval, map, ihl, ihr]

end Formula

end Sentential
