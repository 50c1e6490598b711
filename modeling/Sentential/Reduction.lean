/-
Reduction of symbols in postfix order.  Symbols are read from left to right over
a stack: an atom puts its value on the stack, a connective replaces its operands
by its result.  The same reduction gives a sentence its truth value and builds
the formula that a row of symbols lists.
-/
import Sentential.Error
import Sentential.Formula.Basic

namespace Sentential

variable {α β : Type}

/-- What symbols stand for in a domain of values.  An atom may have no value. -/
structure Interpretation (α β : Type) where
  atom : α → Except EvaluationError β
  negation : β → β
  conjunction : β → β → β
  disjunction : β → β → β

namespace Interpretation

/-- Reads one symbol over a stack of values, the last value on top. -/
def step (meaning : Interpretation α β) :
    List β → Symbol α → Except EvaluationError (List β)
  | stack, .atom a => (meaning.atom a).map (· :: stack)
  | x :: stack, .connective .negation => .ok (meaning.negation x :: stack)
  | y :: x :: stack, .connective .conjunction => .ok (meaning.conjunction x y :: stack)
  | y :: x :: stack, .connective .disjunction => .ok (meaning.disjunction x y :: stack)
  | _, .connective _ => .error .malformedExpression

/-- Reads symbols from left to right. -/
def run (meaning : Interpretation α β) (stack : List β) (symbols : List (Symbol α)) :
    Except EvaluationError (List β) :=
  symbols.foldlM meaning.step stack

/-- The value of symbols that reduce to a single one. -/
def value (meaning : Interpretation α β) (symbols : List (Symbol α)) :
    Except EvaluationError β := do
  match ← meaning.run [] symbols with
  | [x] => .ok x
  | _ => .error .malformedExpression

/-- The value of a formula. -/
def ofFormula (meaning : Interpretation α β) : Formula α → Except EvaluationError β
  | .atom a => meaning.atom a
  | .neg f => do
      let x ← meaning.ofFormula f
      return meaning.negation x
  | .conj l r => do
      let x ← meaning.ofFormula l
      let y ← meaning.ofFormula r
      return meaning.conjunction x y
  | .disj l r => do
      let x ← meaning.ofFormula l
      let y ← meaning.ofFormula r
      return meaning.disjunction x y

@[simp] theorem run_nil (meaning : Interpretation α β) (stack : List β) :
    meaning.run stack [] = .ok stack :=
  rfl

@[simp] theorem run_cons (meaning : Interpretation α β) (stack : List β) (s : Symbol α)
    (symbols : List (Symbol α)) :
    meaning.run stack (s :: symbols) =
      meaning.step stack s >>= fun next => meaning.run next symbols := by
  simp [run]

theorem run_append (meaning : Interpretation α β) (stack : List β)
    (left right : List (Symbol α)) :
    meaning.run stack (left ++ right) =
      meaning.run stack left >>= fun next => meaning.run next right := by
  simp [run]

/-- What reading one symbol can do to a stack: an atom adds its value, a connective
takes its operands off the top and leaves its result. -/
theorem cases_of_step {meaning : Interpretation α β} {stack next : List β} {s : Symbol α}
    (h : meaning.step stack s = .ok next) :
    (∃ a x, s = .atom a ∧ meaning.atom a = .ok x ∧ next = x :: stack) ∨
      (∃ x rest, s = .connective .negation ∧ stack = x :: rest ∧
        next = meaning.negation x :: rest) ∨
      (∃ x y rest, s = .connective .conjunction ∧ stack = y :: x :: rest ∧
        next = meaning.conjunction x y :: rest) ∨
      ∃ x y rest, s = .connective .disjunction ∧ stack = y :: x :: rest ∧
        next = meaning.disjunction x y :: rest := by
  unfold step at h
  split at h
  · rename_i a
    cases hx : meaning.atom a with
    | error e =>
        rw [hx] at h
        cases h
    | ok x =>
        rw [hx] at h
        cases h
        exact Or.inl ⟨a, x, rfl, hx, rfl⟩
  · cases h
    exact Or.inr (Or.inl ⟨_, _, rfl, rfl, rfl⟩)
  · cases h
    exact Or.inr (Or.inr (Or.inl ⟨_, _, _, rfl, rfl, rfl⟩))
  · cases h
    exact Or.inr (Or.inr (Or.inr ⟨_, _, _, rfl, rfl, rfl⟩))
  · cases h

/-- Over any stack, the symbols of a formula reduce to its value on top. -/
theorem run_symbols (meaning : Interpretation α β) (f : Formula α) (stack : List β) :
    meaning.run stack f.symbols = (meaning.ofFormula f).map (· :: stack) := by
  induction f generalizing stack with
  | atom a =>
      simp only [Formula.symbols, run_cons, step, ofFormula]
      cases meaning.atom a <;> rfl
  | neg f ih =>
      simp only [Formula.symbols, run_append, ih, ofFormula]
      cases meaning.ofFormula f <;> rfl
  | conj l r ihl ihr =>
      simp only [Formula.symbols, run_append, ihl, ofFormula]
      cases meaning.ofFormula l with
      | error e => rfl
      | ok x =>
          change (meaning.run (x :: stack) r.symbols >>= _) = _
          rw [ihr]
          cases meaning.ofFormula r <;> rfl
  | disj l r ihl ihr =>
      simp only [Formula.symbols, run_append, ihl, ofFormula]
      cases meaning.ofFormula l with
      | error e => rfl
      | ok x =>
          change (meaning.run (x :: stack) r.symbols >>= _) = _
          rw [ihr]
          cases meaning.ofFormula r <;> rfl

/-- The value is what is left alone on the stack. -/
theorem value_eq_ok_iff_run {meaning : Interpretation α β} {row : List (Symbol α)} {x : β} :
    meaning.value row = .ok x ↔ meaning.run [] row = .ok [x] := by
  rw [value, bind_eq_ok_iff]
  constructor
  · rintro ⟨stack, hrun, hsingle⟩
    split at hsingle
    · cases hsingle
      exact hrun
    · cases hsingle
  · intro hrun
    exact ⟨[x], hrun, rfl⟩

theorem value_symbols (meaning : Interpretation α β) (f : Formula α) :
    meaning.value f.symbols = meaning.ofFormula f := by
  simp only [value, run_symbols]
  cases meaning.ofFormula f <;> rfl

end Interpretation

namespace Formula

/-- Symbols as parts of formulas. -/
def construction : Interpretation α (Formula α) where
  atom a := .ok (.atom a)
  negation := neg
  conjunction := conj
  disjunction := disj

/-- The formula that symbols list in postfix order. -/
def ofSymbols (symbols : List (Symbol α)) : Except EvaluationError (Formula α) :=
  construction.value symbols

/-- The formula that tokens list in postfix order.  A parenthesis has no place
there. -/
def ofPostfix (tokens : List (Token α)) : Except EvaluationError (Formula α) :=
  match tokens.mapM Token.symbol? with
  | some symbols => ofSymbols symbols
  | none => .error .malformedExpression

theorem ofFormula_construction (f : Formula α) : construction.ofFormula f = .ok f := by
  induction f with
  | atom a => rfl
  | neg f ih => simp only [Interpretation.ofFormula, ih]; rfl
  | conj l r ihl ihr => simp only [Interpretation.ofFormula, ihl, ihr]; rfl
  | disj l r ihl ihr => simp only [Interpretation.ofFormula, ihl, ihr]; rfl

/-- The symbols of a formula give it back. -/
theorem ofSymbols_symbols (f : Formula α) : ofSymbols f.symbols = .ok f := by
  rw [ofSymbols, Interpretation.value_symbols, ofFormula_construction]

end Formula

end Sentential
