/-
Postfix order.  Tokens in infix order are read from left to right: an atom goes
straight to the result, a connective waits until its last operand is complete,
and a parenthesis delimits which connectives wait for each other.  Nothing but
unmatched parentheses can fail, so ill-formed rows of symbols are reordered as
well.
-/
import Sentential.Error
import Sentential.Token

namespace Sentential

variable {α : Type}

/-- The state of reordering. -/
structure Reordering (α : Type) where
  /-- The symbols already in postfix order, the last one first. -/
  emitted : List (Symbol α) := []
  /-- The connectives waiting inside the innermost open parenthesis, the last
  one first. -/
  pending : List Connective := []
  /-- The connectives waiting outside each open parenthesis, the innermost
  parenthesis first. -/
  enclosing : List (List Connective) := []
deriving DecidableEq, Repr

namespace Reordering

/-- Connectives in the order given, put after the symbols already emitted. -/
def emit (emitted : List (Symbol α)) (connectives : List Connective) : List (Symbol α) :=
  (connectives.map Symbol.connective).reverse ++ emitted

/-- Reads one token. -/
def step (state : Reordering α) : Token α → Except ReadError (Reordering α)
  | .symbol (.atom a) => .ok { state with emitted := .atom a :: state.emitted }
  | .symbol (.connective c) =>
      .ok { state with
        emitted := emit state.emitted (state.pending.takeWhile c.yieldsTo)
        pending := c :: state.pending.dropWhile c.yieldsTo }
  | .opening =>
      .ok { state with pending := [], enclosing := state.pending :: state.enclosing }
  | .closing =>
      match state.enclosing with
      | [] => .error .mismatchedParenthesis
      | outer :: rest =>
          .ok { emitted := emit state.emitted state.pending
                pending := outer
                enclosing := rest }

/-- Reads tokens from left to right. -/
def run (state : Reordering α) (tokens : List (Token α)) :
    Except ReadError (Reordering α) :=
  tokens.foldlM step state

/-- The symbols in postfix order, when no parenthesis is left open. -/
def finish (state : Reordering α) : Except ReadError (List (Symbol α)) :=
  match state.enclosing with
  | [] => .ok (emit state.emitted state.pending).reverse
  | _ :: _ => .error .mismatchedParenthesis

@[simp] theorem run_nil (state : Reordering α) : state.run [] = .ok state := rfl

@[simp] theorem run_cons (state : Reordering α) (t : Token α) (tokens : List (Token α)) :
    state.run (t :: tokens) = state.step t >>= fun next => next.run tokens := by
  simp [run]

/-- What reading one token can do to a state. -/
theorem cases_of_step {state next : Reordering α} {t : Token α}
    (h : state.step t = .ok next) :
    (∃ a, t = .symbol (.atom a) ∧ next = { state with emitted := .atom a :: state.emitted }) ∨
      (∃ c, t = .symbol (.connective c) ∧ next =
        { state with
          emitted := emit state.emitted (state.pending.takeWhile c.yieldsTo)
          pending := c :: state.pending.dropWhile c.yieldsTo }) ∨
      (t = .opening ∧ next =
        { state with pending := [], enclosing := state.pending :: state.enclosing }) ∨
      ∃ outer rest, t = .closing ∧ state.enclosing = outer :: rest ∧
        next = ⟨emit state.emitted state.pending, outer, rest⟩ := by
  unfold step at h
  split at h
  · rename_i a
    cases h
    exact Or.inl ⟨a, rfl, rfl⟩
  · rename_i c
    cases h
    exact Or.inr (Or.inl ⟨c, rfl, rfl⟩)
  · cases h
    exact Or.inr (Or.inr (Or.inl ⟨rfl, rfl⟩))
  · split at h
    · cases h
    · rename_i outer rest henclosing
      cases h
      exact Or.inr (Or.inr (Or.inr ⟨outer, rest, rfl, henclosing, rfl⟩))

/-- Only a closing parenthesis that has no opening one cannot be read. -/
theorem step_eq_error_iff {state : Reordering α} {t : Token α} {e : ReadError} :
    state.step t = .error e ↔
      t = .closing ∧ state.enclosing = [] ∧ e = .mismatchedParenthesis := by
  obtain ⟨emitted, pending, enclosing⟩ := state
  cases t with
  | symbol s => cases s <;> simp [step]
  | opening => simp [step]
  | closing => cases enclosing <;> simp [step, eq_comm]

theorem run_append (state : Reordering α) (left right : List (Token α)) :
    state.run (left ++ right) = state.run left >>= fun next => next.run right := by
  simp [run]

theorem finish_eq_ok_iff {state : Reordering α} {row : List (Symbol α)} :
    state.finish = .ok row ↔
      state.enclosing = [] ∧ (emit state.emitted state.pending).reverse = row := by
  obtain ⟨emitted, pending, enclosing⟩ := state
  cases enclosing <;> simp [finish]

end Reordering

/-- The symbols of tokens in infix order, put into postfix order. -/
def toPostfix (tokens : List (Token α)) : Except ReadError (List (Symbol α)) :=
  Reordering.run {} tokens >>= Reordering.finish

end Sentential
