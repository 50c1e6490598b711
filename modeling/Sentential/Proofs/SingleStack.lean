/-
A single stack for all that waits.  Open parentheses can wait among the connectives, on
a stack that three loops take from: one as long as connectives yield, one up to the
parenthesis that is closed, one when all tokens are read.  No loop takes a parenthesis
that it does not look for, so the stack is the frames of waiting connectives in a row,
and reordering gives the same over either.
-/
import Sentential.Postfix

namespace Sentential

variable {α : Type}

/-- What can wait while tokens are read. -/
inductive Waiting where
  | parenthesis
  | connective (c : Connective)
deriving DecidableEq, Repr

/-- The state of reordering over a single stack. -/
structure SingleStack (α : Type) where
  /-- The symbols already in postfix order, the last one first. -/
  emitted : List (Symbol α) := []
  /-- All that waits, the last one first. -/
  waiting : List Waiting := []
deriving DecidableEq, Repr

namespace SingleStack

/-- Emits connectives as long as they yield. -/
def yield (c : Connective) (emitted : List (Symbol α)) : List Waiting → SingleStack α
  | .connective earlier :: rest =>
      if c.yieldsTo earlier then yield c (.connective earlier :: emitted) rest
      else ⟨emitted, .connective earlier :: rest⟩
  | waiting => ⟨emitted, waiting⟩

/-- Emits connectives up to the parenthesis that is closed. -/
def close (emitted : List (Symbol α)) : List Waiting → Except ReadError (SingleStack α)
  | [] => .error .mismatchedParenthesis
  | .parenthesis :: rest => .ok ⟨emitted, rest⟩
  | .connective c :: rest => close (.connective c :: emitted) rest

/-- Emits all connectives that are left, unless a parenthesis is. -/
def drain (emitted : List (Symbol α)) : List Waiting → Except ReadError (List (Symbol α))
  | [] => .ok emitted.reverse
  | .parenthesis :: _ => .error .mismatchedParenthesis
  | .connective c :: rest => drain (.connective c :: emitted) rest

/-- Reads one token. -/
def step (state : SingleStack α) : Token α → Except ReadError (SingleStack α)
  | .symbol (.atom a) => .ok { state with emitted := .atom a :: state.emitted }
  | .symbol (.connective c) =>
      let yielded := yield c state.emitted state.waiting
      .ok { yielded with waiting := .connective c :: yielded.waiting }
  | .opening => .ok { state with waiting := .parenthesis :: state.waiting }
  | .closing => close state.emitted state.waiting

/-- Reads tokens from left to right. -/
def run (state : SingleStack α) (tokens : List (Token α)) :
    Except ReadError (SingleStack α) :=
  tokens.foldlM step state

/-- The symbols of tokens in infix order, put into postfix order over a single stack. -/
def toPostfix (tokens : List (Token α)) : Except ReadError (List (Symbol α)) :=
  run {} tokens >>= fun state => drain state.emitted state.waiting

end SingleStack

namespace Reordering

/-- All that waits in the frames, in a row: a parenthesis stands before the connectives
that wait outside it. -/
def waiting (state : Reordering α) : List Waiting :=
  state.pending.map .connective ++
    state.enclosing.flatMap fun frame => .parenthesis :: frame.map .connective

/-- The state over a single stack. -/
def toSingleStack (state : Reordering α) : SingleStack α := ⟨state.emitted, state.waiting⟩

/-- A parenthesis waits for each frame. -/
theorem count_parenthesis_waiting (state : Reordering α) :
    state.waiting.count .parenthesis = state.enclosing.length := by
  have hnone : ∀ frame : List Connective,
      (frame.map Waiting.connective).count .parenthesis = 0 := by
    intro frame
    apply List.count_eq_zero_of_not_mem
    simp
  rw [waiting, List.count_append, hnone, Nat.zero_add]
  induction state.enclosing with
  | nil => rfl
  | cons frame rest ih =>
      rw [List.flatMap_cons, List.count_append, List.count_cons_self, hnone, ih,
        List.length_cons]
      omega

theorem emit_cons (emitted : List (Symbol α)) (c : Connective) (rest : List Connective) :
    emit emitted (c :: rest) = emit (.connective c :: emitted) rest := by
  simp [emit]

end Reordering

namespace SingleStack

open Reordering

section Loops

variable (emitted : List (Symbol α)) (pending : List Connective) (rest : List Waiting)

theorem close_append :
    close emitted (pending.map .connective ++ rest) = close (emit emitted pending) rest := by
  induction pending generalizing emitted with
  | nil => rfl
  | cons c pending ih =>
      rw [emit_cons]
      exact ih (.connective c :: emitted)

theorem drain_append :
    drain emitted (pending.map .connective ++ rest) = drain (emit emitted pending) rest := by
  induction pending generalizing emitted with
  | nil => rfl
  | cons c pending ih =>
      rw [emit_cons]
      exact ih (.connective c :: emitted)

/-- Connectives yield up to the first one that does not, and no further than to a
parenthesis. -/
theorem yield_append (c : Connective)
    (hrest : ∀ earlier : List (Symbol α), yield c earlier rest = ⟨earlier, rest⟩) :
    yield c emitted (pending.map .connective ++ rest) =
      ⟨emit emitted (pending.takeWhile c.yieldsTo),
        (pending.dropWhile c.yieldsTo).map .connective ++ rest⟩ := by
  induction pending generalizing emitted with
  | nil => exact hrest emitted
  | cons earlier pending ih =>
      rw [List.map_cons, List.cons_append, yield]
      by_cases hyields : c.yieldsTo earlier = true
      · rw [if_pos hyields, List.takeWhile_cons_of_pos hyields,
          List.dropWhile_cons_of_pos hyields, emit_cons]
        exact ih (.connective earlier :: emitted)
      · rw [if_neg hyields, List.takeWhile_cons_of_neg hyields,
          List.dropWhile_cons_of_neg hyields]
        rfl

end Loops

theorem yield_toSingleStack (state : Reordering α) (c : Connective) :
    yield c state.emitted state.waiting =
      toSingleStack { state with
        emitted := emit state.emitted (state.pending.takeWhile c.yieldsTo)
        pending := state.pending.dropWhile c.yieldsTo } := by
  apply yield_append
  intro earlier
  rcases state.enclosing with _ | ⟨frame, below⟩ <;> rfl

/-- Reading a token over the single stack is reading it over the frames. -/
theorem step_toSingleStack (state : Reordering α) (t : Token α) :
    state.toSingleStack.step t = (state.step t).map toSingleStack := by
  rcases t with (a | c) | _ | _
  · rfl
  · change Except.ok (SingleStack.mk (yield c state.emitted state.waiting).emitted
      (.connective c :: (yield c state.emitted state.waiting).waiting)) = _
    rw [yield_toSingleStack]
    rfl
  · rfl
  · obtain ⟨emitted, pending, enclosing⟩ := state
    rcases enclosing with _ | ⟨frame, below⟩
    · exact close_append emitted pending []
    · exact close_append emitted pending _

theorem run_toSingleStack (state : Reordering α) (tokens : List (Token α)) :
    state.toSingleStack.run tokens = (state.run tokens).map toSingleStack := by
  induction tokens generalizing state with
  | nil => rfl
  | cons t rest ih =>
      rw [run, List.foldlM_cons, step_toSingleStack, run_cons]
      cases state.step t with
      | error e => rfl
      | ok next => exact ih next

theorem drain_toSingleStack (state : Reordering α) :
    drain state.emitted state.waiting = state.finish := by
  obtain ⟨emitted, pending, enclosing⟩ := state
  rcases enclosing with _ | ⟨frame, below⟩
  · exact drain_append emitted pending []
  · exact drain_append emitted pending _

/-- One stack and a frame for each open parenthesis give the same symbols, or fail for the
same tokens. -/
theorem toPostfix_eq (tokens : List (Token α)) :
    toPostfix tokens = Sentential.toPostfix tokens := by
  have hrun := run_toSingleStack ({} : Reordering α) tokens
  change (run (toSingleStack {}) tokens >>= _) = _
  rw [hrun, Sentential.toPostfix]
  cases Reordering.run {} tokens with
  | error e => rfl
  | ok state => exact drain_toSingleStack state

end SingleStack

end Sentential
