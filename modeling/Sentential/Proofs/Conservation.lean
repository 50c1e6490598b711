/-
Conservation of symbols.  Between the symbols emitted and the connectives that wait,
reordering holds each symbol it has read once; so a row in postfix order is a
rearrangement of the symbols it was read from, and what can be counted in the one can be
counted in the other.
-/
import Mathlib.Data.List.Perm.Basic
import Sentential.Formula.Basic
import Sentential.Proofs.Operands

namespace Sentential

variable {α : Type}

namespace Reordering

variable {state next after : Reordering α} {t : Token α} {tokens : List (Token α)}

/-- The symbols read so far, emitted or waiting. -/
def held (state : Reordering α) : List (Symbol α) :=
  state.emitted ++ (state.pending ++ state.enclosing.flatten).map Symbol.connective

/-- Connectives that are emitted no longer wait. -/
theorem perm_emit_append (emitted : List (Symbol α)) (connectives waiting : List Connective) :
    (emit emitted connectives ++ waiting.map Symbol.connective).Perm
      (emitted ++ (connectives ++ waiting).map Symbol.connective) := by
  have hreverse : ((connectives.map Symbol.connective).reverse ++ emitted).Perm
      (emitted ++ connectives.map Symbol.connective) :=
    List.perm_append_comm.trans ((List.reverse_perm _).append_left emitted)
  rw [List.map_append, ← List.append_assoc]
  exact hreverse.append_right _

/-- A connective that starts to wait is one symbol more. -/
theorem perm_append_waiting (emitted : List (Symbol α)) (c : Connective)
    (first rest : List Connective) :
    (emitted ++ (first ++ c :: rest).map Symbol.connective).Perm
      (.connective c :: (emitted ++ (first ++ rest).map Symbol.connective)) := by
  rw [List.map_append, List.map_append, List.map_cons, ← List.append_assoc,
    ← List.append_assoc]
  exact List.perm_middle

/-- Each token adds its symbol, if it has one, to those held. -/
theorem held_of_step (h : state.step t = .ok next) :
    next.held.Perm (t.symbol?.toList ++ state.held) := by
  obtain ⟨a, rfl, rfl⟩ | ⟨c, rfl, rfl⟩ | ⟨rfl, rfl⟩ | ⟨outer, rest, rfl, hopen, rfl⟩ :=
    cases_of_step h
  · exact .refl _
  · have hemit := perm_emit_append state.emitted (state.pending.takeWhile c.yieldsTo)
      (c :: (state.pending.dropWhile c.yieldsTo ++ state.enclosing.flatten))
    have hmiddle := perm_append_waiting state.emitted c (state.pending.takeWhile c.yieldsTo)
      (state.pending.dropWhile c.yieldsTo ++ state.enclosing.flatten)
    rw [← List.append_assoc, List.takeWhile_append_dropWhile] at hmiddle
    exact hemit.trans hmiddle
  · exact .refl _
  · have hemit := perm_emit_append state.emitted state.pending (outer ++ rest.flatten)
    rw [held, held, hopen]
    exact hemit

/-- The symbols held are those of the tokens read. -/
theorem held_of_run (h : state.run tokens = .ok after) :
    after.held.Perm (tokens.filterMap Token.symbol? ++ state.held) := by
  induction tokens generalizing state with
  | nil =>
      cases h
      exact .refl _
  | cons t rest ih =>
      rw [run_cons] at h
      obtain ⟨next, hstep, hrest⟩ := bind_eq_ok_iff.mp h
      have hheld := (ih hrest).trans ((held_of_step hstep).append_left _)
      have hfront : (rest.filterMap Token.symbol? ++ (t.symbol?.toList ++ state.held)).Perm
          (t.symbol?.toList ++ (rest.filterMap Token.symbol? ++ state.held)) :=
        List.perm_append_comm_assoc _ _ _
      have hsymbols : (t :: rest).filterMap Token.symbol? =
          t.symbol?.toList ++ rest.filterMap Token.symbol? := by
        cases hs : t.symbol? <;> simp [hs]
      rw [hsymbols, List.append_assoc]
      exact hheld.trans hfront

theorem held_of_finish {row : List (Symbol α)} (h : state.finish = .ok row) :
    row.Perm state.held := by
  obtain ⟨hclosed, rfl⟩ := finish_eq_ok_iff.mp h
  have hemit := perm_emit_append state.emitted state.pending []
  rw [List.map_nil, List.append_nil] at hemit
  rw [held, hclosed]
  exact (List.reverse_perm _).trans hemit

end Reordering

/-- Reordering loses, doubles and invents no symbol. -/
theorem perm_of_toPostfix {tokens : List (Token α)} {row : List (Symbol α)}
    (h : toPostfix tokens = .ok row) : row.Perm (tokens.filterMap Token.symbol?) := by
  obtain ⟨after, hrun, hfinish⟩ := bind_eq_ok_iff.mp h
  have hheld := (Reordering.held_of_finish hfinish).trans (Reordering.held_of_run hrun)
  simpa [Reordering.held] using hheld

namespace Symbol

/-- Whether a symbol is an atom. -/
def isAtom : Symbol α → Bool
  | atom _ => true
  | connective _ => false

/-- Whether a symbol is a connective with two operands. -/
def isBinary : Symbol α → Bool
  | atom _ => false
  | connective c => c.arity == 2

end Symbol

/-- A formula has one atom more than it has binary connectives. -/
theorem Formula.countP_isAtom_symbols (f : Formula α) :
    f.symbols.countP Symbol.isAtom = f.symbols.countP Symbol.isBinary + 1 := by
  induction f with
  | atom a => rfl
  | neg f ih => simpa [symbols, Symbol.isAtom, Symbol.isBinary, Connective.arity] using ih
  | conj l r ihl ihr =>
      simp only [symbols, List.countP_append, ihl, ihr]
      simp [Symbol.isAtom, Symbol.isBinary, Connective.arity]
      omega
  | disj l r ihl ihr =>
      simp only [symbols, List.countP_append, ihl, ihr]
      simp [Symbol.isAtom, Symbol.isBinary, Connective.arity]
      omega

end Sentential
