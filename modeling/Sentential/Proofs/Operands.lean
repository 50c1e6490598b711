/-
Operands in context.  Reading tokens leaves what was emitted before and what waits
outside open parentheses as it is, so any row of tokens between parentheses, well
formed or not, is put where an atom in its place would be; and atoms come out in the
order in which they were read.
-/
import Sentential.Formula.Infix
import Sentential.Postfix

namespace Sentential

variable {α : Type}

namespace Reordering

variable {state next after : Reordering α} {t : Token α} {tokens : List (Token α)}

/-- The state with symbols emitted before it and parentheses open around it. -/
def within (state : Reordering α) (emitted : List (Symbol α))
    (outer : List (List Connective)) : Reordering α :=
  { state with
    emitted := state.emitted ++ emitted
    enclosing := state.enclosing ++ outer }

theorem emit_append_left (emitted before : List (Symbol α)) (connectives : List Connective) :
    emit (emitted ++ before) connectives = emit emitted connectives ++ before := by
  simp [emit]

/-- A token that can be read by itself is read in the same way within others. -/
theorem step_within (h : state.step t = .ok next) (emitted : List (Symbol α))
    (outer : List (List Connective)) :
    (state.within emitted outer).step t = .ok (next.within emitted outer) := by
  obtain ⟨a, rfl, rfl⟩ | ⟨c, rfl, rfl⟩ | ⟨rfl, rfl⟩ | ⟨innermost, rest, rfl, hopen, rfl⟩ :=
    cases_of_step h
  · rfl
  · simp only [step, within, emit_append_left]
  · rfl
  · simp only [step, within, hopen, List.cons_append, emit_append_left]

theorem run_within (h : state.run tokens = .ok after) (emitted : List (Symbol α))
    (outer : List (List Connective)) :
    (state.within emitted outer).run tokens = .ok (after.within emitted outer) := by
  induction tokens generalizing state with
  | nil =>
      cases h
      rfl
  | cons t rest ih =>
      rw [run_cons] at h ⊢
      obtain ⟨next, hstep, hrest⟩ := bind_eq_ok_iff.mp h
      rw [step_within hstep emitted outer]
      exact ih hrest

/-- What was emitted before has no bearing on how tokens are read. -/
theorem step_after (state : Reordering α) (t : Token α) (before : List (Symbol α)) :
    (state.within before []).step t = (state.step t).map (·.within before []) := by
  cases hstep : state.step t with
  | ok next => exact step_within hstep before []
  | error e =>
      have hclosing := step_eq_error_iff.mp hstep
      exact step_eq_error_iff.mpr ⟨hclosing.1, by simp [within, hclosing.2.1], hclosing.2.2⟩

theorem run_after (state : Reordering α) (tokens : List (Token α))
    (before : List (Symbol α)) :
    (state.within before []).run tokens = (state.run tokens).map (·.within before []) := by
  induction tokens generalizing state with
  | nil => rfl
  | cons t rest ih =>
      rw [run_cons, run_cons, step_after]
      cases hstep : state.step t with
      | error e => rfl
      | ok next => exact ih next

theorem finish_after (state : Reordering α) (before : List (Symbol α)) :
    (state.within before []).finish = state.finish.map (before.reverse ++ ·) := by
  obtain ⟨emitted, pending, enclosing⟩ := state
  cases enclosing with
  | nil =>
      simp only [finish, within, List.append_nil, emit_append_left, List.reverse_append]
      rfl
  | cons innermost rest => rfl

theorem run_bind_finish_after (state : Reordering α) (tokens : List (Token α))
    (before : List (Symbol α)) :
    ((state.within before []).run tokens >>= finish) =
      (state.run tokens >>= finish).map (before.reverse ++ ·) := by
  rw [run_after]
  cases state.run tokens with
  | error e => rfl
  | ok last => exact finish_after last before

/-- Connectives emitted among atoms leave the atoms as they are. -/
@[simp] theorem filterMap_atom?_emit (emitted : List (Symbol α))
    (connectives : List Connective) :
    (emit emitted connectives).filterMap Symbol.atom? = emitted.filterMap Symbol.atom? := by
  have hnone : ((connectives.map Symbol.connective).reverse : List (Symbol α)).filterMap
      Symbol.atom? = [] := by
    rw [List.filterMap_eq_nil_iff]
    simp
  rw [emit, List.filterMap_append, hnone, List.nil_append]

/-- Atoms are emitted as they are read. -/
theorem filterMap_atom?_of_step (h : state.step t = .ok next) :
    next.emitted.reverse.filterMap Symbol.atom? =
      state.emitted.reverse.filterMap Symbol.atom? ++ t.atom?.toList := by
  obtain ⟨a, rfl, rfl⟩ | ⟨c, rfl, rfl⟩ | ⟨rfl, rfl⟩ | ⟨_, _, rfl, _, rfl⟩ := cases_of_step h
  · simp
  · simp
  · simp
  · simp

theorem filterMap_atom?_of_run (h : state.run tokens = .ok after) :
    after.emitted.reverse.filterMap Symbol.atom? =
      state.emitted.reverse.filterMap Symbol.atom? ++ tokens.filterMap Token.atom? := by
  induction tokens generalizing state with
  | nil =>
      cases h
      simp
  | cons t rest ih =>
      rw [run_cons] at h
      obtain ⟨next, hstep, hrest⟩ := bind_eq_ok_iff.mp h
      rw [ih hrest, filterMap_atom?_of_step hstep, List.append_assoc]
      congr 1
      cases hatom : t.atom? <;> simp [hatom]

theorem filterMap_atom?_of_finish {row : List (Symbol α)} (h : state.finish = .ok row) :
    row.filterMap Symbol.atom? = state.emitted.reverse.filterMap Symbol.atom? := by
  obtain ⟨_, rfl⟩ := finish_eq_ok_iff.mp h
  simp

end Reordering

/-- Reordering leaves the atoms in their order. -/
theorem filterMap_atom?_of_toPostfix {tokens : List (Token α)} {row : List (Symbol α)}
    (h : toPostfix tokens = .ok row) :
    row.filterMap Symbol.atom? = tokens.filterMap Token.atom? := by
  obtain ⟨after, hrun, hfinish⟩ := bind_eq_ok_iff.mp h
  rw [Reordering.filterMap_atom?_of_finish hfinish, Reordering.filterMap_atom?_of_run hrun]
  rfl

/-- Tokens that are read, wherever they stand, by putting symbols after those already
emitted. -/
def Operand (tokens : List (Token α)) (row : List (Symbol α)) : Prop :=
  ∀ state : Reordering α,
    state.run tokens = .ok { state with emitted := row.reverse ++ state.emitted }

theorem operand_atom (a : α) : Operand [.symbol (.atom a)] [.atom a] := fun _ => rfl

/-- Tokens between parentheses are an operand, whether they list a formula or not. -/
theorem operand_enclose {tokens : List (Token α)} {row : List (Symbol α)}
    (h : toPostfix tokens = .ok row) : Operand (enclose tokens) row := by
  intro state
  obtain ⟨last, hrun, hfinish⟩ := bind_eq_ok_iff.mp h
  obtain ⟨hclosed, rfl⟩ := Reordering.finish_eq_ok_iff.mp hfinish
  have hinner := Reordering.run_within hrun state.emitted (state.pending :: state.enclosing)
  have hclosing : (last.within state.emitted (state.pending :: state.enclosing)).step .closing =
      .ok { state with
        emitted := Reordering.emit last.emitted last.pending ++ state.emitted } := by
    simp only [Reordering.step, Reordering.within, hclosed, List.nil_append,
      Reordering.emit_append_left]
  change Reordering.run (Reordering.within {} _ _) (tokens ++ [.closing]) = _
  rw [Reordering.run_append, hinner, List.reverse_reverse]
  change Reordering.run _ [.closing] = _
  rw [Reordering.run_cons, hclosing]
  rfl

/-- The symbols before and after an operand between other tokens.  The connectives
that wait where the operand stands are emitted after it. -/
def surroundings (left right : List (Token α)) :
    Except ReadError (List (Symbol α) × List (Symbol α)) := do
  let state ← Reordering.run {} left
  let after ← Reordering.run { state with emitted := [] } right >>= Reordering.finish
  return (state.emitted.reverse, after)

theorem filterMap_atom?_of_surroundings {left right : List (Token α)}
    {around : List (Symbol α) × List (Symbol α)} (h : surroundings left right = .ok around) :
    around.1.filterMap Symbol.atom? = left.filterMap Token.atom? ∧
      around.2.filterMap Symbol.atom? = right.filterMap Token.atom? := by
  obtain ⟨state, hleft, hrest⟩ := bind_eq_ok_iff.mp h
  obtain ⟨after, hafter, hpair⟩ := bind_eq_ok_iff.mp hrest
  obtain ⟨last, hright, hfinish⟩ := bind_eq_ok_iff.mp hafter
  cases hpair
  constructor
  · exact Reordering.filterMap_atom?_of_run hleft
  · rw [Reordering.filterMap_atom?_of_finish hfinish,
      Reordering.filterMap_atom?_of_run hright]
    rfl

/-- Only the symbols of an operand bear on the symbols of the tokens it stands in. -/
theorem Operand.toPostfix_eq {tokens : List (Token α)} {row : List (Symbol α)}
    (h : Operand tokens row) (left right : List (Token α)) :
    toPostfix (left ++ tokens ++ right) =
      (surroundings left right).map fun around => around.1 ++ row ++ around.2 := by
  rw [toPostfix, List.append_assoc, Reordering.run_append, surroundings]
  cases Reordering.run {} left with
  | error e => rfl
  | ok state =>
      have hstate : { state with emitted := row.reverse ++ state.emitted } =
          Reordering.within { state with emitted := [] } (row.reverse ++ state.emitted) [] := by
        simp [Reordering.within]
      change (state.run (tokens ++ right) >>= Reordering.finish) =
        Except.map _ (Reordering.run { state with emitted := [] } right >>=
          Reordering.finish >>= fun after => Except.ok (state.emitted.reverse, after))
      rw [Reordering.run_append, h state]
      change (Reordering.run _ right >>= Reordering.finish) = _
      rw [hstate, Reordering.run_bind_finish_after]
      cases Reordering.run { state with emitted := [] } right >>= Reordering.finish with
      | error e => rfl
      | ok after =>
          change Except.ok _ = Except.ok _
          rw [List.reverse_append, List.reverse_reverse]

/-- A connective before parentheses comes after what they enclose. -/
theorem toPostfix_connective_enclose {u : List (Token α)} {l : List (Symbol α)}
    (hu : toPostfix u = .ok l) (c : Connective) :
    toPostfix (.symbol (.connective c) :: enclose u) = .ok (l ++ [.connective c]) := by
  have h := (operand_enclose hu).toPostfix_eq [.symbol (.connective c)] []
  rw [List.append_nil] at h
  exact h

/-- A connective between parentheses comes after what both enclose. -/
theorem toPostfix_enclose_connective_enclose {u v : List (Token α)} {l r : List (Symbol α)}
    (hu : toPostfix u = .ok l) (hv : toPostfix v = .ok r) (c : Connective) :
    toPostfix (enclose u ++ .symbol (.connective c) :: enclose v) =
      .ok (l ++ r ++ [.connective c]) := by
  have hleft : Reordering.run {} (enclose u ++ [.symbol (.connective c)]) =
      .ok ⟨l.reverse, [c], []⟩ := by
    rw [Reordering.run_append, operand_enclose hu, List.append_nil]
    rfl
  have haround : surroundings (enclose u ++ [.symbol (.connective c)]) [] =
      .ok (l, [.connective c]) := by
    rw [surroundings, hleft]
    change Except.ok (l.reverse.reverse, _) = _
    rw [List.reverse_reverse]
    rfl
  have h := (operand_enclose hv).toPostfix_eq (enclose u ++ [.symbol (.connective c)]) []
  rw [haround, List.append_nil, List.append_assoc] at h
  exact h

end Sentential
