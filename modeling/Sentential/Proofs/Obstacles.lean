/-
Obstacles to an evaluation.  A variable with a value that the sentence does not use is found
before any symbol is read.  After that the symbols themselves tell where an evaluation stops:
the stack holds a value for each atom read, less one for each binary connective, so counting
shows which connective is the first to lack operands, and which variable without a value is
met before it.
-/
import Sentential.Proofs.Conservation
import Sentential.Proofs.Malformed

namespace Sentential

variable {α β : Type}

namespace Interpretation

variable {meaning : Interpretation α β} {stack next last : List β} {s : Symbol α}
  {row : List (Symbol α)}

/-- An atom adds a value, a binary connective leaves one value less. -/
theorem length_of_step (h : meaning.step stack s = .ok next) :
    next.length + [s].countP Symbol.isBinary = stack.length + [s].countP Symbol.isAtom := by
  obtain ⟨a, x, rfl, _, rfl⟩ | ⟨x, rest, rfl, rfl, rfl⟩ | ⟨x, y, rest, rfl, rfl, rfl⟩ |
    ⟨x, y, rest, rfl, rfl, rfl⟩ := cases_of_step h
  · rfl
  · rfl
  · rfl
  · rfl

/-- The number of values on the stack is told by counting symbols. -/
theorem length_of_run (h : meaning.run stack row = .ok last) :
    last.length + row.countP Symbol.isBinary = stack.length + row.countP Symbol.isAtom := by
  induction row generalizing stack with
  | nil =>
      cases h
      rfl
  | cons s rest ih =>
      rw [run_cons] at h
      obtain ⟨next, hstep, hrest⟩ := bind_eq_ok_iff.mp h
      have hone := length_of_step hstep
      have hmore := ih hrest
      rw [← List.singleton_append, List.countP_append, List.countP_append]
      omega

/-- A single value is the result, and any other number of values is malformed. -/
theorem value_of_run (h : meaning.run [] row = .ok last) :
    (last.length = 1 → ∃ x, meaning.value row = .ok x) ∧
      (last.length ≠ 1 → meaning.value row = .error .malformedExpression) := by
  rw [value, h]
  rcases last with _ | ⟨x, _ | ⟨y, rest⟩⟩
  · constructor
    · intro hlength
      cases hlength
    · intro _
      rfl
  · constructor
    · intro _
      exact ⟨x, rfl⟩
    · intro hlength
      exact absurd rfl hlength
  · constructor
    · intro hlength
      cases hlength
    · intro _
      rfl

end Interpretation

namespace Assignment

/-- The error of a symbol that cannot be evaluated after a row of others: a variable has no
value, or the row leaves fewer values than a connective has operands. -/
def obstacle? (a : Assignment) (before : List (Symbol Variable)) :
    Symbol Variable → Option EvaluationError
  | .atom v => if a.contains v then none else some (.undefinedVariable v)
  | .connective c =>
      if before.countP Symbol.isAtom < before.countP Symbol.isBinary + c.arity then
        some .malformedExpression
      else none

/-- The error of the symbol at a position of a row. -/
def obstacleAt? (a : Assignment) (row : List (Symbol Variable)) (position : Nat) :
    Option EvaluationError :=
  row[position]?.bind (a.obstacle? (row.take position))

variable {a : Assignment} {row : List (Symbol Variable)} {stack : List Bool}
  {e : EvaluationError}

theorem value_eq_error_iff {v : Variable} :
    a.value v = .error e ↔ a.contains v = false ∧ .undefinedVariable v = e := by
  rw [contains_eq_isSome_get?, value]
  cases a.get? v <;> simp

/-- A symbol stops the evaluation just when it is an obstacle. -/
theorem step_eq_error_iff {before : List (Symbol Variable)} {s : Symbol Variable}
    (h : a.valuation.run [] before = .ok stack) :
    a.valuation.step stack s = .error e ↔ a.obstacle? before s = some e := by
  have hlength := Interpretation.length_of_run h
  rw [List.length_nil, Nat.zero_add] at hlength
  rw [Interpretation.step_eq_error_iff]
  cases s with
  | atom v => cases hv : a.contains v <;> simp [valuation, value_eq_error_iff, obstacle?, hv]
  | connective c =>
      have hcount : stack.length < c.arity ↔
          before.countP Symbol.isAtom < before.countP Symbol.isBinary + c.arity := by
        omega
      simp [obstacle?, hcount, eq_comm]

/-- Symbols are read as long as none is an obstacle. -/
theorem exists_run_take {position : Nat}
    (h : ∀ earlier < position, a.obstacleAt? row earlier = none) :
    ∃ stack, a.valuation.run [] (row.take position) = .ok stack := by
  induction position with
  | zero => exact ⟨[], rfl⟩
  | succ position ih =>
      obtain ⟨stack, hstack⟩ := ih fun earlier hearlier => h earlier (Nat.lt_succ_of_lt hearlier)
      have hlast := h position (Nat.lt_succ_self position)
      rw [obstacleAt?] at hlast
      cases hs : row[position]? with
      | none =>
          -- The row ends before the position, so nothing more is read.
          rw [List.take_add_one, hs]
          exact ⟨stack, by simpa using hstack⟩
      | some s =>
          rw [hs] at hlast
          cases hstep : a.valuation.step stack s with
          | ok next =>
              refine ⟨next, ?_⟩
              rw [List.take_add_one, hs, Interpretation.run_append, hstack]
              change a.valuation.run stack [s] = _
              rw [Interpretation.run_cons, hstep]
              rfl
          | error e =>
              have hobstacle := (step_eq_error_iff hstack).mp hstep
              rw [Option.bind_some, hobstacle] at hlast
              cases hlast

/-- The first obstacle is the error of the row. -/
theorem value_of_first_obstacle {position : Nat} (hfirst : a.obstacleAt? row position = some e)
    (hearlier : ∀ earlier < position, a.obstacleAt? row earlier = none) :
    a.valuation.value row = .error e := by
  obtain ⟨stack, hstack⟩ := exists_run_take hearlier
  obtain ⟨s, hs, hobstacle⟩ := Option.bind_eq_some_iff.mp hfirst
  have hstep := (step_eq_error_iff hstack).mpr hobstacle
  obtain ⟨hposition, rfl⟩ := List.getElem?_eq_some_iff.mp hs
  have hrow : row = row.take position ++ row[position] :: row.drop (position + 1) := by
    rw [List.getElem_cons_drop, List.take_append_drop]
  have hrun : a.valuation.run [] row = .error e := by
    rw [hrow, Interpretation.run_append, hstack]
    change a.valuation.run stack _ = _
    rw [Interpretation.run_cons, hstep]
    rfl
  rw [Interpretation.value, hrun]
  rfl

/-- Without an obstacle, counting tells whether a single value is left. -/
theorem value_of_no_obstacle (h : ∀ position, a.obstacleAt? row position = none) :
    (row.countP Symbol.isAtom = row.countP Symbol.isBinary + 1 →
        ∃ b, a.valuation.value row = .ok b) ∧
      (row.countP Symbol.isAtom ≠ row.countP Symbol.isBinary + 1 →
        a.valuation.value row = .error .malformedExpression) := by
  have hearlier : ∀ earlier < row.length, a.obstacleAt? row earlier = none :=
    fun earlier _ => h earlier
  obtain ⟨stack, hstack⟩ := exists_run_take hearlier
  rw [List.take_length] at hstack
  have hlength := Interpretation.length_of_run hstack
  rw [List.length_nil, Nat.zero_add] at hlength
  obtain ⟨hsingle, hother⟩ := Interpretation.value_of_run hstack
  exact ⟨fun hcount => hsingle (by omega), fun hcount => hother (by omega)⟩

end Assignment

namespace Sentence

/-- A variable that has a value although the sentence does not use it. -/
def Unused (s : Sentence) (a : Assignment) (v : Variable) : Prop :=
  a.contains v = true ∧ v ∉ s.occurrences

variable {s : Sentence} {a : Assignment}

theorem mem_sdiff_vocabulary_iff {v : Variable} :
    v ∈ a.domain \ s.vocabulary.toSet ↔ s.Unused a v := by
  rw [VariableSet.mem_sdiff, Assignment.mem_domain, Vocabulary.mem_toSet, vocabulary,
    Vocabulary.mem_ofList, Unused, Assignment.contains_eq_isSome_get?]

/-- Of the variables that have a value in vain, the one with the lowest number is the
error. -/
theorem evaluate_of_unused {v : Variable} (hv : s.Unused a v) :
    ∃ first, s.Unused a first ∧ (∀ w, s.Unused a w → first.number ≤ w.number) ∧
      s.evaluate a = .error (.unexpectedVariable first) := by
  cases hfirst : (a.domain \ s.vocabulary.toSet).first? with
  | none =>
      have hextra := mem_sdiff_vocabulary_iff.mpr hv
      rw [← VariableSet.mem_toList, List.head?_eq_none_iff.mp hfirst] at hextra
      cases hextra
  | some first =>
      obtain ⟨hmem, hlowest⟩ := VariableSet.number_le_of_first? hfirst
      refine ⟨first, mem_sdiff_vocabulary_iff.mp hmem, fun w hw => ?_, ?_⟩
      · exact hlowest w (mem_sdiff_vocabulary_iff.mpr hw)
      · rw [evaluate, Assignment.requireWithin, hfirst]
        rfl

/-- If there is none, the symbols decide. -/
theorem evaluate_of_forall_not_unused (h : ∀ v, ¬ s.Unused a v) :
    s.evaluate a = a.valuation.value s.symbols := by
  have hwithin : a.requireWithin s.vocabulary.toSet = .ok () := by
    apply Assignment.requireWithin_eq_ok
    intro v hv
    by_contra hnot
    exact h v (mem_sdiff_vocabulary_iff.mp (VariableSet.mem_sdiff.mpr ⟨hv, hnot⟩))
  rw [evaluate, hwithin]
  rfl

/-- What an evaluation comes to.  A variable with a value that the sentence does not use is
the error whatever else is wrong; otherwise the first obstacle is; and without an obstacle
the numbers of atoms and of binary connectives tell whether there is a value.  Up to the
first obstacle the counts are those of the values that are really there. -/
theorem evaluate_by_first_obstacle (s : Sentence) (a : Assignment) :
    (∀ v, s.Unused a v → ∃ first, s.Unused a first ∧
        (∀ w, s.Unused a w → first.number ≤ w.number) ∧
        s.evaluate a = .error (.unexpectedVariable first)) ∧
      ((∀ v, ¬ s.Unused a v) →
        (∀ position e, a.obstacleAt? s.symbols position = some e →
            (∀ earlier < position, a.obstacleAt? s.symbols earlier = none) →
              s.evaluate a = .error e) ∧
          ((∀ position, a.obstacleAt? s.symbols position = none) →
            (s.symbols.countP Symbol.isAtom = s.symbols.countP Symbol.isBinary + 1 →
                ∃ b, s.evaluate a = .ok b) ∧
              (s.symbols.countP Symbol.isAtom ≠ s.symbols.countP Symbol.isBinary + 1 →
                s.evaluate a = .error .malformedExpression))) ∧
      ∀ position, (∀ earlier < position, a.obstacleAt? s.symbols earlier = none) →
        ∃ stack, a.valuation.run [] (s.symbols.take position) = .ok stack ∧
          stack.length + (s.symbols.take position).countP Symbol.isBinary =
            (s.symbols.take position).countP Symbol.isAtom := by
  refine ⟨fun v hv => evaluate_of_unused hv, fun hnone => ?_, fun position hearlier => ?_⟩
  · rw [evaluate_of_forall_not_unused hnone]
    refine ⟨fun position e hfirst hearlier => ?_, fun hclear => ?_⟩
    · exact Assignment.value_of_first_obstacle hfirst hearlier
    · exact Assignment.value_of_no_obstacle hclear
  · obtain ⟨stack, hstack⟩ := Assignment.exists_run_take hearlier
    exact ⟨stack, hstack, by simpa using Interpretation.length_of_run hstack⟩

/-- A conjunction that lacks an operand is met before a variable that has no value. -/
theorem evaluate_of_early_conjunction :
    let a : Variable := ⟨'a', 97⟩
    let b : Variable := ⟨'b', 98⟩
    let s : Sentence := ⟨[.atom a, .connective .conjunction, .atom b]⟩
    let given : Assignment := .ofPairs [(a, true)]
    (∀ v, ¬ s.Unused given v) ∧ given.obstacleAt? s.symbols 0 = none ∧
      given.obstacleAt? s.symbols 1 = some .malformedExpression ∧
      given.obstacleAt? s.symbols 2 = some (.undefinedVariable b) ∧
      s.evaluate given = .error .malformedExpression := by
  intro a b s given
  have hused : ∀ v, ¬ s.Unused given v := by
    rintro v ⟨hvalue, hunused⟩
    have hv : v = a := by
      simpa [Assignment.contains_eq_isSome_get?, given, Assignment.ofPairs] using hvalue
    rw [hv] at hunused
    exact hunused (by decide)
  have hclear : given.obstacleAt? s.symbols 0 = none := by decide +kernel
  have hfirst : given.obstacleAt? s.symbols 1 = some .malformedExpression := by decide +kernel
  obtain ⟨_, hsymbols, _⟩ := evaluate_by_first_obstacle s given
  obtain ⟨hobstacle, _⟩ := hsymbols hused
  refine ⟨hused, hclear, hfirst, by decide +kernel, hobstacle 1 _ hfirst ?_⟩
  intro earlier hearlier
  rw [Nat.lt_one_iff.mp hearlier]
  exact hclear

end Sentence

end Sentential
