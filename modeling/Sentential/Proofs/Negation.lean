/-
Negated texts.  The negation of what is read as a sentence, well formed or not, has the
opposite value under every assignment that gives the sentence one, and the same error under
all others: a negation takes one value off the stack and puts one back, so it neither
repairs nor spoils a row of symbols.  The outcomes are therefore flipped one by one, and
what is valid becomes what is not satisfiable.
-/
import Sentential.Proofs.Embedding
import Sentential.Proofs.TruthTable

namespace Sentential

variable {α β : Type}

/-- A negation at the end turns the value of the symbols before it.  Where these leave no
value, or more than one, the negation leaves as many. -/
theorem Interpretation.value_append_negation (meaning : Interpretation α β)
    (row : List (Symbol α)) :
    meaning.value (row ++ [.connective .negation]) =
      (meaning.value row).map meaning.negation := by
  rw [value, value, run_append]
  cases meaning.run [] row with
  | error e => rfl
  | ok stack => rcases stack with _ | ⟨x, _ | ⟨y, below⟩⟩ <;> rfl

namespace Sentence

/-- The sentence with a negation after its symbols. -/
def negated (s : Sentence) : Sentence := ⟨s.symbols ++ [.connective .negation]⟩

theorem vocabulary_negated (s : Sentence) : s.negated.vocabulary = s.vocabulary := by
  have hatoms : s.negated.occurrences = s.occurrences := by
    rw [occurrences, negated, List.filterMap_append]
    exact List.append_nil s.occurrences
  rw [vocabulary, hatoms, vocabulary]

/-- Whatever the assignment, the negation has the opposite value or the same error. -/
theorem evaluate_negated (s : Sentence) (a : Assignment) :
    s.negated.evaluate a = (s.evaluate a).map (!·) := by
  rw [evaluate, evaluate, vocabulary_negated]
  cases a.requireWithin s.vocabulary.toSet with
  | error e => rfl
  | ok _ => exact a.valuation.value_append_negation s.symbols

end Sentence

/-- The properties of a negation: what is true nowhere becomes true everywhere. -/
def Properties.negated (properties : Properties) : Properties where
  valid := !properties.satisfiable
  satisfiable := !properties.valid
  contingent := properties.contingent

theorem Properties.ofOutcomes_map_not (outcomes : List Bool) :
    ofOutcomes (outcomes.map (!·)) = (ofOutcomes outcomes).negated := by
  have hvalid : (outcomes.map (!·)).all id = !outcomes.any id := by
    rw [List.all_map, List.not_any_eq_all_not]
    rfl
  have hsatisfiable : (outcomes.map (!·)).any id = !outcomes.all id := by
    rw [List.any_map, List.not_all_eq_any_not]
    rfl
  simp only [ofOutcomes, negated, hvalid, hsatisfiable, Bool.not_not, Bool.and_comm]

namespace Proposition

variable (s : Sentence)

/-- The outcomes of a negation are those of the sentence, each turned. -/
theorem outcomes_negated :
    (sentence s.negated).outcomes = (sentence s).outcomes.map (List.map (!·)) := by
  have hquery := (sentence s).query_eq_map_truthTable fun _ b => some (!b)
  have hsame : (sentence s.negated).outcomes = (sentence s).assignments >>= fun e =>
      e.filterMapM fun a => return some (!(← (sentence s).evaluate a)) := by
    have hvalue : ∀ a : Assignment,
        (do return some (← s.negated.evaluate a) : Except EvaluationError (Option Bool)) =
          do return some (!(← s.evaluate a)) := by
      intro a
      rw [s.evaluate_negated]
      cases s.evaluate a <;> rfl
    rw [outcomes, assignments, assignments, vocabulary, vocabulary, s.vocabulary_negated]
    simp only [evaluate, hvalue]
  rw [hsame, hquery, outcomes_eq_map_truthTable]
  cases (sentence s).truthTable with
  | error e => rfl
  | ok table => simp [Except.map]

theorem properties_negated :
    (sentence s.negated).properties = (sentence s).properties.map Properties.negated := by
  rw [properties, properties, outcomes_negated]
  cases (sentence s).outcomes with
  | error e => rfl
  | ok outcomes => exact congrArg Except.ok (Properties.ofOutcomes_map_not outcomes)

/-- A negation is valid just when the sentence is not satisfiable, and the sentence just
when the negation is not. -/
theorem valid_negated_iff :
    ((sentence s.negated).valid = .ok true ↔ (sentence s).satisfiable = .ok false) ∧
      ((sentence s).valid = .ok true ↔ (sentence s.negated).satisfiable = .ok false) := by
  simp only [valid, satisfiable, properties_negated]
  cases (sentence s).properties with
  | error e => simp [Except.map]
  | ok properties => simp [Except.map, Properties.negated]

/-- The outcomes fail for the same causes as the truth table. -/
theorem outcomes_eq_error_iff {p : Proposition} {e : EvaluationError} :
    p.outcomes = .error e ↔
      (64 ≤ p.vocabulary.size ∧ e = .tooManyVariables p.vocabulary.size) ∨
        (p.vocabulary.size < 64 ∧ ¬ p.WellFormed ∧ e = .malformedExpression) := by
  rw [outcomes_eq_map_truthTable, map_eq_error_iff]
  exact truthTable_eq_error_iff

end Proposition

open Proposition in
/-- A text that was read as a sentence, well formed or not, is also read between the
parentheses of a negation.  The outcomes of the negation are those of the sentence, each
turned, or fail with the same error, which is that of too many variables or of a malformed
sentence; so the one is valid just when the other is not satisfiable. -/
theorem outcomes_of_negated_text {later : Registry} {inner : String} {s : Sentence}
    {result : Except ReadError Sentence} (hinner : later.HasRead inner (.ok s))
    (hresult : later.HasRead ("~(" ++ inner ++ ")") result) :
    ∃ n : Sentence, result = .ok n ∧
      (sentence n).outcomes = (sentence s).outcomes.map (List.map (!·)) ∧
      (∀ e, (sentence n).outcomes = .error e ↔
        (64 ≤ s.vocabulary.size ∧ e = .tooManyVariables s.vocabulary.size) ∨
          (s.vocabulary.size < 64 ∧ ¬ s.WellFormed ∧ e = .malformedExpression)) ∧
      ((sentence n).valid = .ok true ↔ (sentence s).satisfiable = .ok false) ∧
      ((sentence s).valid = .ok true ↔ (sentence n).satisfiable = .ok false) := by
  have houtcomes := outcomes_negated s
  have herror : ∀ e, (sentence s.negated).outcomes = .error e ↔
      (sentence s).outcomes = .error e := by
    intro e
    rw [houtcomes, map_eq_error_iff]
  obtain ⟨hvalid, hsatisfiable⟩ := valid_negated_iff s
  exact ⟨s.negated, hinner.negated hresult, houtcomes,
    fun e => (herror e).trans outcomes_eq_error_iff, hvalid, hsatisfiable⟩

/-- Two operands in a row and the connective after them, and then a connective that lacks an
operand. -/
theorem outcomes_of_negated_postfix_text :
    let first := (Registry.empty.parse "é b|").2
    let second := (first.parse "~(é b|)").2
    let third := (second.parse "b&").2
    let s : Sentence := ⟨[.atom ⟨'é', 128⟩, .atom ⟨'b', 98⟩, .connective .disjunction]⟩
    let dangling : Sentence := ⟨[.atom ⟨'b', 98⟩, .connective .conjunction]⟩
    (Registry.empty.parse "é b|").1 = .ok s ∧ (second.parse "b&").1 = .ok dangling ∧
      (∃ n, (first.parse "~(é b|)").1 = .ok n ∧
        (Proposition.sentence n).outcomes = .ok [true, false, false, false]) ∧
      ∃ n, (third.parse "~(b&)").1 = .ok n ∧
        (Proposition.sentence n).outcomes = .error .malformedExpression := by
  intro first second third s dangling
  have hs : (Registry.empty.parse "é b|").1 = .ok s := by decide +kernel
  have hdangling : (second.parse "b&").1 = .ok dangling := by decide +kernel
  have houtcomes : (Proposition.sentence s).outcomes = .ok [false, true, true, true] := by
    decide +kernel
  have hmalformed : (Proposition.sentence dangling).outcomes = .error .malformedExpression := by
    decide +kernel
  have hread : second.HasRead "é b|" (.ok s) :=
    hs ▸ (Registry.empty.hasRead_parse "é b|").of_extends (first.extends_parse "~(é b|)")
  have hreadDangling : (third.parse "~(b&)").2.HasRead "b&" (.ok dangling) :=
    hdangling ▸ (second.hasRead_parse "b&").of_extends (third.extends_parse "~(b&)")
  obtain ⟨n, hn, hturned, _⟩ :=
    outcomes_of_negated_text hread (first.hasRead_parse "~(é b|)")
  obtain ⟨m, hm, hsame, _⟩ :=
    outcomes_of_negated_text hreadDangling (third.hasRead_parse "~(b&)")
  rw [houtcomes] at hturned
  rw [hmalformed] at hsame
  exact ⟨hs, hdangling, ⟨n, hn, hturned⟩, m, hm, hsame⟩

end Sentential
