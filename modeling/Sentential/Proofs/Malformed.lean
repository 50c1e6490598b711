/-
Malformed rows of symbols.  Over values that all its atoms have, a row of symbols has
the value of the formula it lists, and lacks operands if it lists none; so a
proposition that expresses no formula is malformed under every assignment of just its
variables, and each query stops at the first one.
-/
import Sentential.Proofs.Evaluation
import Sentential.Proofs.Queries

namespace Sentential

variable {ε α β : Type}

namespace Interpretation

variable {meaning : Interpretation α β} {stack : List β} {row : List (Symbol α)}
  {e : EvaluationError}

/-- Every atom of a row of symbols has a value. -/
def Covers (meaning : Interpretation α β) (row : List (Symbol α)) : Prop :=
  ∀ a ∈ row.filterMap Symbol.atom?, ∃ x, meaning.atom a = .ok x

/-- A symbol cannot be read just when it is an atom without a value or a connective that
lacks operands. -/
theorem step_eq_error_iff {s : Symbol α} :
    meaning.step stack s = .error e ↔
      (∃ a, s = .atom a ∧ meaning.atom a = .error e) ∨
        ∃ c, s = .connective c ∧ stack.length < c.arity ∧ e = .malformedExpression := by
  cases s with
  | atom a => simp [step, map_eq_error_iff]
  | connective c =>
      cases c <;> rcases stack with _ | ⟨x, _ | ⟨y, rest⟩⟩ <;>
        simp [step, Connective.arity, eq_comm]

theorem eq_malformed_of_run (hrow : meaning.Covers row)
    (h : meaning.run stack row = .error e) : e = .malformedExpression := by
  induction row generalizing stack with
  | nil => cases h
  | cons s rest ih =>
      rw [run_cons] at h
      cases hstep : meaning.step stack s with
      | error missing =>
          rw [hstep] at h
          cases h
          obtain ⟨a, rfl, ha⟩ | ⟨_, _, _, hmalformed⟩ := step_eq_error_iff.mp hstep
          · obtain ⟨x, hx⟩ := hrow a (by simp)
            rw [hx] at ha
            cases ha
          · exact hmalformed
      | ok next =>
          rw [hstep] at h
          refine ih (fun a ha => hrow a ?_) h
          obtain ⟨t, ht, hatom⟩ := List.mem_filterMap.mp ha
          exact List.mem_filterMap.mpr ⟨t, List.mem_cons_of_mem s ht, hatom⟩

/-- A row whose atoms all have values can only lack operands or operators. -/
theorem eq_malformed_of_value (hrow : meaning.Covers row)
    (h : meaning.value row = .error e) : e = .malformedExpression := by
  rw [value] at h
  cases hrun : meaning.run [] row with
  | error failure =>
      rw [hrun] at h
      cases h
      exact eq_malformed_of_run hrow hrun
  | ok last =>
      rw [hrun] at h
      cases last with
      | nil =>
          cases h
          rfl
      | cons x below =>
          cases below with
          | nil => cases h
          | cons y rest =>
              cases h
              rfl

end Interpretation

namespace Formula

variable {row : List (Symbol α)} {e : EvaluationError}

/-- Symbols that list no formula are malformed. -/
theorem ofSymbols_eq_error_iff :
    ofSymbols row = .error e ↔ (∀ f : Formula α, f.symbols ≠ row) ∧ e = .malformedExpression := by
  cases hrow : ofSymbols row with
  | ok f =>
      have hlisted := ofSymbols_eq_ok_iff.mp hrow
      exact ⟨nofun, fun h => absurd hlisted.symm (h.1 f)⟩
  | error failure =>
      have hcovers : construction.Covers row := fun a _ => ⟨.atom a, rfl⟩
      have hmalformed : failure = .malformedExpression :=
        Interpretation.eq_malformed_of_value hcovers hrow
      constructor
      · intro h
        cases h
        refine ⟨fun f hf => ?_, hmalformed⟩
        rw [ofSymbols_eq_ok_iff.mpr hf.symm] at hrow
        cases hrow
      · rintro ⟨_, rfl⟩
        rw [hmalformed]

theorem exists_ofSymbols_iff :
    (∃ f, ofSymbols row = .ok f) ↔ ∃ f : Formula α, f.symbols = row :=
  exists_congr fun _ => ofSymbols_eq_ok_iff.trans eq_comm

end Formula

/-- Over values that all its atoms have, a row of symbols means what the formula it lists
means. -/
theorem Interpretation.Covers.value_eq {meaning : Interpretation α β} {row : List (Symbol α)}
    (hrow : meaning.Covers row) :
    meaning.value row = Formula.ofSymbols row >>= meaning.ofFormula := by
  cases hlisted : Formula.ofSymbols row with
  | ok f =>
      rw [Formula.ofSymbols_eq_ok_iff.mp hlisted, value_symbols]
      rfl
  | error e =>
      obtain ⟨hnone, rfl⟩ := Formula.ofSymbols_eq_error_iff.mp hlisted
      cases hvalue : meaning.value row with
      | ok x =>
          obtain ⟨f, hf, _⟩ := value_eq_ok_iff.mp hvalue
          exact absurd hf (hnone f)
      | error failure =>
          rw [eq_malformed_of_value hrow hvalue]
          rfl

theorem filterMapM_eq_error {f : α → Except ε (Option β)} {l : List α} {e : ε}
    (hne : l ≠ []) (h : ∀ a ∈ l, f a = .error e) : l.filterMapM f = .error e := by
  cases l with
  | nil => exact absurd rfl hne
  | cons a rest =>
      rw [List.filterMapM_cons, h a List.mem_cons_self]
      rfl

theorem findM?_eq_error {p : α → Except ε Bool} {l : List α} {e : ε}
    (hne : l ≠ []) (h : ∀ a ∈ l, p a = .error e) : l.findM? p = .error e := by
  cases l with
  | nil => exact absurd rfl hne
  | cons a rest =>
      rw [List.findM?, h a List.mem_cons_self]
      rfl

theorem Enumeration.toList_ne_nil {l : Vocabulary} {e : Enumeration}
    (he : ofVocabulary l = .ok e) : e.toList ≠ [] := by
  have hmem : l.assign (fun _ => false) ∈ e.toList :=
    (mem_toList_ofVocabulary he).mpr Vocabulary.domain_assign
  exact List.ne_nil_of_mem hmem

theorem Enumeration.ofVocabulary_eq_error {l : Vocabulary} (h : ¬ l.size < positionBits) :
    ofVocabulary l = .error (.tooManyVariables l.size) := by
  rw [ofVocabulary, dif_neg h]

namespace Proposition

/-- The symbols of a proposition; a variable by itself is a single one. -/
def symbols : Proposition → List (Symbol Variable)
  | atom v => [.atom v]
  | sentence s => s.symbols

variable {p : Proposition} {a : Assignment}

theorem expresses_iff {f : Formula Variable} : p.Expresses f ↔ f.symbols = p.symbols := by
  cases p with
  | atom v =>
      change f = .atom v ↔ f.symbols = (Formula.atom v).symbols
      exact Formula.symbols_injective.eq_iff.symm
  | sentence s => exact eq_comm

/-- The symbols of a proposition list the formula that it expresses, or they list none. -/
theorem cases_of_symbols (p : Proposition) :
    (∃ f, p.Expresses f ∧ Formula.ofSymbols p.symbols = .ok f) ∨
      ((∀ f, ¬ p.Expresses f) ∧ Formula.ofSymbols p.symbols = .error .malformedExpression) := by
  cases hlisted : Formula.ofSymbols p.symbols with
  | ok f =>
      exact .inl ⟨f, expresses_iff.mpr (Formula.ofSymbols_eq_ok_iff.mp hlisted).symm, rfl⟩
  | error failure =>
      obtain ⟨hnone, rfl⟩ := Formula.ofSymbols_eq_error_iff.mp hlisted
      exact .inr ⟨fun f hf => hnone f (expresses_iff.mp hf), rfl⟩

theorem vocabulary_eq_ofList (p : Proposition) :
    p.vocabulary = .ofList (p.symbols.filterMap Symbol.atom?) := by
  cases p <;> rfl

/-- A row of symbols is covered by the assignments of its variables. -/
theorem covers_valuation (ha : a.domain = p.vocabulary.toSet) :
    a.valuation.Covers p.symbols := by
  intro v hv
  have hdomain : v ∈ a.domain := by
    rw [ha, Vocabulary.mem_toSet, vocabulary_eq_ofList, Vocabulary.mem_ofList]
    exact hv
  exact ⟨a.read v, Assignment.value_eq_ok hdomain⟩

/-- Under an assignment of just its variables, a proposition has the truth value of the
formula its symbols list, and is malformed if they list none. -/
theorem evaluate_eq (ha : a.domain = p.vocabulary.toSet) :
    p.evaluate a = (Formula.ofSymbols p.symbols).map fun f => f.eval a.read := by
  obtain ⟨f, hp, hlisted⟩ | ⟨hnone, hlisted⟩ := p.cases_of_symbols
  · rw [hlisted]
    exact hp.evaluate_eq ha
  · cases p with
    | atom v => exact absurd rfl (hnone (.atom v))
    | sentence s =>
        have hwithin : a.requireWithin s.vocabulary.toSet = .ok () :=
          Assignment.requireWithin_eq_ok fun v hv => ha ▸ hv
        have hvalue := (covers_valuation ha).value_eq
        rw [hlisted] at hvalue
        rw [evaluate, Sentence.evaluate, hwithin, hlisted]
        exact hvalue

/-- A malformed proposition is malformed under every assignment of just its variables. -/
theorem evaluate_eq_malformed (hp : ∀ f, ¬ p.Expresses f) (ha : a.domain = p.vocabulary.toSet) :
    p.evaluate a = .error .malformedExpression := by
  have hlisted : Formula.ofSymbols p.symbols = .error .malformedExpression :=
    Formula.ofSymbols_eq_error_iff.mpr ⟨fun f hf => hp f (expresses_iff.mpr hf), rfl⟩
  rw [evaluate_eq ha, hlisted]
  rfl

/-- A query that evaluates each assignment in turn fails on a malformed proposition. -/
theorem filterMapM_assignments_eq_malformed (hp : ∀ f, ¬ p.Expresses f)
    (hsize : p.vocabulary.size < positionBits) (keep : Assignment → Bool → Option β) :
    (p.assignments >>= fun e => e.filterMapM fun a => return keep a (← p.evaluate a)) =
      .error .malformedExpression := by
  obtain ⟨e, he⟩ := Enumeration.exists_ofVocabulary hsize
  rw [assignments, he]
  change e.filterMapM _ = _
  rw [Enumeration.filterMapM_eq]
  apply filterMapM_eq_error (Enumeration.toList_ne_nil he)
  intro a ha
  rw [evaluate_eq_malformed hp ((Enumeration.mem_toList_ofVocabulary he).mp ha)]
  rfl

theorem outcomes_eq_malformed (hp : ∀ f, ¬ p.Expresses f)
    (hsize : p.vocabulary.size < positionBits) : p.outcomes = .error .malformedExpression :=
  filterMapM_assignments_eq_malformed hp hsize fun _ b => some b

theorem satisfying_eq_malformed (hp : ∀ f, ¬ p.Expresses f)
    (hsize : p.vocabulary.size < positionBits) : p.satisfying = .error .malformedExpression :=
  filterMapM_assignments_eq_malformed hp hsize fun a b => if b then some a else none

end Proposition

end Sentential
