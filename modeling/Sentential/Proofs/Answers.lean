/-
What the answers depend on.  Over atoms of any kind, rows of symbols have outcomes and
a verdict that are told by the formulas they list and by the order in which their atoms
first occur.  The queries on propositions give just these answers, errors included, and
renaming the atoms apart changes none of them.
-/
import Mathlib.Logic.Function.Basic
import Sentential.Proofs.Consequence
import Sentential.Proofs.Malformed
import Sentential.Proofs.Occurrences

namespace Sentential

variable {α β γ : Type}

namespace Interpretation

/-- The interpretation of renamed atoms. -/
def comap (g : α → β) (meaning : Interpretation β γ) : Interpretation α γ :=
  { meaning with atom := meaning.atom ∘ g }

theorem step_map (meaning : Interpretation β γ) (g : α → β) (stack : List γ) (s : Symbol α) :
    meaning.step stack (s.map g) = (meaning.comap g).step stack s := by
  cases s with
  | atom a => rfl
  | connective c => cases c <;> rcases stack with _ | ⟨x, _ | ⟨y, rest⟩⟩ <;> rfl

theorem value_map (meaning : Interpretation β γ) (g : α → β) (row : List (Symbol α)) :
    meaning.value (row.map (Symbol.map g)) = (meaning.comap g).value row := by
  have hrun : meaning.run [] (row.map (Symbol.map g)) = (meaning.comap g).run [] row := by
    rw [run, List.foldlM_map]
    simp only [step_map]
    rfl
  rw [value, hrun, value]

end Interpretation

namespace Formula

theorem ofFormula_comap_construction (g : α → β) (f : Formula α) :
    (construction.comap g).ofFormula f = .ok (f.map g) := by
  induction f with
  | atom a => rfl
  | neg f ih =>
      rw [Interpretation.ofFormula, ih]
      rfl
  | conj l r ihl ihr =>
      rw [Interpretation.ofFormula, ihl, ihr]
      rfl
  | disj l r ihl ihr =>
      rw [Interpretation.ofFormula, ihl, ihr]
      rfl

/-- Renaming the atoms of a row renames those of the formula it lists. -/
theorem ofSymbols_map (g : α → β) (row : List (Symbol α)) :
    ofSymbols (row.map (Symbol.map g)) = (ofSymbols row).map (map g) := by
  have hcovers : (construction.comap g).Covers row := fun a _ => ⟨_, rfl⟩
  rw [ofSymbols, Interpretation.value_map, hcovers.value_eq]
  cases ofSymbols row with
  | error e => rfl
  | ok f => exact ofFormula_comap_construction g f

/-- A formula is satisfied by the same valuations of atoms that are renamed apart. -/
theorem exists_eval_map {g : α → β} (hg : Function.Injective g) (f : Formula α) :
    (∃ ν : β → Bool, (f.map g).eval ν = true) ↔ ∃ ν : α → Bool, f.eval ν = true := by
  have hvaluations := (hg.surjective_comp_right (γ := Bool)).exists (p := fun ν => f.eval ν = true)
  simp only [eval_map]
  exact hvaluations.symm

theorem forall_eval_map {g : α → β} (hg : Function.Injective g) (f h : Formula α) :
    (∀ ν : β → Bool, (f.map g).eval ν = true → (h.map g).eval ν = true) ↔
      ∀ ν : α → Bool, f.eval ν = true → h.eval ν = true := by
  have hvaluations := (hg.surjective_comp_right (γ := Bool)).forall
    (p := fun ν => f.eval ν = true → h.eval ν = true)
  simp only [eval_map]
  exact hvaluations.symm

end Formula

variable [DecidableEq α] [DecidableEq β]

/-- The distinct atoms of a row of symbols in order of first occurrence. -/
def distinctAtoms (row : List (Symbol α)) : List α :=
  (row.filterMap Symbol.atom?).eraseDups

/-- The values of the formula that a row of symbols lists, under all valuations of its
atoms in order; the first atom has the most significant digit. -/
def rowOutcomes (row : List (Symbol α)) : Except EvaluationError (List Bool) :=
  let atoms := distinctAtoms row
  if atoms.length < positionBits then
    (Formula.ofSymbols row).map fun f =>
      (List.range (2 ^ atoms.length)).map fun i =>
        f.eval fun a => i.testBit (atoms.length - 1 - atoms.idxOf a)
  else .error (.tooManyVariables atoms.length)

open Classical in
/-- Whether the formula of one row of symbols follows from that of another.  A premise
that nothing satisfies is not compared with the conclusion. -/
noncomputable def rowVerdict (premise conclusion : List (Symbol α)) :
    Except EvaluationError Verdict :=
  let left := distinctAtoms premise
  let right := distinctAtoms conclusion
  let extra := right.filter (· ∉ left)
  if left ⊆ right ∨ right ⊆ left then
    if left.length < positionBits then
      Formula.ofSymbols premise >>= fun f =>
        if ∃ ν : α → Bool, f.eval ν = true then
          if extra.length < positionBits then
            (Formula.ofSymbols conclusion).map fun g =>
              .ofBool (decide (∀ ν : α → Bool, f.eval ν = true → g.eval ν = true))
          else .error (.tooManyVariables extra.length)
        else .ok .holds
    else .error (.tooManyVariables left.length)
  else .error .incompatibleVariableSets

section Renaming

variable {g : α → β}

theorem distinctAtoms_map (hg : Function.Injective g) (row : List (Symbol α)) :
    distinctAtoms (row.map (Symbol.map g)) = (distinctAtoms row).map g := by
  rw [distinctAtoms, distinctAtoms, ← eraseDups_map_of_injective hg, List.filterMap_map,
    List.map_filterMap]
  congr 2
  funext s
  exact Symbol.atom?_map g s

/-- The outcomes of a row do not depend on what its atoms are. -/
theorem rowOutcomes_map (hg : Function.Injective g) (row : List (Symbol α)) :
    rowOutcomes (row.map (Symbol.map g)) = rowOutcomes row := by
  simp only [rowOutcomes, distinctAtoms_map hg, List.length_map, Formula.ofSymbols_map]
  cases Formula.ofSymbols row with
  | error e => rfl
  | ok f =>
      simp only [Except.map, Formula.eval_map, Function.comp_def,
        idxOf_map_of_injective hg]

/-- Nor does the verdict on two rows. -/
theorem rowVerdict_map (hg : Function.Injective g) (premise conclusion : List (Symbol α)) :
    rowVerdict (premise.map (Symbol.map g)) (conclusion.map (Symbol.map g)) =
      rowVerdict premise conclusion := by
  classical
  have hextra : ((distinctAtoms conclusion).map g).filter (· ∉ (distinctAtoms premise).map g) =
      ((distinctAtoms conclusion).filter (· ∉ distinctAtoms premise)).map g := by
    rw [List.filter_map]
    congr 1
    apply List.filter_congr
    intro a _
    simp only [Function.comp_apply, List.mem_map_of_injective hg]
  simp only [rowVerdict, distinctAtoms_map hg, hextra, List.length_map,
    List.map_subset_iff g hg, Formula.ofSymbols_map]
  cases Formula.ofSymbols premise with
  | error e => rfl
  | ok f =>
      cases Formula.ofSymbols conclusion with
      | error e =>
          simp only [Except.map, bind, Except.bind, Formula.exists_eval_map hg]
      | ok h =>
          simp only [Except.map, bind, Except.bind, Formula.exists_eval_map hg,
            Formula.forall_eval_map hg]

end Renaming

theorem Proposition.toList_vocabulary (p : Proposition) :
    p.vocabulary.toList = distinctAtoms p.symbols := by
  rw [vocabulary_eq_ofList, Vocabulary.toList_ofList]
  rfl

theorem Proposition.size_vocabulary (p : Proposition) :
    p.vocabulary.size = (distinctAtoms p.symbols).length := by
  rw [Vocabulary.size, toList_vocabulary]

theorem Proposition.outcomes_eq_rowOutcomes (p : Proposition) :
    p.outcomes = rowOutcomes p.symbols := by
  simp only [rowOutcomes, ← toList_vocabulary]
  change _ = if p.vocabulary.size < positionBits then _ else _
  split
  · rename_i hsize
    obtain ⟨f, hp, hlisted⟩ | ⟨hnone, hlisted⟩ := p.cases_of_symbols
    · rw [hlisted]
      exact hp.outcomes_eq hsize
    · rw [hlisted]
      exact outcomes_eq_malformed hnone hsize
  · rename_i hsize
    rw [outcomes, assignments, Enumeration.ofVocabulary_eq_error hsize]
    rfl

namespace Scope

variable {l : Vocabulary} {q : Proposition} {a : Assignment} {scope : Scope}

theorem between_eq_error {premise conclusion : Vocabulary}
    (h : ¬ (premise.toSet ⊆ conclusion.toSet ∨ conclusion.toSet ⊆ premise.toSet)) :
    between premise conclusion = .error .incompatibleVariableSets := by
  obtain ⟨hleft, hright⟩ := not_or.mp h
  have hne : premise.toSet ≠ conclusion.toSet := by
    intro heq
    exact hleft fun v hv => heq ▸ hv
  simp [between, hleft, hright, hne]

/-- Only a wider conclusion has variables that the premise lacks. -/
theorem size_without_eq_zero {m : Vocabulary} (h : m.toSet ⊆ l.toSet) :
    (m.without l.toSet).size = 0 := by
  rw [Vocabulary.size, Vocabulary.without, List.length_eq_zero_iff, List.filter_eq_nil_iff]
  intro v hv
  simpa using Vocabulary.toSet_subset_iff.mp h v hv

/-- Too many further variables cannot be enumerated. -/
theorem concludes_eq_tooManyVariables (hscope : between l q.vocabulary = .ok scope)
    (hsize : ¬ (q.vocabulary.without l.toSet).size < positionBits) :
    scope.concludes q a = .error (.tooManyVariables (q.vocabulary.without l.toSet).size) := by
  have hpositive : (q.vocabulary.without l.toSet).size ≠ 0 := by
    intro hzero
    rw [hzero] at hsize
    exact hsize (by decide)
  obtain ⟨rfl, hsets⟩ | ⟨rfl, _⟩ | ⟨rfl, hsubset⟩ := cases_of_between hscope
  · exact absurd (size_without_eq_zero fun v hv => hsets ▸ hv) hpositive
  · rw [concludes, Enumeration.ofVocabulary_eq_error hsize]
    rfl
  · exact absurd (size_without_eq_zero hsubset) hpositive

/-- A malformed conclusion is malformed however its variables are related to those of the
premise. -/
theorem concludes_eq_malformed (hq : ∀ g, ¬ q.Expresses g)
    (hscope : between l q.vocabulary = .ok scope)
    (hsize : (q.vocabulary.without l.toSet).size < positionBits) (ha : a.domain = l.toSet) :
    scope.concludes q a = .error .malformedExpression := by
  obtain ⟨rfl, hsets⟩ | ⟨rfl, hsubset⟩ | ⟨rfl, hsubset⟩ := cases_of_between hscope
  · exact Proposition.evaluate_eq_malformed hq (ha.trans hsets)
  · obtain ⟨e, he⟩ := Enumeration.exists_ofVocabulary hsize
    have hvalue : ∀ b ∈ e.toList, (do return !(← q.evaluate (a.override b))) =
        Except.error EvaluationError.malformedExpression := by
      intro b hb
      have hdomain := Assignment.domain_override_toSet ha hsubset
        ((Enumeration.mem_toList_ofVocabulary he).mp hb)
      rw [Proposition.evaluate_eq_malformed hq hdomain]
      rfl
    rw [concludes, he]
    change (e.findM? _ >>= _) = _
    rw [Enumeration.findM?_eq, findM?_eq_error (Enumeration.toList_ne_nil he) hvalue]
    rfl
  · exact Proposition.evaluate_eq_malformed hq (Assignment.domain_restrict_toSet ha hsubset)

end Scope

namespace Proposition

variable {p q : Proposition} {f : Formula Variable} {scope : Scope} {e : Enumeration}

theorem toSet_vocabulary_subset_iff :
    p.vocabulary.toSet ⊆ q.vocabulary.toSet ↔
      distinctAtoms p.symbols ⊆ distinctAtoms q.symbols := by
  rw [Vocabulary.toSet_subset_iff, ← toList_vocabulary, ← toList_vocabulary]
  rfl

theorem size_without_vocabulary :
    (q.vocabulary.without p.vocabulary.toSet).size =
      ((distinctAtoms q.symbols).filter (· ∉ distinctAtoms p.symbols)).length := by
  change (q.vocabulary.toList.filter fun v => v ∉ p.vocabulary.toSet).length = _
  rw [toList_vocabulary]
  congr 1
  apply List.filter_congr
  intro v _
  have hmem : v ∈ p.vocabulary.toSet ↔ v ∈ distinctAtoms p.symbols := by
    rw [Vocabulary.mem_toSet, ← toList_vocabulary, Vocabulary.mem_toList]
  simp only [hmem]

section Verdict

variable (hf : p.Expresses f)
  (hscope : Scope.between p.vocabulary q.vocabulary = .ok scope) (he : p.assignments = .ok e)
include hf hscope he

/-- A premise that nothing satisfies entails whatever it can be compared with. -/
theorem verdict_entails_of_unsatisfiable (hunsatisfiable : ¬ ∃ ν : Variable → Bool, f.eval ν = true) :
    (p.entails q).map Comparison.verdict = .ok .holds := by
  have hnil : (e.toList.filter fun a => f.eval a.read) = [] := by
    rw [List.filter_eq_nil_iff]
    exact fun a _ ha => hunsatisfiable ⟨a.read, ha⟩
  rw [entails, counterexample?, hscope, hf.satisfying_eq he, hnil]
  rfl

/-- A conclusion that fails under every assignment makes the comparison fail, once the
premise is satisfied. -/
theorem verdict_entails_eq_error {failure : EvaluationError}
    (hsatisfiable : ∃ ν : Variable → Bool, f.eval ν = true)
    (h : ∀ a : Assignment, a.domain = p.vocabulary.toSet →
      scope.concludes q a = .error failure) :
    (p.entails q).map Comparison.verdict = .error failure := by
  obtain ⟨ν, hν⟩ := hsatisfiable
  have hmem : p.vocabulary.assign ν ∈ e.toList.filter fun a => f.eval a.read := by
    rw [List.mem_filter, hf.eval_read_assign]
    exact ⟨(Enumeration.mem_toList_ofVocabulary he).mpr Vocabulary.domain_assign, hν⟩
  have hvalue : ∀ a ∈ e.toList.filter fun a => f.eval a.read,
      (do return !(← scope.concludes q a)) = Except.error failure := by
    intro a ha
    rw [h a ((Enumeration.mem_toList_ofVocabulary he).mp (List.mem_filter.mp ha).1)]
    rfl
  have hsearch := findM?_eq_error (List.ne_nil_of_mem hmem) hvalue
  have hfailure : p.counterexample? q = .error failure := by
    rw [counterexample?, hscope, hf.satisfying_eq he]
    exact hsearch
  rw [entails, hfailure]
  rfl

end Verdict

/-- Entailment gives the verdict on the symbols of the two propositions. -/
theorem verdict_entails_eq_rowVerdict (p q : Proposition) :
    (p.entails q).map Comparison.verdict = rowVerdict p.symbols q.symbols := by
  classical
  simp only [rowVerdict, ← size_vocabulary, ← size_without_vocabulary,
    ← toSet_vocabulary_subset_iff]
  by_cases hsets : p.vocabulary.toSet ⊆ q.vocabulary.toSet ∨
      q.vocabulary.toSet ⊆ p.vocabulary.toSet
  swap
  · rw [if_neg hsets, entails, counterexample?, Scope.between_eq_error hsets]
    rfl
  obtain ⟨scope, hscope⟩ := Scope.exists_between hsets
  rw [if_pos hsets]
  by_cases hsize : p.vocabulary.size < positionBits
  swap
  · rw [if_neg hsize, entails, counterexample?, hscope, satisfying, assignments,
      Enumeration.ofVocabulary_eq_error hsize]
    rfl
  rw [if_pos hsize]
  obtain ⟨f, hf, hpremise⟩ | ⟨hnone, hpremise⟩ := p.cases_of_symbols
  swap
  · rw [hpremise, entails, counterexample?, hscope, satisfying_eq_malformed hnone hsize]
    rfl
  obtain ⟨e, he⟩ := Enumeration.exists_ofVocabulary hsize
  rw [hpremise]
  change _ = if ∃ ν : Variable → Bool, f.eval ν = true then _ else _
  by_cases hsatisfiable : ∃ ν : Variable → Bool, f.eval ν = true
  swap
  · rw [if_neg hsatisfiable]
    exact verdict_entails_of_unsatisfiable hf hscope he hsatisfiable
  rw [if_pos hsatisfiable]
  by_cases hextra : (q.vocabulary.without p.vocabulary.toSet).size < positionBits
  swap
  · rw [if_neg hextra]
    exact verdict_entails_eq_error hf hscope he hsatisfiable fun a _ =>
      Scope.concludes_eq_tooManyVariables hscope hextra
  rw [if_pos hextra]
  obtain ⟨g, hg, hconclusion⟩ | ⟨hnone, hconclusion⟩ := q.cases_of_symbols
  · rw [hf.verdict_entails_eq hg hscope he hextra, hconclusion]
    rfl
  · rw [hconclusion]
    exact verdict_entails_eq_error hf hscope he hsatisfiable fun a ha =>
      Scope.concludes_eq_malformed hnone hscope hextra ha

theorem verdict_equivalent_eq (p q : Proposition) :
    (p.equivalent q).map Comparison.verdict = do
      let forth ← rowVerdict p.symbols q.symbols
      let back ← rowVerdict q.symbols p.symbols
      return forth.and back := by
  rw [equivalent, ← verdict_entails_eq_rowVerdict, ← verdict_entails_eq_rowVerdict]
  cases p.entails q with
  | error failure => rfl
  | ok forth => cases q.entails p <;> rfl

end Proposition

end Sentential
