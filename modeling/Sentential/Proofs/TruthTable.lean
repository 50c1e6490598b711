/-
The truth table tells all.  Each query runs through the assignments by itself and stops at
the first error by itself, but what it gives is what can be read off the truth table: the
outcomes are its second column, the satisfying assignments are the rows that are true, and
the properties compare these with all rows.  So the queries fail together and with the same
error, and there are only two causes for it.
-/
import Mathlib.Data.List.Nodup
import Sentential.Proofs.Refusals
import Sentential.Proofs.Traversal

namespace Sentential

variable {ε α β γ : Type}

/-- A run that keeps something of each result gives what can be kept of a run that keeps
them all. -/
theorem filterMapM_eq_map_filterMap (value : α → Except ε β) (keep : α → β → Option γ)
    (l : List α) :
    (l.filterMapM fun a => return keep a (← value a)) =
      (l.filterMapM fun a => return some (a, ← value a)).map
        (List.filterMap fun row : α × β => keep row.1 row.2) := by
  induction l with
  | nil => rfl
  | cons a rest ih =>
      cases hvalue : value a with
      | error e =>
          rw [List.filterMapM_cons, List.filterMapM_cons, hvalue]
          rfl
      | ok b =>
          have hkept : (do return keep a (← value a) : Except ε (Option γ)) =
              .ok (keep a b) := by
            rw [hvalue]
            rfl
          have hrow : (do return some (a, ← value a) : Except ε (Option (α × β))) =
              .ok (some (a, b)) := by
            rw [hvalue]
            rfl
          rw [filterMapM_cons_eq (fun a => return keep a (← value a)) hkept,
            filterMapM_cons_eq (fun a => return some (a, ← value a)) hrow, ih]
          cases rest.filterMapM fun a => return some (a, ← value a) with
          | error e => rfl
          | ok rows => cases hkeep : keep a b <;> simp [Except.map, hkeep]

/-- The assignments of the rows that are true. -/
def trueRows (table : List (Assignment × Bool)) : List Assignment :=
  (table.filter Prod.snd).map Prod.fst

/-- All rows are true just when the true ones are all. -/
theorem trueRows_eq_iff {table : List (Assignment × Bool)} :
    trueRows table = table.map Prod.fst ↔ (table.map Prod.snd).all id = true := by
  constructor
  · intro h
    have hlength := congrArg List.length h
    rw [trueRows, List.length_map, List.length_map] at hlength
    simpa using List.length_filter_eq_length_iff.mp hlength
  · intro h
    have hall : ∀ row ∈ table, row.2 = true := by simpa using h
    rw [trueRows, List.filter_eq_self.mpr hall]

/-- Some row is true just when the true ones are not none. -/
theorem trueRows_ne_nil_iff {table : List (Assignment × Bool)} :
    trueRows table ≠ [] ↔ (table.map Prod.snd).any id = true := by
  simp [trueRows, List.filter_eq_nil_iff]

namespace Properties

/-- The properties that a truth table shows, by comparing the true rows with all rows. -/
def ofTable (table : List (Assignment × Bool)) : Properties where
  valid := trueRows table = table.map Prod.fst
  satisfiable := trueRows table ≠ []
  contingent := trueRows table ≠ [] ∧ trueRows table ≠ table.map Prod.fst

theorem ofOutcomes_map_snd (table : List (Assignment × Bool)) :
    ofOutcomes (table.map Prod.snd) = ofTable table := by
  have hvalid : (table.map Prod.snd).all id = decide (trueRows table = table.map Prod.fst) := by
    rw [Bool.eq_iff_iff, decide_eq_true_iff, trueRows_eq_iff]
  have hsatisfiable : (table.map Prod.snd).any id = decide (trueRows table ≠ []) := by
    rw [Bool.eq_iff_iff, decide_eq_true_iff, trueRows_ne_nil_iff]
  simp only [ofOutcomes, ofTable, hvalid, hsatisfiable, ne_eq, decide_not, Bool.decide_and]

end Properties

namespace Proposition

variable {p : Proposition} {f : Formula Variable} {e : EvaluationError}

/-- What a query keeps of each assignment and its value is kept of the truth table. -/
theorem query_eq_map_truthTable (p : Proposition) (keep : Assignment → Bool → Option β) :
    (p.assignments >>= fun e => e.filterMapM fun a => return keep a (← p.evaluate a)) =
      p.truthTable.map (List.filterMap fun row => keep row.1 row.2) := by
  rw [truthTable]
  cases p.assignments with
  | error e => rfl
  | ok e =>
      change e.filterMapM _ = (e.filterMapM _).map _
      rw [Enumeration.filterMapM_eq, Enumeration.filterMapM_eq]
      exact filterMapM_eq_map_filterMap p.evaluate keep e.toList

theorem outcomes_eq_map_truthTable (p : Proposition) :
    p.outcomes = p.truthTable.map (List.map Prod.snd) := by
  have hquery := p.query_eq_map_truthTable fun _ b => some b
  have hkeep : List.filterMap (fun row : Assignment × Bool => some row.2) = List.map Prod.snd :=
    funext fun table => congrFun List.filterMap_eq_map table
  rw [hkeep] at hquery
  exact hquery

theorem satisfying_eq_map_truthTable (p : Proposition) :
    p.satisfying = p.truthTable.map trueRows := by
  have hquery := p.query_eq_map_truthTable fun a b => if b then some a else none
  have hkeep : List.filterMap (fun row : Assignment × Bool =>
      if row.2 then some row.1 else none) = trueRows := by
    funext table
    rw [trueRows, ← List.filterMap_eq_map, List.filterMap_filter]
    rfl
  rw [hkeep] at hquery
  exact hquery

theorem properties_eq_map_truthTable (p : Proposition) :
    p.properties = p.truthTable.map Properties.ofTable := by
  rw [properties, outcomes_eq_map_truthTable]
  cases p.truthTable with
  | error e => rfl
  | ok table => exact congrArg Except.ok (Properties.ofOutcomes_map_snd table)

/-- The truth table of a proposition that expresses a formula. -/
theorem Expresses.truthTable_eq (h : p.Expresses f) {e : Enumeration}
    (he : p.assignments = .ok e) :
    p.truthTable = .ok (e.toList.map fun a => (a, f.eval a.read)) := by
  have hquery := h.filterMapM_assignments_eq he fun a value => some (a, value)
  rw [List.filterMap_eq_map'] at hquery
  exact hquery

/-- There is no truth table if the variables are too many, or else if the symbols list no
formula. -/
theorem truthTable_eq_error_iff :
    p.truthTable = .error e ↔
      (64 ≤ p.vocabulary.size ∧ e = .tooManyVariables p.vocabulary.size) ∨
        (p.vocabulary.size < 64 ∧ ¬ p.WellFormed ∧ e = .malformedExpression) := by
  obtain hsize | hsize := Nat.lt_or_ge p.vocabulary.size 64
  · by_cases hwell : p.WellFormed
    · obtain ⟨f, hf⟩ := wellFormed_iff_exists_expresses.mp hwell
      obtain ⟨_, hassignments⟩ := Enumeration.exists_ofVocabulary hsize
      simp [hf.truthTable_eq hassignments, hwell, Nat.not_le.mpr hsize]
    · have hnone : ∀ f, ¬ p.Expresses f := fun f hf => hwell hf.wellFormed
      have htable : p.truthTable = .error .malformedExpression :=
        filterMapM_assignments_eq_malformed hnone hsize fun a value => some (a, value)
      simp [htable, hwell, hsize, Nat.not_le.mpr hsize, eq_comm]
  · have htable : p.truthTable = .error (.tooManyVariables p.vocabulary.size) := by
      rw [truthTable, assignments, Enumeration.ofVocabulary_eq_error (Nat.not_lt.mpr hsize)]
      rfl
    simp [htable, hsize, Nat.not_lt.mpr hsize, eq_comm]

/-- No assignment is enumerated twice. -/
theorem nodup_toList_assignments {e : Enumeration} (he : p.assignments = .ok e) :
    e.toList.Nodup := by
  rw [Enumeration.toList_ofVocabulary he]
  refine List.Nodup.map_on ?_ List.nodup_range
  intro i hi j hj hsame
  exact Vocabulary.eq_of_assign_digits_eq (List.mem_range.mp hi) (List.mem_range.mp hj) hsame

/-- All queries give what can be read off the truth table, or the error for which there is
none; this is that of too many variables or of a malformed proposition.  Otherwise each of
the assignments of just the variables has one row, in the order of the enumeration, with
its value. -/
theorem queries_read_off_truth_table (p : Proposition) :
    p.outcomes = p.truthTable.map (List.map Prod.snd) ∧
      p.satisfying = p.truthTable.map trueRows ∧
      p.properties = p.truthTable.map Properties.ofTable ∧
      p.valid = p.truthTable.map (fun table => decide (trueRows table = table.map Prod.fst)) ∧
      p.satisfiable = p.truthTable.map (fun table => decide (trueRows table ≠ [])) ∧
      p.contingent = p.truthTable.map (fun table =>
        decide (trueRows table ≠ [] ∧ trueRows table ≠ table.map Prod.fst)) ∧
      (∀ e, p.truthTable = .error e ↔
        (64 ≤ p.vocabulary.size ∧ e = .tooManyVariables p.vocabulary.size) ∨
          (p.vocabulary.size < 64 ∧ ¬ p.WellFormed ∧ e = .malformedExpression)) ∧
      (p.vocabulary.size < 64 → p.WellFormed → ∃ e table,
        p.assignments = .ok e ∧ p.truthTable = .ok table ∧
          table.map Prod.fst = e.toList ∧ table.length = 2 ^ p.vocabulary.size ∧
          (∀ row ∈ table, p.evaluate row.1 = .ok row.2) ∧ (trueRows table).Nodup) := by
  have hproperties := p.properties_eq_map_truthTable
  have hquery : ∀ query : Properties → Bool, p.properties.map query =
      p.truthTable.map fun table => query (.ofTable table) := by
    intro query
    rw [hproperties]
    cases p.truthTable <;> rfl
  refine ⟨p.outcomes_eq_map_truthTable, p.satisfying_eq_map_truthTable, hproperties,
    hquery _, hquery _, hquery _, fun e => truthTable_eq_error_iff, fun hsize hwell => ?_⟩
  obtain ⟨f, hf⟩ := wellFormed_iff_exists_expresses.mp hwell
  obtain ⟨e, he⟩ := Enumeration.exists_ofVocabulary hsize
  have hfirst : (e.toList.map fun a => (a, f.eval a.read)).map Prod.fst = e.toList := by
    rw [List.map_map]
    exact List.map_id e.toList
  refine ⟨e, _, he, hf.truthTable_eq he, hfirst, ?_, ?_, ?_⟩
  · rw [List.length_map, Enumeration.toList_ofVocabulary he, List.length_map, List.length_range]
  · intro row hrow
    obtain ⟨a, ha, rfl⟩ := List.mem_map.mp hrow
    exact hf.evaluate_eq ((Enumeration.mem_toList_ofVocabulary he).mp ha)
  · have hsublist := (List.filter_sublist (p := Prod.snd)
      (l := e.toList.map fun a => (a, f.eval a.read))).map Prod.fst
    rw [hfirst] at hsublist
    exact (nodup_toList_assignments he).sublist hsublist

/-- Of the four rows of a disjunction, the second one is false. -/
theorem queries_of_disjunction_with_negation :
    let a : Variable := ⟨'a', 97⟩
    let b : Variable := ⟨'b', 98⟩
    let p : Proposition := .sentence ⟨(Formula.disj (.atom b) (.neg (.atom a))).symbols⟩
    p.vocabulary.size < 64 ∧ p.WellFormed ∧
      p.satisfying = .ok [.ofPairs [(b, false), (a, false)], .ofPairs [(b, true), (a, false)],
        .ofPairs [(b, true), (a, true)]] ∧
      p.contingent = .ok true ∧
      ∃ e table, p.assignments = .ok e ∧ p.truthTable = .ok table ∧
        table.map Prod.fst = e.toList ∧ table.length = 4 := by
  intro a b p
  have hsize : p.vocabulary.size = 2 := by decide +kernel
  have hwell : p.WellFormed := ⟨_, rfl⟩
  obtain ⟨_, hsatisfying, _, _, _, hcontingent, _, htable⟩ := queries_read_off_truth_table p
  obtain ⟨e, table, he, htable, hrows, hlength, _⟩ := htable (by omega) hwell
  have hvalue : p.truthTable = .ok
      [(.ofPairs [(b, false), (a, false)], true), (.ofPairs [(b, false), (a, true)], false),
        (.ofPairs [(b, true), (a, false)], true), (.ofPairs [(b, true), (a, true)], true)] := by
    decide +kernel
  rw [hvalue] at hsatisfying hcontingent
  rw [hsize] at hlength
  exact ⟨by omega, hwell, hsatisfying, hcontingent.trans (by decide +kernel), e, table, he,
    htable, hrows, hlength⟩

end Proposition

end Sentential
