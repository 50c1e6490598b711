/-
Answers by number.  Evaluation, the queries and the comparisons can be carried out with
assignments and lists that are kept by number: variables are told apart by their numbers
alone, and those that are shown are looked up.  On propositions whose variables a session
has given out, every value, assignment, error and message is then the same, and so are the
verdicts.  The numbers that variables got leave no trace but the order in which sets are
listed.
-/
import Sentential.Proofs.Counterexamples
import Sentential.Proofs.NumberedAssignments
import Sentential.Proofs.TruthTable

namespace Sentential

variable {ε α β γ δ : Type}

/-- What is kept of the images of a list is the image of what is kept of the list. -/
theorem filterMapM_map_eq {f : α → Except ε (Option β)} {g : α → γ} {h : γ → Except ε (Option δ)}
    {k : β → δ} {l : List α} (hl : ∀ a ∈ l, h (g a) = (f a).map (Option.map k)) :
    (l.map g).filterMapM h = (l.filterMapM f).map (List.map k) := by
  induction l with
  | nil => rfl
  | cons a rest ih =>
      obtain ⟨ha, hrest⟩ := List.forall_mem_cons.mp hl
      rw [List.map_cons]
      cases hkept : f a with
      | error e =>
          rw [hkept] at ha
          rw [List.filterMapM_cons, List.filterMapM_cons, ha, hkept]
          rfl
      | ok kept =>
          rw [hkept] at ha
          rw [filterMapM_cons_eq h ha, filterMapM_cons_eq f hkept, ih hrest]
          cases rest.filterMapM f with
          | error e => rfl
          | ok found => cases kept <;> rfl

/-- What is found among the images of a list is the image of what is found in the list. -/
theorem findM?_map_eq {p : α → Except ε Bool} {g : α → γ} {q : γ → Except ε Bool} {l : List α}
    (hl : ∀ a ∈ l, q (g a) = p a) :
    (l.map g).findM? q = (l.findM? p).map (Option.map g) := by
  induction l with
  | nil => rfl
  | cons a rest ih =>
      obtain ⟨ha, hrest⟩ := List.forall_mem_cons.mp hl
      rw [List.map_cons, List.findM?, List.findM?, ha]
      cases p a with
      | error e => rfl
      | ok found =>
          cases found with
          | false => exact ih hrest
          | true => rfl

/-- What is true of all that a function gives for a list is true of all that is kept. -/
theorem forall_mem_of_filterMapM {f : α → Except ε (Option β)} {P : β → Prop} {l : List α}
    {found : List β} (h : l.filterMapM f = .ok found)
    (hl : ∀ a ∈ l, ∀ b, f a = .ok (some b) → P b) : ∀ b ∈ found, P b := by
  induction l generalizing found with
  | nil =>
      cases h
      exact nofun
  | cons a rest ih =>
      obtain ⟨ha, hrest⟩ := List.forall_mem_cons.mp hl
      cases hkept : f a with
      | error e =>
          rw [List.filterMapM_cons, hkept] at h
          cases h
      | ok kept =>
          rw [filterMapM_cons_eq f hkept] at h
          obtain ⟨others, hothers, rfl⟩ := map_eq_ok_iff.mp h
          intro b hb
          rcases List.mem_append.mp hb with hb | hb
          · exact ha b (hkept.trans (congrArg Except.ok (Option.mem_toList.mp hb)))
          · exact ih hothers hrest b hb

namespace Interpretation

variable {meaning : Interpretation α β} {atom : α → Except EvaluationError β}
  {row : List (Symbol α)}

/-- Only the values of the atoms of a row bear on its value. -/
theorem value_congr (h : ∀ a ∈ row.filterMap Symbol.atom?, atom a = meaning.atom a) :
    value { meaning with atom } row = meaning.value row := by
  have hrun : ∀ stack, run { meaning with atom } stack row = meaning.run stack row := by
    induction row with
    | nil => exact fun _ => rfl
    | cons s rest ih =>
        intro stack
        have hstep : step { meaning with atom } stack s = meaning.step stack s := by
          cases s with
          | atom a => exact congrArg (Except.map (· :: stack)) (h a (by simp))
          | connective c => cases c <;> rcases stack with _ | ⟨x, _ | ⟨y, below⟩⟩ <;> rfl
        have hrest := ih fun a ha => h a (by
          obtain ⟨t, ht, hatom⟩ := List.mem_filterMap.mp ha
          exact List.mem_filterMap.mpr ⟨t, List.mem_cons_of_mem s ht, hatom⟩)
        simp only [run_cons, hstep, hrest]
  rw [value, value, hrun]

end Interpretation

/-- The list kept with the numbers of its variables. -/
def Vocabulary.numbered (l : Vocabulary) : NumberedList := ⟨l.toList, l.toSet.numbers⟩

namespace NumberedList

/-- The distinct variables of a proposition. -/
def ofProposition (p : Proposition) : NumberedList := ListForm.numbered.run [.collect p]

/-- The assignment at a position. -/
def assignmentAt (k : NumberedList) (position : UInt64) : NumberedAssignment :=
  .ofPairs <| k.order.zipIdx.map fun (v, i) =>
    (v, Enumeration.digit position (k.order.length - 1 - i))

/-- The assignments of a list of variables, in order. -/
def assignments (k : NumberedList) : Except EvaluationError (List NumberedAssignment) :=
  if k.order.length < positionBits then
    .ok ((List.range (2 ^ k.order.length)).map fun i => k.assignmentAt (UInt64.ofNat i))
  else .error (.tooManyVariables k.order.length)

end NumberedList

/-- How the variables of a conclusion relate to those of its premise. -/
inductive NumberedScope where
  | same
  | wider (extra : NumberedList)
  | narrower (shared : Finset Nat)

/-- The scope of a conclusion, when the numbers of one list include those of the other. -/
def NumberedScope.between (premise conclusion : NumberedList) :
    Except EvaluationError NumberedScope :=
  if premise.order.length = conclusion.order.length ∧ premise.numbers = conclusion.numbers then
    .ok .same
  else if premise.order.length < conclusion.order.length ∧
      premise.numbers ⊆ conclusion.numbers then
    .ok (.wider (conclusion.without premise.numbers))
  else if conclusion.order.length < premise.order.length ∧
      conclusion.numbers ⊆ premise.numbers then
    .ok (.narrower conclusion.numbers)
  else .error .incompatibleVariableSets

/-- The scope with its variables kept by number. -/
def Scope.numbered : Scope → NumberedScope
  | same => .same
  | wider extra => .wider extra.numbered
  | narrower shared => .narrower shared.numbers

namespace ByNumber

/-- The truth value of a proposition, in a session with a registry. -/
def evaluate (r : Registry) (p : Proposition) (a : NumberedAssignment) :
    Except EvaluationError Bool :=
  match p with
  | .atom v => do
      a.requireWithin r (insert v.number ∅)
      a.value v
  | .sentence s => do
      a.requireWithin r (NumberedList.ofProposition (.sentence s)).numbers
      a.valuation.value s.symbols

/-- The value under each assignment, in order. -/
def outcomes (r : Registry) (p : Proposition) : Except EvaluationError (List Bool) := do
  let assignments ← (NumberedList.ofProposition p).assignments
  assignments.filterMapM fun a => return some (← evaluate r p a)

/-- Each assignment with its value, in order. -/
def truthTable (r : Registry) (p : Proposition) :
    Except EvaluationError (List (NumberedAssignment × Bool)) := do
  let assignments ← (NumberedList.ofProposition p).assignments
  assignments.filterMapM fun a => return some (a, ← evaluate r p a)

/-- The assignments that make the proposition true, in order. -/
def satisfying (r : Registry) (p : Proposition) :
    Except EvaluationError (List NumberedAssignment) := do
  let assignments ← (NumberedList.ofProposition p).assignments
  assignments.filterMapM fun a => return if ← evaluate r p a then some a else none

/-- The semantic properties. -/
def properties (r : Registry) (p : Proposition) : Except EvaluationError Properties :=
  (outcomes r p).map .ofOutcomes

/-- Whether a conclusion is true under an assignment of the premise, whatever the
variables that only the conclusion has. -/
def concludes (r : Registry) (scope : NumberedScope) (conclusion : Proposition)
    (a : NumberedAssignment) : Except EvaluationError Bool :=
  match scope with
  | .same => evaluate r conclusion a
  | .wider extra => do
      let extensions ← extra.assignments
      let failing ← extensions.findM? fun extension => do
        return !(← evaluate r conclusion (a.override extension))
      return failing.isNone
  | .narrower shared => evaluate r conclusion (a.restrict shared)

/-- Tries assignments one after another and writes a message about the first one that
fails. -/
def search (r : Registry) (scope : NumberedScope) (conclusion : Proposition)
    (messages : List String) : List NumberedAssignment → Report
  | [] => ⟨.ok .holds, messages⟩
  | a :: rest =>
      match concludes r scope conclusion a with
      | .error failure => ⟨.error failure, messages⟩
      | .ok true => search r scope conclusion messages rest
      | .ok false => ⟨.ok .fails, messages ++ ["counter-example: " ++ a.text r]⟩

/-- Whether a conclusion is true wherever its premise is, with the messages written on
the way. -/
def report (r : Registry) (premise conclusion : Proposition) : Report :=
  match NumberedScope.between (.ofProposition premise) (.ofProposition conclusion) with
  | .error failure => ⟨.error failure, []⟩
  | .ok scope =>
      match satisfying r premise with
      | .error failure => ⟨.error failure, []⟩
      | .ok assignments => search r scope conclusion [] assignments

/-- Whether two propositions entail each other, with the messages written on the way. -/
def reportEquivalence (r : Registry) (left right : Proposition) : Report :=
  (report r left right).both (report r right left)

end ByNumber

section Lists

variable {r : Registry} {l m : Vocabulary} {k : NumberedList}

/-- The numbers of a list that is kept by number are those of its variables. -/
theorem SameList.eq_numbered (h : SameList r l k) : k = l.numbered := by
  obtain ⟨order, numbers⟩ := k
  obtain rfl : order = l.toList := h.order_eq
  obtain rfl : l.toSet.numbers = numbers := h.sameSet.numbers_eq
  rfl

theorem NumberedList.ofProposition_eq {p : Proposition} (hr : r.Extends .empty)
    (hp : ∀ v ∈ p.vocabulary, r.Issued v) : ofProposition p = p.vocabulary.numbered := by
  have hmentioned : ∀ v ∈ ListAction.mentioned (.collect p), r.Issued v := by
    intro v hv
    apply hp
    rw [Proposition.vocabulary_eq_ofList, Vocabulary.mem_ofList]
    exact hv
  have hcollected := sameList_act (.empty r) hr hmentioned
  have hvocabulary : ListForm.vocabulary.act ∅ (.collect p) = p.vocabulary := by
    rw [Proposition.vocabulary_eq_ofList]
    rfl
  rw [hvocabulary] at hcollected
  exact hcollected.eq_numbered

namespace Enumeration

/-- A new enumeration runs through the words from zero on. -/
theorem toList_eq_map_assignmentAt {e : Enumeration} (he : ofVocabulary l = .ok e) :
    e.toList = (List.range (2 ^ l.size)).map fun i => e.assignmentAt (UInt64.ofNat i) := by
  obtain ⟨rfl, _⟩ := eq_of_ofVocabulary he
  rw [toList_ofVocabulary he]
  apply List.map_congr_left
  intro i hi
  rw [assignmentAt_eq, e.toNat_ofNat_of_lt (List.mem_range.mp hi)]

theorem obtained_of_mem_toList {e : Enumeration} (he : ofVocabulary l = .ok e)
    (hl : ∀ v ∈ l, r.Issued v) : ∀ a ∈ e.toList, a.Obtained r := by
  intro a ha
  obtain ⟨hvocabulary, _⟩ := eq_of_ofVocabulary he
  rw [toList_eq_map_assignmentAt he] at ha
  obtain ⟨i, _, rfl⟩ := List.mem_map.mp ha
  apply Assignment.Obtained.assignmentAt
  rw [hvocabulary]
  exact hl

end Enumeration

variable (hr : r.Extends .empty) (hl : ∀ v ∈ l, r.Issued v)
include hr hl

theorem Enumeration.numbered_assignmentAt {e : Enumeration} (he : ofVocabulary l = .ok e)
    (position : UInt64) :
    (e.assignmentAt position).numbered = l.numbered.assignmentAt position := by
  obtain ⟨rfl, _⟩ := eq_of_ofVocabulary he
  apply Assignment.numbered_ofPairs hr
  intro pair hpair
  obtain ⟨⟨v, k⟩, hv, rfl⟩ := List.mem_map.mp hpair
  exact hl v (List.fst_mem_of_mem_zipIdx hv)

/-- Enumerating by number gives the numbers of what is enumerated. -/
theorem Vocabulary.assignments_numbered :
    l.numbered.assignments =
      (Enumeration.ofVocabulary l).map fun e => e.toList.map Assignment.numbered := by
  change (if l.size < positionBits then _ else _) = _
  split
  · rename_i hsize
    obtain ⟨e, he⟩ := Enumeration.exists_ofVocabulary hsize
    rw [he, Except.map, Enumeration.toList_eq_map_assignmentAt he, List.map_map]
    congr 2
    funext i
    exact (Enumeration.numbered_assignmentAt hr hl he _).symm
  · rename_i hsize
    rw [Enumeration.ofVocabulary_eq_error hsize]
    rfl

theorem Vocabulary.sameList_numbered : SameList r l l.numbered := by
  have hset : {v | v ∈ l} = {v | v ∈ l.toSet} := by
    ext v
    exact mem_toSet.symm
  refine ⟨rfl, ?_⟩
  rw [hset]
  exact VariableSet.sameSet_numbers hr fun v hv => hl v (mem_toSet.mp hv)

theorem NumberedScope.between_numbered (hm : ∀ v ∈ m, r.Issued v) :
    between l.numbered m.numbered = (Scope.between l m).map Scope.numbered := by
  have hpremise := Vocabulary.sameList_numbered hr hl
  have hconclusion := Vocabulary.sameList_numbered hr hm
  have hsame : l.numbered.numbers = m.numbered.numbers ↔ l.toSet = m.toSet := by
    obtain ⟨hsets, hnumbers⟩ := hpremise.sameSet.eq_iff hconclusion.sameSet
    exact hnumbers.trans hsets.symm
  have hwider : l.numbered.numbers ⊆ m.numbered.numbers ↔ l.toSet ⊆ m.toSet := by
    obtain ⟨hsets, hnumbers⟩ := hpremise.sameSet.subset_iff hconclusion.sameSet
    exact hnumbers.trans hsets.symm
  have hnarrower : m.numbered.numbers ⊆ l.numbered.numbers ↔ m.toSet ⊆ l.toSet := by
    obtain ⟨hsets, hnumbers⟩ := hconclusion.sameSet.subset_iff hpremise.sameSet
    exact hnumbers.trans hsets.symm
  have hextra : m.numbered.without l.numbered.numbers = (m.without l.toSet).numbered :=
    (hconclusion.without hr fun v hv => hl v (Vocabulary.mem_toSet.mp hv)).eq_numbered
  have hpremiseSize : l.numbered.order.length = l.size := rfl
  have hconclusionSize : m.numbered.order.length = m.size := rfl
  simp only [between, Scope.between, hextra, hsame, hwider, hnarrower, hpremiseSize,
    hconclusionSize]
  split_ifs <;> rfl

end Lists

namespace ByNumber

open Assignment

variable {r : Registry} {p q : Proposition} {a : Assignment} {l : Vocabulary} {scope : Scope}

section Queries

variable (hr : r.Extends .empty) (hp : ∀ v ∈ p.vocabulary, r.Issued v)
include hr hp

theorem evaluate_numbered (ha : Obtained r a) : evaluate r p a.numbered = p.evaluate a := by
  cases p with
  | atom v =>
      have hv : r.Issued v := hp v (by simp [Proposition.vocabulary])
      have hnumbers : insert v.number ∅ = (VariableSet.ofList [v]).numbers := rfl
      have hwithin := requireWithin_numbered (s := .ofList [v]) hr ha (by simpa using hv)
      rw [evaluate, hnumbers, hwithin, value_numbered hr ha hv]
      rfl
  | sentence s =>
      have hset : ∀ v ∈ s.vocabulary.toSet, r.Issued v :=
        fun v hv => hp v (Vocabulary.mem_toSet.mp hv)
      have hatoms : ∀ v ∈ s.occurrences, a.numbered.value v = a.value v := by
        intro v hv
        exact value_numbered hr ha (hp v (Vocabulary.mem_ofList.mpr hv))
      have hvalue : a.numbered.valuation.value s.symbols = a.valuation.value s.symbols := by
        change Interpretation.value { a.valuation with atom := a.numbered.value } _ = _
        exact Interpretation.value_congr hatoms
      have hwithin := requireWithin_numbered hr ha hset
      rw [evaluate, NumberedList.ofProposition_eq hr hp, hvalue]
      change (a.numbered.requireWithin r s.vocabulary.toSet.numbers >>= _) = _
      rw [hwithin]
      rfl

/-- A query by number that keeps something of each assignment and its value keeps the image
of what the query keeps. -/
theorem query_numbered {β γ : Type} (keep : NumberedAssignment → Bool → Option γ)
    (kept : Assignment → Bool → Option β) (image : β → γ)
    (hkeep : ∀ a b, keep a.numbered b = (kept a b).map image) :
    ((NumberedList.ofProposition p).assignments >>= fun assignments =>
        assignments.filterMapM fun a => return keep a (← evaluate r p a)) =
      (p.assignments >>= fun e => e.filterMapM fun a => return kept a (← p.evaluate a)).map
        (List.map image) := by
  rw [NumberedList.ofProposition_eq hr hp, Vocabulary.assignments_numbered hr hp,
    Proposition.assignments]
  cases he : Enumeration.ofVocabulary p.vocabulary with
  | error failure => rfl
  | ok e =>
      change (e.toList.map numbered).filterMapM _ = (e.filterMapM _).map _
      rw [Enumeration.filterMapM_eq]
      apply filterMapM_map_eq
      intro a ha
      rw [evaluate_numbered hr hp (Enumeration.obtained_of_mem_toList he hp a ha)]
      cases p.evaluate a with
      | error failure => rfl
      | ok b => exact congrArg Except.ok (hkeep a b)

theorem outcomes_eq : outcomes r p = p.outcomes := by
  have hquery := query_numbered hr hp (fun _ b => some b) (fun _ b => some b) id
    fun _ _ => rfl
  rw [List.map_id_fun, Except.map_id] at hquery
  exact hquery

theorem truthTable_eq :
    truthTable r p = p.truthTable.map (List.map fun row => (row.1.numbered, row.2)) :=
  query_numbered hr hp (fun a b => some (a, b)) (fun a b => some (a, b)) _ fun _ _ => rfl

theorem satisfying_eq : satisfying r p = p.satisfying.map (List.map numbered) :=
  query_numbered hr hp (fun a b => if b then some a else none)
    (fun a b => if b then some a else none) _ fun _ b => by cases b <;> rfl

theorem properties_eq : properties r p = p.properties := by
  rw [properties, outcomes_eq hr hp, Proposition.properties]

omit hr in
/-- What satisfies a proposition is made of variables that the proposition has. -/
theorem obtained_of_mem_satisfying {found : List Assignment} (h : p.satisfying = .ok found) :
    ∀ a ∈ found, Obtained r a := by
  obtain ⟨e, he, hfound⟩ := bind_eq_ok_iff.mp h
  rw [Enumeration.filterMapM_eq] at hfound
  refine forall_mem_of_filterMapM (P := Obtained r) hfound ?_
  intro a ha b hb
  obtain ⟨value, _, hkept⟩ := bind_eq_ok_iff.mp hb
  cases value with
  | false => cases hkept
  | true =>
      cases hkept
      exact Enumeration.obtained_of_mem_toList he hp a ha

end Queries

section Comparisons

variable (hr : r.Extends .empty) (hq : ∀ v ∈ q.vocabulary, r.Issued v)
include hr hq

theorem concludes_numbered (hscope : Scope.between l q.vocabulary = .ok scope)
    (ha : Obtained r a) :
    concludes r scope.numbered q a.numbered = scope.concludes q a := by
  obtain ⟨rfl, _⟩ | ⟨rfl, _⟩ | ⟨rfl, _⟩ := Scope.cases_of_between hscope
  · exact evaluate_numbered hr hq ha
  · have hextra : ∀ v ∈ q.vocabulary.without l.toSet, r.Issued v :=
      fun v hv => hq v (Vocabulary.mem_without.mp hv).1
    rw [Scope.numbered, concludes, Vocabulary.assignments_numbered hr hextra, Scope.concludes]
    cases he : Enumeration.ofVocabulary (q.vocabulary.without l.toSet) with
    | error failure => rfl
    | ok e =>
        have hvalue : ∀ b ∈ e.toList,
            (do return !(← evaluate r q (a.numbered.override b.numbered))) =
              (do return !(← q.evaluate (a.override b)) : Except EvaluationError Bool) := by
          intro b hb
          have hextension := Enumeration.obtained_of_mem_toList he hextra b hb
          rw [← numbered_override hr ha hextension,
            evaluate_numbered hr hq (ha.override hextension)]
        change ((e.toList.map numbered).findM? _ >>= _) = (e.findM? _ >>= _)
        rw [Enumeration.findM?_eq, findM?_map_eq hvalue]
        cases e.toList.findM? fun b => do return !(← q.evaluate (a.override b)) with
        | error failure => rfl
        | ok failing => cases failing <;> rfl
  · have hshared : ∀ v ∈ q.vocabulary.toSet, r.Issued v :=
      fun v hv => hq v (Vocabulary.mem_toSet.mp hv)
    rw [Scope.numbered, concludes, ← numbered_restrict hr ha hshared]
    exact evaluate_numbered hr hq (ha.restrict _)

theorem search_numbered (hscope : Scope.between l q.vocabulary = .ok scope) (messages : List String)
    {assignments : List Assignment} (h : ∀ a ∈ assignments, Obtained r a) :
    search r scope.numbered q messages (assignments.map numbered) =
      scope.search q messages assignments := by
  induction assignments with
  | nil => rfl
  | cons a rest ih =>
      obtain ⟨ha, hrest⟩ := List.forall_mem_cons.mp h
      rw [List.map_cons, search, Scope.search, concludes_numbered hr hq hscope ha]
      cases scope.concludes q a with
      | error failure => rfl
      | ok holds =>
          cases holds with
          | true => exact ih hrest
          | false =>
              exact congrArg (fun text => Report.mk (.ok .fails)
                (messages ++ ["counter-example: " ++ text])) (text_numbered hr ha)

theorem report_eq (hp : ∀ v ∈ p.vocabulary, r.Issued v) : report r p q = p.report q := by
  rw [report, NumberedList.ofProposition_eq hr hp, NumberedList.ofProposition_eq hr hq,
    NumberedScope.between_numbered hr hp hq, satisfying_eq hr hp, Proposition.report]
  cases hscope : Scope.between p.vocabulary q.vocabulary with
  | error failure => rfl
  | ok scope =>
      cases hfound : p.satisfying with
      | error failure => rfl
      | ok found =>
          exact search_numbered hr hq hscope [] (obtained_of_mem_satisfying hp hfound)

theorem reportEquivalence_eq (hp : ∀ v ∈ p.vocabulary, r.Issued v) :
    reportEquivalence r p q = p.reportEquivalence q := by
  rw [reportEquivalence, report_eq hr hq hp, report_eq hr hp hq, Proposition.reportEquivalence]

/-- Propositions of variables given out are evaluated, queried and compared by number with
the same values, assignments, errors and messages. -/
theorem answers_by_number (hp : ∀ v ∈ p.vocabulary, r.Issued v) :
    (∀ a n, MadeAlike r a n → evaluate r p n = p.evaluate a) ∧
      outcomes r p = p.outcomes ∧
      truthTable r p = p.truthTable.map (List.map fun row => (row.1.numbered, row.2)) ∧
      satisfying r p = p.satisfying.map (List.map numbered) ∧
      properties r p = p.properties ∧
      NumberedScope.between (.ofProposition p) (.ofProposition q) =
        (Scope.between p.vocabulary q.vocabulary).map Scope.numbered ∧
      report r p q = p.report q ∧ reportEquivalence r p q = p.reportEquivalence q := by
  refine ⟨?_, outcomes_eq hr hp, truthTable_eq hr hp, satisfying_eq hr hp, properties_eq hr hp,
    ?_, report_eq hr hq hp, reportEquivalence_eq hr hq hp⟩
  · intro a n hmade
    rw [← hmade.numbered_eq hr]
    exact evaluate_numbered hr hp hmade.obtained
  · rw [NumberedList.ofProposition_eq hr hp, NumberedList.ofProposition_eq hr hq]
    exact NumberedScope.between_numbered hr hp hq

/-- The verdicts by number are those of entailment and equivalence. -/
theorem verdicts_by_number (hp : ∀ v ∈ p.vocabulary, r.Issued v) :
    (report r p q).answer = (p.entails q).map Comparison.verdict ∧
      (reportEquivalence r p q).answer = (p.equivalent q).map Comparison.verdict := by
  rw [reportEquivalence_eq hr hq hp, report_eq hr hq hp, p.report_eq q]
  exact ⟨Report.answer_ofComparison [] _, (p.reportEquivalence_of_both q).1⟩

end Comparisons

/-- The variable of the greater number comes first in the text and changes its value
last. -/
example :
    let b : Variable := ⟨'b', 98⟩
    let é : Variable := ⟨'é', 128⟩
    let r := Session.registry [.sentence "é & ~b"]
    let p : Proposition := .sentence ⟨(Formula.conj (.atom é) (.neg (.atom b))).symbols⟩
    outcomes r p = .ok [false, false, true, false] ∧
      satisfying r p = .ok [(Assignment.ofPairs [(é, true), (b, false)]).numbered] := by
  decide +kernel

end ByNumber

end Sentential
