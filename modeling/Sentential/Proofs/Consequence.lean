/-
Entailment decides semantic consequence.  However the variables of premise and
conclusion are related, a satisfying assignment of the premise passes just when
the conclusion is true under every valuation that extends it; so there is a
counterexample just when the conclusion does not follow.
-/
import Mathlib.Data.List.Perm.Subperm
import Sentential.Entailment
import Sentential.Proofs.Queries

namespace Sentential

namespace Vocabulary

variable {l m : Vocabulary}

theorem toSet_subset_iff : l.toSet ⊆ m.toSet ↔ ∀ v ∈ l, v ∈ m := by
  constructor
  · intro h v hv
    exact mem_toSet.mp (h v (mem_toSet.mpr hv))
  · intro h v hv
    exact mem_toSet.mpr (h v (mem_toSet.mp hv))

/-- A vocabulary within one that is no larger has the same variables. -/
theorem same_of_toSet_subset (h : l.toSet ⊆ m.toSet) (hsize : ¬ l.size < m.size) :
    l.size = m.size ∧ l.toSet = m.toSet := by
  have hge : m.size ≤ l.size := Nat.le_of_not_lt hsize
  have hsubperm : l.toList.Subperm m.toList :=
    List.subperm_of_subset l.nodup (toSet_subset_iff.mp h)
  refine ⟨Nat.le_antisymm hsubperm.length_le hge, ?_⟩
  ext v
  rw [mem_toSet, mem_toSet]
  exact (hsubperm.perm_of_length_le hge).mem_iff

end Vocabulary

namespace Assignment

variable {a b : Assignment} {l m : Vocabulary}

/-- An assignment cut down to a narrower vocabulary is one of just its variables. -/
theorem domain_restrict_toSet (ha : a.domain = l.toSet) (hsubset : m.toSet ⊆ l.toSet) :
    (a.restrict m.toSet).domain = m.toSet := by
  ext v
  rw [domain_restrict, ha, VariableSet.mem_inter]
  exact ⟨And.right, fun hv => ⟨hsubset v hv, hv⟩⟩

/-- An assignment extended by the further variables of a wider vocabulary is one of just
the variables of the wider one. -/
theorem domain_override_toSet (ha : a.domain = l.toSet) (hsubset : l.toSet ⊆ m.toSet)
    (hb : b.domain = (m.without l.toSet).toSet) : (a.override b).domain = m.toSet := by
  ext v
  rw [domain_override, ha, hb, VariableSet.mem_union, Vocabulary.mem_toSet,
    Vocabulary.mem_toSet, Vocabulary.mem_toSet, Vocabulary.mem_without, Vocabulary.mem_toSet]
  constructor
  · rintro (hv | hv)
    · exact Vocabulary.toSet_subset_iff.mp hsubset v hv
    · exact hv.1
  · intro hv
    by_cases hl : v ∈ l
    · exact Or.inl hl
    · exact Or.inr ⟨hv, hl⟩

end Assignment

namespace Scope

variable {premise conclusion : Vocabulary} {scope : Scope}

/-- Two vocabularies have a scope if one includes the other. -/
theorem exists_between
    (h : premise.toSet ⊆ conclusion.toSet ∨ conclusion.toSet ⊆ premise.toSet) :
    ∃ scope, between premise conclusion = .ok scope := by
  simp only [between]
  split
  · exact ⟨_, rfl⟩
  · rename_i hsame
    split
    · exact ⟨_, rfl⟩
    · rename_i hwider
      split
      · exact ⟨_, rfl⟩
      · rename_i hnarrower
        exfalso
        rcases h with h | h
        · exact hsame (Vocabulary.same_of_toSet_subset h fun hlt => hwider ⟨hlt, h⟩)
        · have hequal := Vocabulary.same_of_toSet_subset h fun hlt => hnarrower ⟨hlt, h⟩
          exact hsame ⟨hequal.1.symm, hequal.2.symm⟩

/-- What a scope says about the variables. -/
theorem cases_of_between (h : between premise conclusion = .ok scope) :
    (scope = .same ∧ premise.toSet = conclusion.toSet) ∨
      (scope = .wider (conclusion.without premise.toSet) ∧
        premise.toSet ⊆ conclusion.toSet) ∨
      (scope = .narrower conclusion.toSet ∧ conclusion.toSet ⊆ premise.toSet) := by
  simp only [between] at h
  split at h
  · rename_i hsame
    cases h
    exact Or.inl ⟨rfl, hsame.2⟩
  · split at h
    · rename_i hwider
      cases h
      exact Or.inr (Or.inl ⟨rfl, hwider.2⟩)
    · split at h
      · rename_i hnarrower
        cases h
        exact Or.inr (Or.inr ⟨rfl, hnarrower.2⟩)
      · cases h

end Scope

/-- A formula is true under every valuation that agrees with an assignment on a
vocabulary. -/
def Formula.Forced (g : Formula Variable) (l : Vocabulary) (a : Assignment) : Prop :=
  ∀ ν : Variable → Bool, (∀ v ∈ l, ν v = a.read v) → g.eval ν = true

namespace Proposition.Expresses

variable {premise conclusion : Proposition} {f g : Formula Variable} {l : Vocabulary}
  {a : Assignment}

/-- If the conclusion has no variable outside the vocabulary, one valuation decides. -/
theorem forced_iff (hg : conclusion.Expresses g) {b : Assignment}
    (hsubset : conclusion.vocabulary.toSet ⊆ l.toSet)
    (hread : ∀ v ∈ conclusion.vocabulary, b.read v = a.read v) :
    g.Forced l a ↔ g.eval b.read = true := by
  have hagree : ∀ ν : Variable → Bool, (∀ v ∈ l, ν v = a.read v) →
      g.eval ν = g.eval b.read := by
    intro ν hν
    apply Formula.eval_congr
    intro v hv
    have hmem := hg.mem_vocabulary.mpr hv
    have hl : v ∈ l := Vocabulary.toSet_subset_iff.mp hsubset v hmem
    rw [hν v hl, hread v hmem]
  constructor
  · intro hforced
    rw [← hagree a.read fun _ _ => rfl]
    exact hforced a.read fun _ _ => rfl
  · intro heval ν hν
    rw [hagree ν hν]
    exact heval

/-- Otherwise the extensions by the further variables decide. -/
theorem forced_iff_forall_extension (hg : conclusion.Expresses g)
    {extra : Vocabulary}
    (hextra : ∀ v, v ∈ extra ↔ v ∈ conclusion.vocabulary ∧ v ∉ l) :
    g.Forced l a ↔
      ∀ b : Assignment, b.domain = extra.toSet → g.eval (a.override b).read = true := by
  constructor
  · intro hforced b hb
    apply hforced
    intro v hv
    apply Assignment.read_override_of_not_mem
    rw [hb, Vocabulary.mem_toSet, hextra]
    exact fun h => h.2 hv
  · intro hall ν hν
    have heval := hall (extra.assign ν) Vocabulary.domain_assign
    rw [← heval]
    apply Formula.eval_congr
    intro v hv
    by_cases hmem : v ∈ extra
    · rw [Assignment.read_override_of_mem (by simpa using hmem), Vocabulary.read_assign hmem]
    · have hl : v ∈ l := by
        by_contra hnot
        exact hmem ((hextra v).mpr ⟨hg.mem_vocabulary.mpr hv, hnot⟩)
      rw [Assignment.read_override_of_not_mem (by simpa using hmem), hν v hl]

section Concludes

open Classical

theorem concludes_same (hg : conclusion.Expresses g)
    (hsets : l.toSet = conclusion.vocabulary.toSet) (ha : a.domain = l.toSet) :
    Scope.same.concludes conclusion a = .ok (decide (g.Forced l a)) := by
  have hforced := hg.forced_iff (a := a) (b := a) (fun v hv => hsets ▸ hv) fun _ _ => rfl
  rw [Scope.concludes, hg.evaluate_eq (ha.trans hsets)]
  simp [hforced]

theorem concludes_narrower (hg : conclusion.Expresses g)
    (hsubset : conclusion.vocabulary.toSet ⊆ l.toSet) (ha : a.domain = l.toSet) :
    (Scope.narrower conclusion.vocabulary.toSet).concludes conclusion a =
      .ok (decide (g.Forced l a)) := by
  have hdomain := Assignment.domain_restrict_toSet ha hsubset
  have hforced := hg.forced_iff (a := a) hsubset fun v hv =>
    Assignment.read_restrict (Vocabulary.mem_toSet.mpr hv)
  rw [Scope.concludes, hg.evaluate_eq hdomain]
  simp [hforced]

/-- The search for an extension that makes the conclusion false runs through all
assignments of the further variables. -/
theorem concludes_wider (hg : conclusion.Expresses g)
    (hsize : (conclusion.vocabulary.without l.toSet).size < positionBits)
    (hsubset : l.toSet ⊆ conclusion.vocabulary.toSet) (ha : a.domain = l.toSet) :
    (Scope.wider (conclusion.vocabulary.without l.toSet)).concludes conclusion a =
      .ok (decide (g.Forced l a)) := by
  have hextra : ∀ v, v ∈ conclusion.vocabulary.without l.toSet ↔
      v ∈ conclusion.vocabulary ∧ v ∉ l := by
    simp
  have hforced := hg.forced_iff_forall_extension (a := a) hextra
  obtain ⟨e, he⟩ := Enumeration.exists_ofVocabulary hsize
  have hmem : ∀ b, b ∈ e.toList ↔
      b.domain = (conclusion.vocabulary.without l.toSet).toSet :=
    fun b => Enumeration.mem_toList_ofVocabulary he
  have hvalue : ∀ b ∈ e.toList,
      (do return !(← conclusion.evaluate (a.override b))) =
        Except.ok (!g.eval (a.override b).read) := by
    intro b hb
    have hdomain := Assignment.domain_override_toSet ha hsubset ((hmem b).mp hb)
    rw [hg.evaluate_eq hdomain]
    rfl
  have hfound : (e.toList.find? fun b => !g.eval (a.override b).read).isNone =
      decide (g.Forced l a) := by
    rw [Bool.eq_iff_iff, Option.isNone_iff_eq_none, List.find?_eq_none, decide_eq_true_iff,
      hforced]
    simp [hmem]
  rw [Scope.concludes, he]
  change (e.findM? _ >>= _) = _
  rw [Enumeration.findM?_eq, findM?_eq_ok hvalue, ← hfound]
  rfl

/-- A conclusion passes an assignment of the premise just when it is true under every
valuation that extends the assignment. -/
theorem concludes_eq (hg : conclusion.Expresses g)
    (hsize : (conclusion.vocabulary.without l.toSet).size < positionBits) {scope : Scope}
    (hscope : Scope.between l conclusion.vocabulary = .ok scope)
    (ha : a.domain = l.toSet) :
    scope.concludes conclusion a = .ok (decide (g.Forced l a)) := by
  obtain ⟨rfl, hsets⟩ | ⟨rfl, hsubset⟩ | ⟨rfl, hsubset⟩ := Scope.cases_of_between hscope
  · exact hg.concludes_same hsets ha
  · exact hg.concludes_wider hsize hsubset ha
  · exact hg.concludes_narrower hsubset ha

/-- The counterexample is the first satisfying assignment of the premise that some
extension shows to be one. -/
theorem counterexample?_eq (hf : premise.Expresses f) (hg : conclusion.Expresses g)
    {scope : Scope} {e : Enumeration}
    (hscope : Scope.between premise.vocabulary conclusion.vocabulary = .ok scope)
    (he : premise.assignments = .ok e)
    (hsize : (conclusion.vocabulary.without premise.vocabulary.toSet).size < positionBits) :
    premise.counterexample? conclusion =
      .ok ((e.toList.filter fun a => f.eval a.read).find? fun a =>
        !decide (g.Forced premise.vocabulary a)) := by
  have hvalue : ∀ a ∈ e.toList.filter fun a => f.eval a.read,
      (do return !(← scope.concludes conclusion a)) =
        Except.ok (!decide (g.Forced premise.vocabulary a)) := by
    intro a ha
    have hdomain := (Enumeration.mem_toList_ofVocabulary he).mp (List.mem_filter.mp ha).1
    rw [hg.concludes_eq hsize hscope hdomain]
    rfl
  rw [counterexample?, hscope, hf.satisfying_eq he]
  exact findM?_eq_ok hvalue

end Concludes

/-- There is no counterexample just when the conclusion is true wherever the premise
is. -/
theorem forall_forced_iff (hf : premise.Expresses f) {e : Enumeration}
    (he : premise.assignments = .ok e) :
    (∀ a ∈ e.toList, f.eval a.read = true → g.Forced premise.vocabulary a) ↔
      ∀ ν : Variable → Bool, f.eval ν = true → g.eval ν = true := by
  constructor
  · intro hall ν hν
    have hmem : premise.vocabulary.assign ν ∈ e.toList :=
      (Enumeration.mem_toList_ofVocabulary he).mpr Vocabulary.domain_assign
    have hvalue := hf.eval_read_assign ν
    rw [hν] at hvalue
    exact hall _ hmem hvalue ν fun v hv => (Vocabulary.read_assign hv).symm
  · intro hall a _ hvalue ν hν
    apply hall
    rw [← hvalue]
    apply Formula.eval_congr
    intro v hv
    exact hν v (hf.mem_vocabulary.mpr hv)

open Classical in
/-- Entailment answers whether the conclusion is true wherever the premise is. -/
theorem verdict_entails_eq (hf : premise.Expresses f) (hg : conclusion.Expresses g)
    {scope : Scope} {e : Enumeration}
    (hscope : Scope.between premise.vocabulary conclusion.vocabulary = .ok scope)
    (he : premise.assignments = .ok e)
    (hsize : (conclusion.vocabulary.without premise.vocabulary.toSet).size < positionBits) :
    (premise.entails conclusion).map Comparison.verdict =
      .ok (.ofBool (decide (∀ ν : Variable → Bool, f.eval ν = true → g.eval ν = true))) := by
  have hcounterexample := hf.counterexample?_eq hg hscope he hsize
  generalize hfound : ((e.toList.filter fun a => f.eval a.read).find? fun a =>
    !decide (g.Forced premise.vocabulary a)) = found at hcounterexample
  have hnone : found.isNone =
      decide (∀ ν : Variable → Bool, f.eval ν = true → g.eval ν = true) := by
    rw [Bool.eq_iff_iff, decide_eq_true_iff, ← hf.forall_forced_iff he,
      Option.isNone_iff_eq_none, ← hfound, List.find?_eq_none]
    simp
  rw [← hnone, entails, hcounterexample]
  cases found <;> rfl

theorem exists_verdict_entails_eq (hf : premise.Expresses f) (hg : conclusion.Expresses g)
    (hpremise : premise.vocabulary.size < positionBits)
    (hconclusion : conclusion.vocabulary.size < positionBits)
    (hsets : premise.vocabulary.toSet ⊆ conclusion.vocabulary.toSet ∨
      conclusion.vocabulary.toSet ⊆ premise.vocabulary.toSet) :
    ∃ holds : Bool,
      (premise.entails conclusion).map Comparison.verdict = .ok (.ofBool holds) ∧
        (holds = true ↔ ∀ ν : Variable → Bool, f.eval ν = true → g.eval ν = true) := by
  classical
  obtain ⟨scope, hscope⟩ := Scope.exists_between hsets
  obtain ⟨e, he⟩ := Enumeration.exists_ofVocabulary hpremise
  have hextra : (conclusion.vocabulary.without premise.vocabulary.toSet).size < positionBits :=
    Nat.lt_of_le_of_lt (List.length_filter_le _ _) hconclusion
  exact ⟨_, hf.verdict_entails_eq hg hscope he hextra, decide_eq_true_iff⟩

end Proposition.Expresses

/-- For propositions that express formulas, with one set of variables within the
other, entailment always has an answer, and the answer is semantic consequence. -/
theorem verdict_entails_of_expresses {premise conclusion : Proposition}
    {f g : Formula Variable} (hf : premise.Expresses f) (hg : conclusion.Expresses g)
    (hpremise : premise.vocabulary.size < 64) (hconclusion : conclusion.vocabulary.size < 64)
    (hsets : premise.vocabulary.toSet ⊆ conclusion.vocabulary.toSet ∨
      conclusion.vocabulary.toSet ⊆ premise.vocabulary.toSet) :
    ((∀ ν : Variable → Bool, f.eval ν = true → g.eval ν = true) →
        (premise.entails conclusion).map Comparison.verdict = .ok .holds) ∧
      ((∃ ν : Variable → Bool, f.eval ν = true ∧ g.eval ν = false) →
        (premise.entails conclusion).map Comparison.verdict = .ok .fails) ∧
      ∃ holds : Bool,
        (premise.entails conclusion).map Comparison.verdict = .ok (.ofBool holds) := by
  obtain ⟨holds, hverdict, hiff⟩ :=
    hf.exists_verdict_entails_eq hg hpremise hconclusion hsets
  refine ⟨?_, ?_, holds, hverdict⟩
  · intro hall
    rw [hverdict, hiff.mpr hall]
    rfl
  · rintro ⟨ν, hpositive, hnegative⟩
    cases holds with
    | false => exact hverdict
    | true =>
        have htrue := hiff.mp rfl ν hpositive
        rw [hnegative] at htrue
        cases htrue

/-- The conclusion has one variable more than the premise, and lists the shared ones
in another order. -/
theorem verdict_entails_of_wider_conclusion :
    let a : Variable := ⟨'a', 97⟩
    let b : Variable := ⟨'b', 98⟩
    let c : Variable := ⟨'c', 99⟩
    let f : Formula Variable := .conj (.atom a) (.neg (.atom b))
    let g : Formula Variable :=
      .conj (.neg (.atom b)) (.disj (.atom c) (.atom a))
    let premise : Proposition := .sentence ⟨f.symbols⟩
    let conclusion : Proposition := .sentence ⟨g.symbols⟩
    premise.Expresses f ∧ conclusion.Expresses g ∧
      premise.vocabulary.size < 64 ∧ conclusion.vocabulary.size < 64 ∧
      premise.vocabulary.toSet ⊆ conclusion.vocabulary.toSet ∧
      (∀ ν : Variable → Bool, f.eval ν = true → g.eval ν = true) ∧
      (premise.entails conclusion).map Comparison.verdict = .ok .holds := by
  intro a b c f g premise conclusion
  have hf : premise.Expresses f := rfl
  have hg : conclusion.Expresses g := rfl
  have hpremise : premise.vocabulary.size < 64 := by decide
  have hconclusion : conclusion.vocabulary.size < 64 := by decide
  have hsubset : premise.vocabulary.toSet ⊆ conclusion.vocabulary.toSet := by decide
  have hfollows : ∀ ν : Variable → Bool, f.eval ν = true → g.eval ν = true := by
    intro ν
    cases ha : ν a <;> cases hb : ν b <;> cases hc : ν c <;>
      simp [f, g, Formula.eval, ha, hb, hc]
  obtain ⟨hholds, _⟩ :=
    verdict_entails_of_expresses hf hg hpremise hconclusion (Or.inl hsubset)
  exact ⟨hf, hg, hpremise, hconclusion, hsubset, hfollows, hholds hfollows⟩

end Sentential
