/-
Counterexamples.  A comparison that writes a message when an assignment fails leaves the
messages that the comparison with its counterexamples shows, errors included: one if it
fails and none otherwise.  The message shows an assignment that is a counterexample
indeed, and no assignment before it is one.  Two comparisons write theirs one after the
other, and an error in the second does not take back what the first has written.
-/
import Sentential.Proofs.Refusals

namespace Sentential

/-- What a comparison leaves behind: its answer, or the error that ended it, and the
messages that were written until then. -/
structure Report where
  answer : Except EvaluationError Verdict
  messages : List String

namespace Report

/-- The report of a comparison that begins after some messages. -/
def ofComparison (messages : List String) : Except EvaluationError Comparison → Report
  | .error failure => ⟨.error failure, messages⟩
  | .ok c => ⟨.ok c.verdict, messages ++ c.trace⟩

theorem answer_ofComparison (messages : List String) (result : Except EvaluationError Comparison) :
    (ofComparison messages result).answer = result.map Comparison.verdict := by
  cases result <;> rfl

end Report

/-- Tries assignments one after another and writes a message about the first one that
fails. -/
def Scope.search (scope : Scope) (conclusion : Proposition) (messages : List String) :
    List Assignment → Report
  | [] => ⟨.ok .holds, messages⟩
  | a :: rest =>
      match scope.concludes conclusion a with
      | .error failure => ⟨.error failure, messages⟩
      | .ok true => scope.search conclusion messages rest
      | .ok false => ⟨.ok .fails, messages ++ ["counter-example: " ++ toString a]⟩

/-- Whether a conclusion is true wherever its premise is, with the messages written on
the way. -/
def Proposition.report (premise conclusion : Proposition) : Report :=
  match Scope.between premise.vocabulary conclusion.vocabulary with
  | .error failure => ⟨.error failure, []⟩
  | .ok scope =>
      match premise.satisfying with
      | .error failure => ⟨.error failure, []⟩
      | .ok assignments => scope.search conclusion [] assignments

/-- Two comparisons one after the other.  The second one begins if the first has an answer,
and an error in it leaves the messages of the first. -/
def Report.both (forth back : Report) : Report :=
  match forth.answer with
  | .error failure => ⟨.error failure, forth.messages⟩
  | .ok verdict => ⟨back.answer.map verdict.and, forth.messages ++ back.messages⟩

/-- Whether two propositions entail each other, with the messages written on the way. -/
def Proposition.reportEquivalence (left right : Proposition) : Report :=
  (left.report right).both (right.report left)

/-- The search that writes messages finds what the search for a counterexample finds. -/
theorem Scope.search_eq (scope : Scope) (conclusion : Proposition) (messages : List String)
    (assignments : List Assignment) :
    scope.search conclusion messages assignments =
      .ofComparison messages ((assignments.findM? fun a => do
        return !(← scope.concludes conclusion a)).map .ofCounterexample?) := by
  induction assignments with
  | nil =>
      change _ = Report.mk (.ok .holds) (messages ++ [])
      rw [List.append_nil]
      rfl
  | cons a rest ih =>
      rw [search, List.findM?]
      cases scope.concludes conclusion a with
      | error failure => rfl
      | ok holds =>
          cases holds with
          | true => exact ih
          | false => rfl

/-- A valuation gives every variable the value it has under an assignment, if it has
one. -/
def Assignment.ExtendedBy (a : Assignment) (ν : Variable → Bool) : Prop :=
  ∀ v b, a.get? v = some b → ν v = b

theorem Assignment.Over.extendedBy_iff {a : Assignment} {l : Vocabulary} (ha : a.Over l)
    {ν : Variable → Bool} : a.ExtendedBy ν ↔ ∀ v ∈ l, ν v = a.read v := by
  have hdomain : ∀ v, v ∈ a.domain ↔ v ∈ l := fun v => by
    rw [over_iff_domain_eq.mp ha, Vocabulary.mem_toSet]
  constructor
  · intro h v hv
    exact h v _ (get?_eq_some_read ((hdomain v).mpr hv))
  · intro h v b hb
    have hv : v ∈ a.domain := mem_domain.mpr (by simp [hb])
    rw [h v ((hdomain v).mp hv)]
    simp [read, hb]

namespace Proposition

variable {p q : Proposition} {f g : Formula Variable} {s : Assignment}

theorem report_eq (p q : Proposition) : p.report q = .ofComparison [] (p.entails q) := by
  rw [report, entails, counterexample?]
  cases Scope.between p.vocabulary q.vocabulary with
  | error failure => rfl
  | ok scope =>
      cases p.satisfying with
      | error failure => rfl
      | ok assignments => exact scope.search_eq q [] assignments

theorem entails_eq_of_counterexample? {found : Option Assignment}
    (h : p.counterexample? q = .ok found) : p.entails q = .ok (.ofCounterexample? found) := by
  rw [entails, h]
  rfl

/-- Without a counterexample there is no message. -/
theorem messages_report_of_not_fails
    (h : (p.entails q).map Comparison.verdict ≠ .ok .fails) : (p.report q).messages = [] := by
  rw [report_eq]
  rw [entails] at h ⊢
  cases hsearch : p.counterexample? q with
  | error failure => rfl
  | ok found =>
      cases found with
      | none => rfl
      | some a =>
          rw [hsearch] at h
          exact absurd rfl h

theorem exists_counterexample_of_fails
    (h : (p.entails q).map Comparison.verdict = .ok .fails) :
    ∃ s, p.counterexample? q = .ok (some s) := by
  obtain ⟨c, hc, hverdict⟩ := map_eq_ok_iff.mp h
  obtain ⟨found, hfound, rfl⟩ := map_eq_ok_iff.mp hc
  cases found with
  | none => cases hverdict
  | some s => exact ⟨s, hfound⟩

/-- A comparison that fails was not settled by any question before the last one. -/
theorem wellFormed_of_fails (h : (p.entails q).map Comparison.verdict = .ok .fails) :
    Comparable p q ∧ p.vocabulary.size < positionBits ∧
      (q.vocabulary.without p.vocabulary.toSet).size < positionBits ∧
      p.WellFormed ∧ q.WellFormed := by
  rw [verdict_entails_eq_settled, settled] at h
  split_ifs at h with hsets hsize hp hsatisfied hextra hq
  · exact ⟨hsets, Nat.lt_of_not_le hsize, Nat.lt_of_not_le hextra, hp, hq⟩
  · cases h

/-- An assignment of the premise decides the conclusion for all valuations that extend
it. -/
theorem Expresses.forced_iff_extendedBy (hg : q.Expresses g) {a : Assignment} {l : Vocabulary}
    (ha : a.Over l) :
    g.Forced l a ↔
      ∀ ν, a.ExtendedBy ν → q.evaluate (q.vocabulary.assign ν) = .ok true := by
  apply forall_congr'
  intro ν
  rw [ha.extendedBy_iff, hg.evaluate_assign, Except.ok.injEq]

/-- What a counterexample tells about its place in the enumeration. -/
theorem Expresses.split_of_counterexample? (hf : p.Expresses f) (hg : q.Expresses g)
    {scope : Scope} {e : Enumeration}
    (hscope : Scope.between p.vocabulary q.vocabulary = .ok scope)
    (he : p.assignments = .ok e)
    (hextra : (q.vocabulary.without p.vocabulary.toSet).size < positionBits)
    (h : p.counterexample? q = .ok (some s)) :
    f.eval s.read = true ∧ ¬ g.Forced p.vocabulary s ∧
      ∃ before after, e.toList = before ++ s :: after ∧
        ∀ a ∈ before, f.eval a.read = true → g.Forced p.vocabulary a := by
  classical
  rw [hf.counterexample?_eq hg hscope he hextra, List.find?_filter, Except.ok.injEq,
    List.find?_eq_some_iff_append] at h
  obtain ⟨hcounterexample, before, after, hsplit, hbefore⟩ := h
  obtain ⟨htrue, hunforced⟩ :
      f.eval s.read = true ∧ ¬ g.Forced p.vocabulary s := by simpa using hcounterexample
  refine ⟨htrue, hunforced, before, after, hsplit, ?_⟩
  intro a ha htrue
  simpa [htrue] using hbefore a ha

/-- A premise is true under an assignment of just its variables, and some valuation that
extends the assignment makes the conclusion false. -/
structure Counterexample (p q : Proposition) (s : Assignment) : Prop where
  isOver : s.Over p.vocabulary
  satisfies : p.evaluate s = .ok true
  refutes : ∃ ν, s.ExtendedBy ν ∧ q.evaluate (q.vocabulary.assign ν) = .ok false

theorem Expresses.counterexample (hf : p.Expresses f) (hg : q.Expresses g)
    (hs : s.Over p.vocabulary) (htrue : f.eval s.read = true)
    (hunforced : ¬ g.Forced p.vocabulary s) : Counterexample p q s := by
  refine ⟨hs, ?_, ?_⟩
  · rw [hf.evaluate_eq (Assignment.over_iff_domain_eq.mp hs), htrue]
  · rw [hg.forced_iff_extendedBy hs] at hunforced
    obtain ⟨ν, hν⟩ := not_forall.mp hunforced
    obtain ⟨hextends, hfalse⟩ := Classical.not_imp.mp hν
    refine ⟨ν, hextends, ?_⟩
    rw [hg.evaluate_assign] at hfalse ⊢
    simpa using hfalse

/-- Where a comparison fails, it stops at the first counterexample. -/
theorem exists_first_counterexample (h : (p.entails q).map Comparison.verdict = .ok .fails) :
    ∃ e before after s, p.assignments = .ok e ∧ e.toList = before ++ s :: after ∧
      p.counterexample? q = .ok (some s) ∧ Counterexample p q s ∧
      ∀ a ∈ before, p.evaluate a = .ok true →
        ∀ ν, a.ExtendedBy ν → q.evaluate (q.vocabulary.assign ν) = .ok true := by
  obtain ⟨hsets, hsize, hextra, hp, hq⟩ := wellFormed_of_fails h
  obtain ⟨f, hf⟩ := wellFormed_iff_exists_expresses.mp hp
  obtain ⟨g, hg⟩ := wellFormed_iff_exists_expresses.mp hq
  obtain ⟨scope, hscope⟩ := Scope.exists_between hsets
  obtain ⟨e, he⟩ := Enumeration.exists_ofVocabulary hsize
  obtain ⟨s, hs⟩ := exists_counterexample_of_fails h
  obtain ⟨htrue, hunforced, before, after, hsplit, hbefore⟩ :=
    hf.split_of_counterexample? hg hscope he hextra hs
  have hover : ∀ a ∈ e.toList, a.Over p.vocabulary := fun a ha =>
    Assignment.over_iff_domain_eq.mpr ((Enumeration.mem_toList_ofVocabulary he).mp ha)
  refine ⟨e, before, after, s, he, hsplit, hs,
    hf.counterexample hg (hover s (by simp [hsplit])) htrue hunforced, ?_⟩
  intro a ha hvalue
  have hearlier := hover a (by simp [hsplit, ha])
  rw [hf.evaluate_eq (Assignment.over_iff_domain_eq.mp hearlier), Except.ok.injEq] at hvalue
  exact (hg.forced_iff_extendedBy hearlier).mp (hbefore a ha hvalue)

/-- A comparison writes a message just if it fails, and then a single one.  It shows a
counterexample, and whichever valuation extends an earlier assignment that satisfies the
premise makes the conclusion true. -/
theorem report_first_counterexample (p q : Proposition) :
    (p.report q).answer = (p.entails q).map Comparison.verdict ∧
      (∀ c, p.entails q = .ok c → (p.report q).messages = c.trace) ∧
      ((p.report q).answer = .ok .fails →
        ∃ (e : Enumeration) (before after : List Assignment) (s : Assignment),
          p.assignments = .ok e ∧ e.toList = before ++ s :: after ∧
          (p.report q).messages = ["counter-example: " ++ toString s] ∧
          Counterexample p q s ∧
          ∀ a ∈ before, p.evaluate a = .ok true →
            ∀ ν, a.ExtendedBy ν → q.evaluate (q.vocabulary.assign ν) = .ok true) ∧
      ((p.report q).answer ≠ .ok .fails → (p.report q).messages = []) := by
  have hreport := p.report_eq q
  have hanswer : (p.report q).answer = (p.entails q).map Comparison.verdict := by
    rw [hreport, Report.answer_ofComparison]
  rw [hanswer]
  refine ⟨rfl, ?_, ?_, messages_report_of_not_fails⟩
  · intro c hc
    rw [hreport, hc]
    rfl
  · intro hfails
    obtain ⟨e, before, after, s, he, hsplit, hs, hgenuine, hbefore⟩ :=
      exists_first_counterexample hfails
    refine ⟨e, before, after, s, he, hsplit, ?_, hgenuine, hbefore⟩
    rw [hreport, entails_eq_of_counterexample? hs]
    rfl

/-- The message shows the variables of the premise only. -/
example :
    let a : Variable := ⟨'a', 97⟩
    let b : Variable := ⟨'b', 98⟩
    (report (.atom a) (.sentence ⟨(Formula.conj (.atom b) (.atom a)).symbols⟩)).messages =
      ["counter-example: " ++ toString (Assignment.ofPairs [(a, true)])] := rfl

/-- Two comparisons write the messages that their counterexamples give.  An error in the
second one leaves the counterexample of the first out of the answer, but what was written
about it stays. -/
theorem reportEquivalence_of_both (p q : Proposition) :
    (p.reportEquivalence q).answer = (p.equivalent q).map Comparison.verdict ∧
      (∀ c, p.equivalent q = .ok c → (p.reportEquivalence q).messages = c.trace) ∧
      ∀ failure, p.equivalent q = .error failure →
        (p.reportEquivalence q).messages = (p.report q).messages := by
  rw [reportEquivalence, p.report_eq q, q.report_eq p, equivalent]
  cases p.entails q with
  | error failure =>
      refine ⟨rfl, ?_, fun _ _ => rfl⟩
      intro c h
      cases h
  | ok forth =>
      cases q.entails p with
      | error failure =>
          refine ⟨rfl, ?_, fun _ _ => List.append_nil _⟩
          intro c h
          cases h
      | ok back =>
          refine ⟨rfl, ?_, ?_⟩
          · intro c h
            cases h
            exact (forth.trace_and back).symm
          · intro failure h
            cases h

/-- A conjunction of 64 variables is too large for a premise, but not for a conclusion that
fails. -/
example :
    let a : Variable := ⟨'a', 97⟩
    let others : List Variable := (List.range 63).map fun i => ⟨Char.ofNat (256 + i), 128 + i⟩
    let q : Proposition := .sentence
      ⟨.atom a :: others.flatMap fun v => [.atom v, .connective .conjunction]⟩
    (Proposition.atom a).equivalent q = .error (.tooManyVariables 64) ∧
      (reportEquivalence (.atom a) q).messages.length = 1 := by
  decide +kernel

end Proposition

end Sentential
