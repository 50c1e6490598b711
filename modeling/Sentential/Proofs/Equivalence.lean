/-
Equivalence.  Two entailments decide it, and each of them may hold without a look at its
conclusion.  But the conclusion of the one is the premise of the other, so between them
nothing malformed goes unnoticed, and the answer is the same in either order.
-/
import Sentential.Proofs.Preorder

namespace Sentential

namespace Proposition

variable {p q : Proposition} {f g : Formula Variable}

theorem comparable_comm : Comparable p q ↔ Comparable q p := Or.comm

section Settled

variable (hp : p.vocabulary.size < 64) (hq : q.vocabulary.size < 64)
  (hsets : Comparable p q)
include hp hq hsets

theorem settled_of_malformed_premise (hpremise : ¬ p.WellFormed) :
    settled p q = .error .malformedExpression := by
  rw [settled_of_size_lt hp hq, if_neg (not_not_intro hsets), if_pos hpremise]

/-- A malformed conclusion is either not looked at or noticed. -/
theorem settled_of_malformed_conclusion (hpremise : p.WellFormed)
    (hconclusion : ¬ q.WellFormed) :
    settled p q = .ok .holds ∨ settled p q = .error .malformedExpression := by
  rw [settled_of_size_lt hp hq, if_neg (not_not_intro hsets), if_neg (not_not_intro hpremise),
    if_pos hconclusion]
  split
  · exact Or.inl rfl
  · exact Or.inr rfl

open Classical in
/-- What a premise that nothing satisfies entails does follow from it. -/
theorem settled_of_wellFormed (hpremise : p.WellFormed) (hconclusion : q.WellFormed) :
    settled p q = .ok (.ofBool (decide (p.Follows q))) := by
  rw [settled_of_size_lt hp hq, if_neg (not_not_intro hsets), if_neg (not_not_intro hpremise),
    if_neg (not_not_intro hconclusion)]
  split
  · rename_i hunsatisfied
    have hfollows : p.Follows q := fun ν hν => absurd
      ⟨p.vocabulary.assign ν, Assignment.over_iff_domain_eq.mpr Vocabulary.domain_assign, hν⟩
      hunsatisfied
    rw [decide_eq_true hfollows]
    rfl
  · rfl

end Settled

open Classical in
/-- The answer to whether two propositions are equivalent. -/
noncomputable def agreement (p q : Proposition) : Except EvaluationError Verdict :=
  if ¬ Comparable p q then .error .incompatibleVariableSets
  else if ¬ (p.WellFormed ∧ q.WellFormed) then .error .malformedExpression
  else .ok (.ofBool (decide (p.Follows q ∧ q.Follows p)))

theorem agreement_comm (p q : Proposition) : agreement p q = agreement q p := by
  classical
  have hanswer : decide (p.Follows q ∧ q.Follows p) = decide (q.Follows p ∧ p.Follows q) :=
    decide_eq_decide.mpr And.comm
  rw [agreement, agreement, hanswer]
  exact if_congr (not_congr comparable_comm) rfl (if_congr (not_congr And.comm) rfl rfl)

theorem verdict_equivalent_eq_agreement (hp : p.vocabulary.size < 64)
    (hq : q.vocabulary.size < 64) :
    (p.equivalent q).map Comparison.verdict = agreement p q := by
  classical
  rw [verdict_equivalent_eq, ← verdict_entails_eq_rowVerdict, ← verdict_entails_eq_rowVerdict,
    verdict_entails_eq_settled, verdict_entails_eq_settled]
  by_cases hsets : Comparable p q
  swap
  · rw [agreement, if_pos hsets, settled_eq_incompatible_iff.mpr hsets]
    rfl
  rw [agreement, if_neg (not_not_intro hsets)]
  by_cases hforth : p.WellFormed
  swap
  · rw [if_pos fun h => hforth h.1, settled_of_malformed_premise hp hq hsets hforth]
    rfl
  by_cases hback : q.WellFormed
  swap
  -- the first entailment may hold without a look at `q`; the second has it as premise
  · rw [if_pos fun h => hback h.2, settled_of_malformed_premise hq hp hsets.symm hback]
    obtain hholds | hnoticed := settled_of_malformed_conclusion hp hq hsets hforth hback
    · rw [hholds]
      rfl
    · rw [hnoticed]
      rfl
  rw [if_neg (not_not_intro ⟨hforth, hback⟩), settled_of_wellFormed hp hq hsets hforth hback,
    settled_of_wellFormed hq hp hsets.symm hback hforth, Bool.decide_and, ← Verdict.ofBool_and]
  rfl

theorem agreement_eq_incompatible_iff :
    agreement p q = .error .incompatibleVariableSets ↔ ¬ Comparable p q := by
  constructor
  · intro h hsets
    rw [agreement, if_neg (not_not_intro hsets)] at h
    split_ifs at h
    all_goals cases h
  · intro hsets
    rw [agreement, if_pos hsets]

theorem agreement_eq_malformed_iff (hsets : Comparable p q) :
    agreement p q = .error .malformedExpression ↔ ¬ p.WellFormed ∨ ¬ q.WellFormed := by
  rw [agreement, if_neg (not_not_intro hsets), ← not_and_or]
  constructor
  · intro h hboth
    rw [if_neg (not_not_intro hboth)] at h
    cases h
  · intro hmalformed
    rw [if_pos hmalformed]

/-- Formulas follow from each other just when they have the same values. -/
theorem Expresses.follows_and_follows_iff (hf : p.Expresses f) (hg : q.Expresses g) :
    p.Follows q ∧ q.Follows p ↔ ∀ ν : Variable → Bool, f.eval ν = g.eval ν := by
  rw [hf.follows_iff hg, hg.follows_iff hf, ← forall_and]
  exact forall_congr' fun ν => ⟨fun h => Bool.eq_iff_iff.mpr ⟨h.1, h.2⟩,
    fun h => ⟨(h ▸ ·), (h ▸ ·)⟩⟩

open Classical in
theorem Expresses.agreement_eq (hf : p.Expresses f) (hg : q.Expresses g)
    (hsets : Comparable p q) :
    agreement p q = .ok (.ofBool (decide (∀ ν : Variable → Bool, f.eval ν = g.eval ν))) := by
  rw [agreement, if_neg (not_not_intro hsets),
    if_neg (not_not_intro ⟨hf.wellFormed, hg.wellFormed⟩)]
  simp only [hf.follows_and_follows_iff hg]

/-- Equivalence has the same answer in either order.  It is refused if the variables cannot
be compared, and then if one of the two is malformed, whatever the other is; otherwise it
tells whether the two have the same truth value under every valuation. -/
theorem equivalent_answers (hp : p.vocabulary.size < 64) (hq : q.vocabulary.size < 64) :
    (p.equivalent q).map Comparison.verdict = (q.equivalent p).map Comparison.verdict ∧
      ((p.equivalent q).map Comparison.verdict = .error .incompatibleVariableSets ↔
        ¬ Comparable p q) ∧
      (Comparable p q →
        ((p.equivalent q).map Comparison.verdict = .error .malformedExpression ↔
          ¬ p.WellFormed ∨ ¬ q.WellFormed) ∧
        ∀ f g : Formula Variable, p.Expresses f → q.Expresses g →
          ((p.equivalent q).map Comparison.verdict = .ok .holds ↔
            ∀ ν : Variable → Bool, f.eval ν = g.eval ν) ∧
          ((∃ ν : Variable → Bool, f.eval ν ≠ g.eval ν) →
            (p.equivalent q).map Comparison.verdict = .ok .fails)) := by
  classical
  rw [verdict_equivalent_eq_agreement hp hq, verdict_equivalent_eq_agreement hq hp]
  refine ⟨agreement_comm p q, agreement_eq_incompatible_iff, fun hsets =>
    ⟨agreement_eq_malformed_iff hsets, fun f g hf hg => ?_⟩⟩
  rw [hf.agreement_eq hg hsets, Except.ok.injEq, Verdict.ofBool_eq_holds_iff,
    decide_eq_true_iff]
  refine ⟨Iff.rfl, fun hdiffer => ?_⟩
  rw [decide_eq_false (not_forall.mpr hdiffer)]
  rfl

/-- Nothing satisfies the one sentence, so it entails the connective without operands; the
other entailment notices that this is malformed.  The next two sentences have the same
values though one has a variable more. -/
theorem equivalent_to_malformed_and_narrower :
    let a : Formula Variable := .atom ⟨'é', 128⟩
    let b : Formula Variable := .atom ⟨'b', 98⟩
    let unsatisfiable : Proposition := .sentence ⟨(Formula.conj a (.neg a)).symbols⟩
    let malformed : Proposition := .sentence ⟨a.symbols ++ [.connective .conjunction]⟩
    let wide : Proposition := .sentence ⟨(Formula.disj a (.conj b (.neg b))).symbols⟩
    let narrow : Proposition := .atom ⟨'é', 128⟩
    (unsatisfiable.entails malformed).map Comparison.verdict = .ok .holds ∧
      (unsatisfiable.equivalent malformed).map Comparison.verdict =
        .error .malformedExpression ∧
      (malformed.equivalent unsatisfiable).map Comparison.verdict =
        .error .malformedExpression ∧
      (wide.equivalent narrow).map Comparison.verdict = .ok .holds ∧
      (narrow.equivalent wide).map Comparison.verdict = .ok .holds := by
  intro a b unsatisfiable malformed wide narrow
  have hmalformed : ¬ malformed.WellFormed := by
    rintro ⟨f, hf⟩
    have hlisted := Formula.ofSymbols_symbols f
    rw [hf] at hlisted
    cases hlisted
  have hsame : ∀ ν : Variable → Bool,
      (Formula.disj a (.conj b (.neg b))).eval ν = a.eval ν := by
    intro ν
    cases hb : b.eval ν <;> simp [Formula.eval, hb]
  obtain ⟨hcomm, _, hrefused⟩ :=
    equivalent_answers (p := unsatisfiable) (q := malformed) (by decide) (by decide)
  have herror := (hrefused (by decide)).1.mpr (Or.inr hmalformed)
  obtain ⟨hexchange, _, hanswered⟩ :=
    equivalent_answers (p := wide) (q := narrow) (by decide) (by decide)
  have hholds := ((hanswered (by decide)).2 _ _ rfl rfl).1.mpr hsame
  exact ⟨by decide +kernel, herror, hcomm.symm.trans herror, hholds,
    hexchange.symm.trans hholds⟩

end Proposition

end Sentential
