/-
Entailment as an order.  Where the variables are few enough, an entailment that holds
says that the premise is well formed and, if anything satisfies it, that the conclusion is
well formed and true wherever the premise is.  Put this way, entailments compose, whatever
the variables in between; and the texts of two sentences, joined by a connective, are read
as a sentence above or below each of the two.
-/
import Sentential.Proofs.Deduction
import Sentential.Proofs.Refusals

namespace Sentential

namespace Proposition

variable {p q r : Proposition} {f g : Formula Variable}

open Classical in
/-- Nothing is refused for the number of its variables if these are few on both sides. -/
theorem settled_of_size_lt (hp : p.vocabulary.size < 64) (hq : q.vocabulary.size < 64) :
    settled p q =
      if ¬ Comparable p q then .error .incompatibleVariableSets
      else if ¬ p.WellFormed then .error .malformedExpression
      else if ¬ p.Satisfied then .ok .holds
      else if ¬ q.WellFormed then .error .malformedExpression
      else .ok (.ofBool (decide (p.Follows q))) := by
  have hextra : (q.vocabulary.without p.vocabulary.toSet).size < 64 :=
    Nat.lt_of_le_of_lt (List.length_filter_le _ _) hq
  rw [settled, if_neg (Nat.not_le_of_lt hp), if_neg (Nat.not_le_of_lt hextra)]

/-- What an entailment that holds says.  The conclusion matters only if something satisfies
the premise. -/
structure Implies (p q : Proposition) : Prop where
  comparable : Comparable p q
  premise : p.WellFormed
  conclusion : p.Satisfied → q.WellFormed ∧ p.Follows q

theorem verdict_entails_eq_holds_iff (hp : p.vocabulary.size < 64)
    (hq : q.vocabulary.size < 64) :
    (p.entails q).map Comparison.verdict = .ok .holds ↔ p.Implies q := by
  classical
  rw [verdict_entails_eq_settled, settled_of_size_lt hp hq]
  by_cases hsets : Comparable p q
  swap
  · rw [if_pos hsets]
    exact ⟨nofun, fun h => absurd h.comparable hsets⟩
  by_cases hpremise : p.WellFormed
  swap
  · rw [if_neg (not_not_intro hsets), if_pos hpremise]
    exact ⟨nofun, fun h => absurd h.premise hpremise⟩
  rw [if_neg (not_not_intro hsets), if_neg (not_not_intro hpremise)]
  by_cases hsatisfied : p.Satisfied
  swap
  · rw [if_pos hsatisfied]
    exact ⟨fun _ => ⟨hsets, hpremise, fun h => absurd h hsatisfied⟩, fun _ => rfl⟩
  rw [if_neg (not_not_intro hsatisfied)]
  by_cases hconclusion : q.WellFormed
  swap
  · rw [if_pos hconclusion]
    exact ⟨nofun, fun h => absurd (h.conclusion hsatisfied).1 hconclusion⟩
  rw [if_neg (not_not_intro hconclusion), Except.ok.injEq, Verdict.ofBool_eq_holds_iff,
    decide_eq_true_iff]
  exact ⟨fun h => ⟨hsets, hpremise, fun _ => ⟨hconclusion, h⟩⟩,
    fun h => (h.conclusion hsatisfied).2⟩

theorem Comparable.symm (h : Comparable p q) : Comparable q p := Or.symm h

theorem Expresses.implies (hf : p.Expresses f) (hg : q.Expresses g) (hsets : Comparable p q)
    (h : ∀ ν : Variable → Bool, f.eval ν = true → g.eval ν = true) : p.Implies q :=
  ⟨hsets, hf.wellFormed, fun _ => ⟨hg.wellFormed, (hf.follows_iff hg).mpr h⟩⟩

namespace Implies

theorem refl (hp : p.WellFormed) : p.Implies p :=
  ⟨Or.inl fun _ hv => hv, hp, fun _ => ⟨hp, fun _ hν => hν⟩⟩

/-- What satisfies the premise tells what satisfies the conclusion. -/
theorem satisfied (h : p.Implies q) (hp : p.Satisfied) : q.Satisfied := by
  obtain ⟨f, hf⟩ := wellFormed_iff_exists_expresses.mp h.premise
  obtain ⟨ν, hν⟩ := hf.satisfied_iff.mp hp
  have hpremise : p.evaluate (p.vocabulary.assign ν) = .ok true := by
    rw [hf.evaluate_assign, hν]
  exact ⟨q.vocabulary.assign ν, Assignment.over_iff_domain_eq.mpr Vocabulary.domain_assign,
    (h.conclusion hp).2 ν hpremise⟩

/-- If nothing satisfies the first premise, nothing is asked of the last conclusion;
otherwise something satisfies the proposition between them. -/
theorem trans (h : p.Implies q) (hnext : q.Implies r) (hsets : Comparable p r) :
    p.Implies r := by
  refine ⟨hsets, h.premise, fun hp => ?_⟩
  obtain ⟨_, hfirst⟩ := h.conclusion hp
  obtain ⟨hr, hsecond⟩ := hnext.conclusion (h.satisfied hp)
  exact ⟨hr, fun ν hν => hsecond ν (hfirst ν hν)⟩

end Implies

end Proposition

section Joined

variable {s t : Sentence} {c : Connective}

/-- A sentence joined with another has the variables of both. -/
theorem Sentence.vocabulary_joined :
    (Sentence.mk (s.symbols ++ t.symbols ++ [.connective c])).vocabulary =
      .ofList (s.occurrences ++ t.occurrences) := by
  have hlast : [Symbol.connective c].filterMap Symbol.atom? = ([] : List Variable) := rfl
  simp only [vocabulary, occurrences, List.filterMap_append, hlast, List.append_nil]

theorem Sentence.vocabulary_subset_joined :
    s.vocabulary.toSet ⊆ (Vocabulary.ofList (s.occurrences ++ t.occurrences)).toSet := by
  rw [Vocabulary.toSet_subset_iff]
  intro v hv
  rw [Vocabulary.mem_ofList]
  exact List.mem_append_left _ (Vocabulary.mem_ofList.mp hv)

namespace Proposition

theorem comparable_joined :
    Comparable (.sentence s) (.sentence ⟨s.symbols ++ t.symbols ++ [.connective c]⟩) := by
  left
  change s.vocabulary.toSet ⊆ (Sentence.vocabulary _).toSet
  rw [Sentence.vocabulary_joined]
  exact Sentence.vocabulary_subset_joined

theorem implies_disjunction (hs : s.WellFormed) (ht : t.WellFormed) :
    (sentence s).Implies
      (.sentence ⟨s.symbols ++ t.symbols ++ [.connective .disjunction]⟩) := by
  obtain ⟨f, hf⟩ := hs
  obtain ⟨g, hg⟩ := ht
  have hjoined : (sentence ⟨s.symbols ++ t.symbols ++ [.connective .disjunction]⟩).Expresses
      (.disj f g) := by
    rw [expresses_iff, Formula.symbols, hf, hg]
    rfl
  refine (expresses_iff.mpr hf).implies hjoined comparable_joined fun ν hν => ?_
  rw [Formula.eval, hν, Bool.true_or]

theorem conjunction_implies (hs : s.WellFormed) (ht : t.WellFormed) :
    (sentence ⟨s.symbols ++ t.symbols ++ [.connective .conjunction]⟩).Implies
      (.sentence s) := by
  obtain ⟨f, hf⟩ := hs
  obtain ⟨g, hg⟩ := ht
  have hjoined : (sentence ⟨s.symbols ++ t.symbols ++ [.connective .conjunction]⟩).Expresses
      (.conj f g) := by
    rw [expresses_iff, Formula.symbols, hf, hg]
    rfl
  refine hjoined.implies (expresses_iff.mpr hf) comparable_joined.symm fun ν hν => ?_
  rw [Formula.eval, Bool.and_eq_true] at hν
  exact hν.1

end Proposition

end Joined

namespace Proposition

/-- Entailment is reflexive on what is well formed, and transitive as long as the outer
propositions can be compared; the last conclusion may be malformed.  A sentence lies below
the one read from the text of its disjunction with another, and above the one read from
the text of their conjunction. -/
theorem entails_preorder :
    (∀ p : Proposition, p.vocabulary.size < 64 → p.WellFormed →
      (p.entails p).map Comparison.verdict = .ok .holds) ∧
    (∀ p q r : Proposition,
      p.vocabulary.size < 64 → q.vocabulary.size < 64 → r.vocabulary.size < 64 →
      Comparable p r →
      (p.entails q).map Comparison.verdict = .ok .holds →
      (q.entails r).map Comparison.verdict = .ok .holds →
        (p.entails r).map Comparison.verdict = .ok .holds) ∧
    ∀ (later : Registry) (left right : String) (s t : Sentence),
      later.HasRead left (.ok s) → later.HasRead right (.ok t) →
      s.WellFormed → t.WellFormed →
      (Vocabulary.ofList (s.occurrences ++ t.occurrences)).size < 64 →
        (∀ result, later.HasRead ("(" ++ left ++ ")|(" ++ right ++ ")") result →
          ∃ wider, result = .ok wider ∧
            ((sentence s).entails (.sentence wider)).map Comparison.verdict = .ok .holds) ∧
        ∀ result, later.HasRead ("(" ++ left ++ ")&(" ++ right ++ ")") result →
          ∃ narrower, result = .ok narrower ∧
            ((sentence narrower).entails (.sentence s)).map Comparison.verdict =
              .ok .holds := by
  refine ⟨?_, ?_, ?_⟩
  · intro p hp hwell
    exact (verdict_entails_eq_holds_iff hp hp).mpr (Implies.refl hwell)
  · intro p q r hp hq hr hsets hfirst hsecond
    rw [verdict_entails_eq_holds_iff hp hq] at hfirst
    rw [verdict_entails_eq_holds_iff hq hr] at hsecond
    exact (verdict_entails_eq_holds_iff hp hr).mpr (hfirst.trans hsecond hsets)
  · intro later left right s t hleft hright hs ht hsize
    have hsmall : (sentence s).vocabulary.size < 64 := by
      refine Nat.lt_of_le_of_lt (Vocabulary.size_le_of_forall_mem ?_) hsize
      exact Vocabulary.toSet_subset_iff.mp Sentence.vocabulary_subset_joined
    have hjoined : ∀ c : Connective,
        (sentence ⟨s.symbols ++ t.symbols ++ [.connective c]⟩).vocabulary.size < 64 := by
      intro c
      change (Sentence.vocabulary _).size < 64
      rwa [Sentence.vocabulary_joined]
    refine ⟨fun result h => ⟨_, hleft.joined hright rfl h, ?_⟩,
      fun result h => ⟨_, hleft.joined hright rfl h, ?_⟩⟩
    · rw [verdict_entails_eq_holds_iff hsmall (hjoined _)]
      exact implies_disjunction hs ht
    · rw [verdict_entails_eq_holds_iff (hjoined _) hsmall]
      exact conjunction_implies hs ht

/-- From a conjunction to one side and on to a disjunction the variables first become
fewer, then as many as before. -/
theorem entails_narrowed_and_widened :
    let first := (Registry.empty.parse "é").2
    let second := (first.parse "~b").2
    let third := (second.parse "(é)|(~b)").2
    let s : Sentence := ⟨[.atom ⟨'é', 128⟩]⟩
    let t : Sentence := ⟨[.atom ⟨'b', 98⟩, .connective .negation]⟩
    let wider : Sentence := ⟨s.symbols ++ t.symbols ++ [.connective .disjunction]⟩
    let narrower : Sentence := ⟨s.symbols ++ t.symbols ++ [.connective .conjunction]⟩
    (Registry.empty.parse "é").1 = .ok s ∧ (first.parse "~b").1 = .ok t ∧
      (second.parse "(é)|(~b)").1 = .ok wider ∧ (third.parse "(é)&(~b)").1 = .ok narrower ∧
      ((sentence s).entails (.sentence s)).map Comparison.verdict = .ok .holds ∧
      ((sentence narrower).entails (.sentence wider)).map Comparison.verdict =
        .ok .holds := by
  intro first second third s t wider narrower
  have hs : (Registry.empty.parse "é").1 = .ok s := by decide +kernel
  have ht : (first.parse "~b").1 = .ok t := by decide +kernel
  have hwider : (second.parse "(é)|(~b)").1 = .ok wider := by decide +kernel
  have hnarrower : (third.parse "(é)&(~b)").1 = .ok narrower := by decide +kernel
  let later := (third.parse "(é)&(~b)").2
  have hthird : later.Extends third := third.extends_parse "(é)&(~b)"
  have hsecond : later.Extends second := hthird.trans (second.extends_parse "(é)|(~b)")
  have hfirst : later.Extends first := hsecond.trans (first.extends_parse "~b")
  have hsRead : later.HasRead "é" (.ok s) :=
    hs ▸ (Registry.empty.hasRead_parse "é").of_extends hfirst
  have htRead : later.HasRead "~b" (.ok t) :=
    ht ▸ (first.hasRead_parse "~b").of_extends hsecond
  obtain ⟨hrefl, htrans, hjoined⟩ := entails_preorder
  have hwell : s.WellFormed := ⟨.atom ⟨'é', 128⟩, rfl⟩
  obtain ⟨habove, hbelow⟩ := hjoined later "é" "~b" s t hsRead htRead hwell
    ⟨.neg (.atom ⟨'b', 98⟩), rfl⟩ (by decide)
  obtain ⟨_, hread, hup⟩ := habove (.ok wider)
    (hwider ▸ (second.hasRead_parse "(é)|(~b)").of_extends hthird)
  cases hread
  obtain ⟨_, hread, hdown⟩ := hbelow (.ok narrower)
    (hnarrower ▸ third.hasRead_parse "(é)&(~b)")
  cases hread
  exact ⟨hs, ht, hwider, hnarrower, hrefl _ (by decide) hwell,
    htrans _ _ _ (by decide) (by decide) (by decide) (by decide) hdown hup⟩

end Proposition

end Sentential
