/-
Deduction.  The text of an implication is put together from the texts of its two sides,
and the sentence read from it is valid just when the one side entails the other.  So a
comparison of two sentences and an analysis of a single one answer the same question.
-/
import Sentential.Proofs.Consequence
import Sentential.Proofs.Embedding
import Sentential.Proofs.Fragments

namespace Sentential

variable {α : Type}

namespace Formula

variable {f g : Formula α} {ν : α → Bool}

/-- A formula that is true unless the one is true and the other is not. -/
def implies (f g : Formula α) : Formula α := .disj (.neg f) g

theorem eval_implies_eq_true_iff :
    (f.implies g).eval ν = true ↔ (f.eval ν = true → g.eval ν = true) := by
  simp only [implies, eval, Bool.or_eq_true, Bool.not_eq_true', ← Bool.not_eq_true]
  exact imp_iff_not_or.symm

theorem symbols_implies (f g : Formula α) :
    (f.implies g).symbols =
      f.symbols ++ [.connective .negation] ++ g.symbols ++ [.connective .disjunction] := rfl

end Formula

/-- The negation of what parentheses enclose is complete where the disjunction begins. -/
theorem toPostfix_negation_enclose_disjunction_enclose {u v : List (Token α)}
    {l r : List (Symbol α)} (hu : toPostfix u = .ok l) (hv : toPostfix v = .ok r) :
    toPostfix ([.symbol (.connective .negation)] ++ enclose u ++
        .symbol (.connective .disjunction) :: enclose v) =
      .ok (l ++ [.connective .negation] ++ r ++ [.connective .disjunction]) := by
  have hright : Reordering.run ⟨[], [.negation], []⟩
      (.symbol (.connective .disjunction) :: enclose v) =
        .ok ⟨r.reverse ++ [.connective .negation], [.disjunction], []⟩ := by
    rw [Reordering.run_cons]
    exact operand_enclose hv _
  have haround : surroundings [.symbol (.connective .negation)]
      (.symbol (.connective .disjunction) :: enclose v) =
        .ok ([], [.connective .negation] ++ r ++ [.connective .disjunction]) := by
    change ((Reordering.run ⟨[], [.negation], []⟩ _ >>= Reordering.finish) >>=
      fun after => Except.ok ([], after)) = _
    rw [hright]
    simp [Reordering.finish, Reordering.emit, bind, Except.bind]
  rw [(operand_enclose hu).toPostfix_eq, haround]
  simp [Except.map]

namespace Registry.HasRead

variable {later : Registry} {premise conclusion : String} {s t : Sentence}
  {result : Except ReadError Sentence}

/-- The text of an implication is read as the symbols of its premise, negated, and those
of its conclusion. -/
theorem implication (hpremise : later.HasRead premise (.ok s))
    (hconclusion : later.HasRead conclusion (.ok t))
    (h : later.HasRead ("~(" ++ premise ++ ")|(" ++ conclusion ++ ")") result) :
    result = .ok ⟨s.symbols ++ [.connective .negation] ++ t.symbols ++
      [.connective .disjunction]⟩ := by
  have htokens : later.tokensOf ("~(" ++ premise ++ ")|(" ++ conclusion ++ ")") =
      [.symbol (.connective .negation)] ++ enclose (later.tokensOf premise) ++
        .symbol (.connective .disjunction) :: enclose (later.tokensOf conclusion) := by
    have hopening : later.tokensOf "~(" = [.symbol (.connective .negation), .opening] := rfl
    have hbetween : later.tokensOf ")|(" =
        [.closing, .symbol (.connective .disjunction), .opening] := rfl
    have hclosing : later.tokensOf ")" = [.closing] := rfl
    simp [tokensOf_append, hopening, hbetween, hclosing, enclose]
  rw [h.eq_toPostfix, htokens, toPostfix_negation_enclose_disjunction_enclose
    hpremise.toPostfix_eq_ok hconclusion.toPostfix_eq_ok]
  rfl

end Registry.HasRead

/-- A vocabulary is no larger than one that has all of its variables. -/
theorem Vocabulary.size_le_of_forall_mem {l m : Vocabulary} (h : ∀ v ∈ l, v ∈ m) :
    l.size ≤ m.size :=
  (List.subperm_of_subset l.nodup h).length_le

namespace Proposition.Expresses

variable {premise conclusion implication : Proposition} {f g : Formula Variable}

theorem mem_vocabulary_implies (hf : premise.Expresses f) (hg : conclusion.Expresses g)
    (himplication : implication.Expresses (f.implies g)) {v : Variable} :
    v ∈ implication.vocabulary ↔ v ∈ premise.vocabulary ∨ v ∈ conclusion.vocabulary := by
  rw [himplication.mem_vocabulary, hf.mem_vocabulary, hg.mem_vocabulary]
  exact List.mem_append

/-- A premise entails a conclusion just when the implication is valid. -/
theorem exists_verdict_and_valid (hf : premise.Expresses f) (hg : conclusion.Expresses g)
    (himplication : implication.Expresses (f.implies g))
    (hsize : implication.vocabulary.size < positionBits)
    (hsets : premise.vocabulary.toSet ⊆ conclusion.vocabulary.toSet ∨
      conclusion.vocabulary.toSet ⊆ premise.vocabulary.toSet) :
    ∃ holds : Bool,
      (premise.entails conclusion).map Comparison.verdict = .ok (.ofBool holds) ∧
        implication.valid = .ok holds := by
  have hmem : ∀ v, v ∈ implication.vocabulary ↔
      v ∈ premise.vocabulary ∨ v ∈ conclusion.vocabulary :=
    fun v => mem_vocabulary_implies hf hg himplication
  have hpremise : premise.vocabulary.size < positionBits :=
    Nat.lt_of_le_of_lt
      (Vocabulary.size_le_of_forall_mem fun v hv => (hmem v).mpr (Or.inl hv)) hsize
  have hconclusion : conclusion.vocabulary.size < positionBits :=
    Nat.lt_of_le_of_lt
      (Vocabulary.size_le_of_forall_mem fun v hv => (hmem v).mpr (Or.inr hv)) hsize
  obtain ⟨holds, hverdict, hholds⟩ :=
    hf.exists_verdict_entails_eq hg hpremise hconclusion hsets
  obtain ⟨properties, hproperties, hvalid, _⟩ := himplication.exists_properties_eq hsize
  have hsame : properties.valid = holds := by
    rw [Bool.eq_iff_iff, hvalid, hholds]
    exact forall_congr' fun ν => Formula.eval_implies_eq_true_iff
  refine ⟨holds, hverdict, ?_⟩
  rw [valid, hproperties, ← hsame]
  rfl

end Proposition.Expresses

/-- Two texts are read as sentences that list formulas, and the variables of one are
among those of the other.  Then the first sentence entails the second just when the text
of their implication is read as a valid sentence; otherwise that text is read as a
sentence that is not valid, and the entailment fails. -/
theorem entails_iff_implication_valid {later : Registry} {premise conclusion : String}
    {s t : Sentence} {result : Except ReadError Sentence}
    (hpremise : later.HasRead premise (.ok s))
    (hconclusion : later.HasRead conclusion (.ok t))
    (hresult : later.HasRead ("~(" ++ premise ++ ")|(" ++ conclusion ++ ")") result)
    (hs : s.WellFormed) (ht : t.WellFormed)
    (hsets : s.vocabulary.toSet ⊆ t.vocabulary.toSet ∨
      t.vocabulary.toSet ⊆ s.vocabulary.toSet)
    (hsize : (Vocabulary.ofList (s.occurrences ++ t.occurrences)).size < 64) :
    (((Proposition.sentence s).entails (.sentence t)).map Comparison.verdict = .ok .holds ↔
        ∃ joined, result = .ok joined ∧ (Proposition.sentence joined).valid = .ok true) ∧
      (((Proposition.sentence s).entails (.sentence t)).map Comparison.verdict ≠ .ok .holds →
        ((Proposition.sentence s).entails (.sentence t)).map Comparison.verdict = .ok .fails ∧
          ∃ joined, result = .ok joined ∧ (Proposition.sentence joined).valid = .ok false) := by
  obtain ⟨f, hf⟩ := hs
  obtain ⟨g, hg⟩ := ht
  obtain rfl := hpremise.implication hconclusion hresult
  have hpremised : (Proposition.sentence s).Expresses f := Proposition.expresses_iff.mpr hf
  have hconcluded : (Proposition.sentence t).Expresses g := Proposition.expresses_iff.mpr hg
  let joined : Sentence := ⟨s.symbols ++ [.connective .negation] ++ t.symbols ++
    [.connective .disjunction]⟩
  have hjoined : (Proposition.sentence joined).Expresses (f.implies g) := by
    rw [Proposition.expresses_iff, Formula.symbols_implies, hf, hg]
    rfl
  have hvocabulary : (Proposition.sentence joined).vocabulary =
      .ofList (s.occurrences ++ t.occurrences) := by
    rw [hjoined.vocabulary_eq, Sentence.occurrences, Sentence.occurrences, ← hf, ← hg,
      f.filterMap_atom?_symbols, g.filterMap_atom?_symbols]
    rfl
  obtain ⟨holds, hverdict, hvalid⟩ := hpremised.exists_verdict_and_valid hconcluded hjoined
    (hvocabulary ▸ hsize) hsets
  rw [hverdict]
  cases holds with
  | true => exact ⟨⟨fun _ => ⟨joined, rfl, hvalid⟩, fun _ => rfl⟩, fun h => absurd rfl h⟩
  | false =>
      refine ⟨⟨?_, ?_⟩, fun _ => ⟨rfl, joined, rfl, hvalid⟩⟩
      · intro hholds
        cases hholds
      · rintro ⟨_, hread, htrue⟩
        cases hread
        rw [hvalid] at htrue
        cases htrue

/-- The session reads the premise, then the conclusion, which has one variable more, and
last the implication, whose third variable that one is. -/
theorem entails_of_valid_implication :
    let first := (Registry.empty.parse "é&~b").2
    let second := (first.parse "~(b&c) & é").2
    let f : Formula Variable := .conj (.atom ⟨'é', 128⟩) (.neg (.atom ⟨'b', 98⟩))
    let g : Formula Variable :=
      .conj (.neg (.conj (.atom ⟨'b', 98⟩) (.atom ⟨'c', 99⟩))) (.atom ⟨'é', 128⟩)
    let joined : Sentence := ⟨(f.implies g).symbols⟩
    (Registry.empty.parse "é&~b").1 = .ok ⟨f.symbols⟩ ∧
      (first.parse "~(b&c) & é").1 = .ok ⟨g.symbols⟩ ∧
      (second.parse "~(é&~b)|(~(b&c) & é)").1 = .ok joined ∧
      (Proposition.sentence joined).valid = .ok true ∧
      ((Proposition.sentence ⟨f.symbols⟩).entails (.sentence ⟨g.symbols⟩)).map
        Comparison.verdict = .ok .holds := by
  intro first second f g joined
  have hpremise : (Registry.empty.parse "é&~b").1 = .ok ⟨f.symbols⟩ := by decide +kernel
  have hconclusion : (first.parse "~(b&c) & é").1 = .ok ⟨g.symbols⟩ := by decide +kernel
  have hjoined : (second.parse "~(é&~b)|(~(b&c) & é)").1 = .ok joined := by decide +kernel
  have hvalid : (Proposition.sentence joined).valid = .ok true := by decide +kernel
  let later := (second.parse "~(é&~b)|(~(b&c) & é)").2
  have hsecond : later.Extends second := second.extends_parse "~(é&~b)|(~(b&c) & é)"
  have hfirst : later.Extends first := hsecond.trans (first.extends_parse "~(b&c) & é")
  have hreadPremise : later.HasRead "é&~b" (.ok ⟨f.symbols⟩) :=
    hpremise ▸ (Registry.empty.hasRead_parse "é&~b").of_extends hfirst
  have hreadConclusion : later.HasRead "~(b&c) & é" (.ok ⟨g.symbols⟩) :=
    hconclusion ▸ (first.hasRead_parse "~(b&c) & é").of_extends hsecond
  obtain ⟨hiff, _⟩ := entails_iff_implication_valid hreadPremise hreadConclusion
    (second.hasRead_parse "~(é&~b)|(~(b&c) & é)") ⟨f, rfl⟩ ⟨g, rfl⟩ (.inl (by decide))
    (by decide)
  exact ⟨hpremise, hconclusion, hjoined, hvalid, hiff.mpr ⟨joined, hjoined, hvalid⟩⟩

end Sentential
