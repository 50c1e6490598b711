/-
From a text to its meaning.  A text that spells an expression is read as a sentence
whose outcomes are the values of the formula, in the order of the names of the
text, and whose properties are those of the formula under all valuations of names.
-/
import Sentential.Proofs.Occurrences
import Sentential.Proofs.Precedence
import Sentential.Proofs.Queries

namespace Sentential

/-- The value that a position gives to a name: the first of the names has the most
significant digit. -/
def digitOf (names : List Char) (position : Nat) (name : Char) : Bool :=
  position.testBit (names.length - 1 - names.idxOf name)

/-- The variables of a formula over names are the names, in order. -/
theorem toList_vocabulary_of_expresses {p : Proposition} {f : Formula Char} {r : Registry}
    (hp : p.Expresses (f.map r.variableOf)) :
    p.vocabulary.toList = f.atoms.eraseDups.map r.variableOf := by
  rw [hp.vocabulary_eq, Vocabulary.toList_ofList, Formula.atoms_map,
    eraseDups_map_of_injective r.variableOf_injective]

/-- Valuations of variables and of names give a formula over names the same values. -/
theorem exists_eval_map_iff (r : Registry) (f : Formula Char) (value : Bool) :
    (∃ ν : Variable → Bool, (f.map r.variableOf).eval ν = value) ↔
      ∃ ν : Char → Bool, f.eval ν = value := by
  constructor
  · rintro ⟨ν, hν⟩
    exact ⟨ν ∘ r.variableOf, by rw [← hν, Formula.eval_map]⟩
  · rintro ⟨ν, hν⟩
    refine ⟨ν ∘ Variable.name, ?_⟩
    rw [Formula.eval_map, ← hν]
    rfl

theorem forall_eval_map_iff (r : Registry) (f : Formula Char) :
    (∀ ν : Variable → Bool, (f.map r.variableOf).eval ν = true) ↔
      ∀ ν : Char → Bool, f.eval ν = true := by
  have hfalse := not_congr (exists_eval_map_iff r f false)
  simpa using hfalse

/-- The outcomes over variables, read over names. -/
theorem outcomes_eq_of_expresses {p : Proposition} {f : Formula Char} {r : Registry}
    (hp : p.Expresses (f.map r.variableOf))
    (hsize : f.atoms.eraseDups.length < positionBits) :
    p.outcomes = .ok ((List.range (2 ^ f.atoms.eraseDups.length)).map fun i =>
      f.eval (digitOf f.atoms.eraseDups i)) := by
  have hlist := toList_vocabulary_of_expresses hp
  have hlength : p.vocabulary.size = f.atoms.eraseDups.length := by
    rw [Vocabulary.size, hlist, List.length_map]
  rw [hp.outcomes_eq (hlength ▸ hsize), hlength]
  congr 2
  funext i
  rw [Formula.eval_map]
  congr 1
  funext name
  rw [Function.comp_apply, Vocabulary.digits, hlength, hlist,
    idxOf_map_of_injective r.variableOf_injective, digitOf]

/-- Reading a text that spells an expression, and querying the sentence read. -/
theorem queries_of_expression (r : Registry) {text : String} {w : List (Token Char)}
    {f : Formula Char} (hw : Derives .expression w f) (htext : Spells text.toList w)
    (hsize : (namesOf text.toList).length < 64) :
    ∃ s : Sentence, (r.parse text).1 = .ok s ∧
      (Proposition.sentence s).outcomes =
        .ok ((List.range (2 ^ (namesOf text.toList).length)).map fun i =>
          f.eval (digitOf (namesOf text.toList) i)) ∧
      (∃ valid, (Proposition.sentence s).valid = .ok valid ∧
        (valid = true ↔ ∀ ν : Char → Bool, f.eval ν = true)) ∧
      (∃ satisfiable, (Proposition.sentence s).satisfiable = .ok satisfiable ∧
        (satisfiable = true ↔ ∃ ν : Char → Bool, f.eval ν = true)) ∧
      (∃ contingent, (Proposition.sentence s).contingent = .ok contingent ∧
        (contingent = true ↔
          (∃ ν : Char → Bool, f.eval ν = true) ∧ ∃ ν : Char → Bool, f.eval ν = false)) ∧
      ((Proposition.sentence s).valid = .ok true →
        (Proposition.sentence s).satisfiable = .ok true) := by
  have hnames : namesOf text.toList = f.atoms.eraseDups := by
    rw [namesOf, htext.filter_eq, hw.filterMap_atom?]
  rw [hnames] at hsize ⊢
  let later := r.enrollAll f.atoms
  let s : Sentence := ⟨(f.map later.variableOf).symbols⟩
  have hs : (Proposition.sentence s).Expresses (f.map later.variableOf) := rfl
  have hlength : (Proposition.sentence s).vocabulary.size = f.atoms.eraseDups.length := by
    rw [Vocabulary.size, toList_vocabulary_of_expresses hs, List.length_map]
  obtain ⟨properties, hproperties, hvalid, hsatisfiable, hcontingent⟩ :=
    hs.exists_properties_eq (hlength ▸ hsize)
  rw [forall_eval_map_iff] at hvalid
  rw [exists_eval_map_iff] at hsatisfiable hcontingent
  rw [exists_eval_map_iff] at hcontingent
  have hquery : ∀ query : Properties → Bool,
      (Proposition.sentence s).properties.map query = .ok (query properties) := by
    intro query
    rw [hproperties]
    rfl
  refine ⟨s, ?_, outcomes_eq_of_expresses hs hsize,
    ⟨_, hquery Properties.valid, hvalid⟩, ⟨_, hquery Properties.satisfiable, hsatisfiable⟩,
    ⟨_, hquery Properties.contingent, hcontingent⟩, ?_⟩
  · rw [r.parse_of_expression hw htext]
  · intro h
    have hone : properties.valid = true :=
      Except.ok.inj ((hquery Properties.valid).symm.trans h)
    have hsome : properties.satisfiable = true :=
      hsatisfiable.mpr ⟨fun _ => true, hvalid.mp hone _⟩
    rw [Proposition.satisfiable, hquery, hsome]

/-- The variable that appears first has the most significant digit, although another
one has the lower number. -/
theorem outcomes_of_enclosed_disjunction :
    let w : List (Token Char) :=
      [.symbol (.connective .negation), .symbol (.atom 'é'),
        .symbol (.connective .conjunction), .opening, .symbol (.atom 'b'),
        .symbol (.connective .disjunction), .symbol (.atom 'é'), .closing]
    let f : Formula Char := .conj (.neg (.atom 'é')) (.disj (.atom 'b') (.atom 'é'))
    Derives .expression w f ∧ Spells " ~é& (b|é)".toList w ∧
      (namesOf " ~é& (b|é)".toList).length < 64 ∧
      ∃ s : Sentence, (Registry.empty.parse " ~é& (b|é)").1 = .ok s ∧
        (Proposition.sentence s).outcomes = .ok [false, true, false, false] := by
  intro w f
  have hw : Derives .expression w f :=
    .term (.conjunction (.factor (.negation (.atom 'é')))
      (.enclosed (.disjunction (.term (.factor (.atom 'b'))) (.factor (.atom 'é')))))
  have htext : Spells " ~é& (b|é)".toList w := by
    rw [← lex_eq_iff_spells]
    decide +kernel
  have hsize : (namesOf " ~é& (b|é)".toList).length < 64 := by
    decide +kernel
  obtain ⟨s, hread, houtcomes, _⟩ := queries_of_expression .empty hw htext hsize
  have hvalues : (List.range (2 ^ (namesOf " ~é& (b|é)".toList).length)).map (fun i =>
      f.eval (digitOf (namesOf " ~é& (b|é)".toList) i)) = [false, true, false, false] := by
    decide +kernel
  exact ⟨hw, htext, hsize, s, hread, houtcomes.trans (congrArg Except.ok hvalues)⟩

end Sentential
