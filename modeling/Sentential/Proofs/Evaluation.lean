/-
Evaluation and the formula behind it.  A run over values is the image of the run
that builds formulas, so a row of symbols has a value just when it lists a formula
whose atoms all have one; a sentence has a value just when, besides, no further
variable has one.
-/
import Mathlib.Data.List.Forall2
import Sentential.Proofs.Postorder
import Sentential.Proofs.Valuation

namespace Sentential

variable {α β : Type}

namespace Interpretation

variable {meaning : Interpretation α β} {formulas : List (Formula α)} {stack next : List β}

/-- A stack holds the values of formulas, place by place. -/
def Holds (meaning : Interpretation α β) : List (Formula α) → List β → Prop :=
  List.Forall₂ fun f x => meaning.ofFormula f = .ok x

/-- A symbol that can be read over values can be read over the formulas that have
these values. -/
theorem Holds.exists_step {s : Symbol α} (h : meaning.Holds formulas stack)
    (hstep : meaning.step stack s = .ok next) :
    ∃ built, Formula.construction.step formulas s = .ok built ∧ meaning.Holds built next := by
  obtain ⟨a, x, rfl, hx, rfl⟩ | ⟨x, rest, rfl, rfl, rfl⟩ | ⟨x, y, rest, rfl, rfl, rfl⟩ |
    ⟨x, y, rest, rfl, rfl, rfl⟩ := cases_of_step hstep
  · exact ⟨.atom a :: formulas, rfl, .cons hx h⟩
  · obtain ⟨f, formulas, hf, hrest, rfl⟩ := List.forall₂_cons_right_iff.mp h
    refine ⟨.neg f :: formulas, rfl, .cons ?_ hrest⟩
    rw [ofFormula, hf]
    rfl
  · obtain ⟨r, formulas, hr, hrest, rfl⟩ := List.forall₂_cons_right_iff.mp h
    obtain ⟨l, formulas, hl, hbelow, rfl⟩ := List.forall₂_cons_right_iff.mp hrest
    refine ⟨.conj l r :: formulas, rfl, .cons ?_ hbelow⟩
    rw [ofFormula, hl, hr]
    rfl
  · obtain ⟨r, formulas, hr, hrest, rfl⟩ := List.forall₂_cons_right_iff.mp h
    obtain ⟨l, formulas, hl, hbelow, rfl⟩ := List.forall₂_cons_right_iff.mp hrest
    refine ⟨.disj l r :: formulas, rfl, .cons ?_ hbelow⟩
    rw [ofFormula, hl, hr]
    rfl

/-- So can a row of symbols. -/
theorem Holds.exists_run {row : List (Symbol α)} (h : meaning.Holds formulas stack)
    (hrun : meaning.run stack row = .ok next) :
    ∃ built, Formula.construction.run formulas row = .ok built ∧ meaning.Holds built next := by
  induction row generalizing formulas stack with
  | nil =>
      cases hrun
      exact ⟨formulas, rfl, h⟩
  | cons s rest ih =>
      rw [run_cons] at hrun
      obtain ⟨between, hstep, hrest⟩ := bind_eq_ok_iff.mp hrun
      obtain ⟨partly, hpartly, hholds⟩ := h.exists_step hstep
      obtain ⟨built, hbuilt, hnext⟩ := ih hholds hrest
      refine ⟨built, ?_, hnext⟩
      rw [run_cons, hpartly]
      exact hbuilt

/-- A row of symbols has a value just when it lists a formula that has this value. -/
theorem value_eq_ok_iff {row : List (Symbol α)} {x : β} :
    meaning.value row = .ok x ↔ ∃ f : Formula α, f.symbols = row ∧ meaning.ofFormula f = .ok x := by
  constructor
  · intro h
    obtain ⟨built, hbuilt, hholds⟩ := Holds.exists_run .nil (value_eq_ok_iff_run.mp h)
    obtain ⟨f, rest, hf, hrest, rfl⟩ := List.forall₂_cons_right_iff.mp hholds
    obtain rfl := List.forall₂_nil_right_iff.mp hrest
    have hsymbols : Formula.ofSymbols row = .ok f := value_eq_ok_iff_run.mpr hbuilt
    exact ⟨f, (Formula.ofSymbols_eq_ok_iff.mp hsymbols).symm, hf⟩
  · rintro ⟨f, rfl, hf⟩
    rw [value_symbols, hf]

end Interpretation

/-- Different formulas list different rows of symbols. -/
theorem Formula.symbols_injective : Function.Injective (symbols (α := α)) := by
  intro f g h
  have hg : ofSymbols f.symbols = .ok g := ofSymbols_eq_ok_iff.mpr h
  rw [ofSymbols_symbols] at hg
  exact Except.ok.inj hg

namespace Assignment

variable {a : Assignment} {f : Formula Variable} {b : Bool}

theorem requireWithin_eq_ok_iff {s : VariableSet} :
    a.requireWithin s = .ok () ↔ a.domain ⊆ s := by
  constructor
  · intro h v hv
    by_contra hnot
    have hnone : (a.domain \ s).first? = none := by
      unfold requireWithin at h
      split at h
      · cases h
      · assumption
    have hextra : v ∈ (a.domain \ s).toList := VariableSet.mem_sdiff.mpr ⟨hv, hnot⟩
    rw [List.head?_eq_none_iff.mp hnone] at hextra
    cases hextra
  · intro h
    exact requireWithin_eq_ok h

/-- Every atom of a formula that has a value has one itself. -/
theorem mem_domain_of_ofFormula (h : a.valuation.ofFormula f = .ok b) :
    ∀ v ∈ f.atoms, v ∈ a.domain := by
  induction f generalizing b with
  | atom v =>
      intro u hu
      obtain rfl := List.mem_singleton.mp hu
      by_contra hnot
      rw [mem_domain, Option.not_isSome_iff_eq_none] at hnot
      change a.value u = .ok b at h
      rw [value, hnot] at h
      cases h
  | neg f ih =>
      obtain ⟨x, hx, _⟩ := bind_eq_ok_iff.mp h
      exact ih hx
  | conj l r ihl ihr =>
      obtain ⟨x, hx, hright⟩ := bind_eq_ok_iff.mp h
      obtain ⟨y, hy, _⟩ := bind_eq_ok_iff.mp hright
      exact List.forall_mem_append.mpr ⟨ihl hx, ihr hy⟩
  | disj l r ihl ihr =>
      obtain ⟨x, hx, hright⟩ := bind_eq_ok_iff.mp h
      obtain ⟨y, hy, _⟩ := bind_eq_ok_iff.mp hright
      exact List.forall_mem_append.mpr ⟨ihl hx, ihr hy⟩

/-- A formula has a value under an assignment just when all of its atoms have one,
and it is then its truth value. -/
theorem ofFormula_valuation_eq_ok_iff :
    a.valuation.ofFormula f = .ok b ↔ (∀ v ∈ f.atoms, v ∈ a.domain) ∧ f.eval a.read = b := by
  constructor
  · intro h
    have hatoms := mem_domain_of_ofFormula h
    rw [ofFormula_valuation hatoms] at h
    exact ⟨hatoms, Except.ok.inj h⟩
  · rintro ⟨hatoms, rfl⟩
    exact ofFormula_valuation hatoms

end Assignment

namespace Sentence

/-- A sentence has a value under an assignment just when it lists a formula and the
assignment gives values to just the variables of the formula; the value is the truth
value of the formula.  No sentence lists two formulas. -/
theorem evaluate_eq_ok_iff (s : Sentence) (a : Assignment) (b : Bool) :
    (s.evaluate a = .ok b ↔
        ∃ f : Formula Variable, f.symbols = s.symbols ∧
          (∀ v, (a.get? v).isSome = true ↔ v ∈ f.atoms) ∧ f.eval a.read = b) ∧
      ∀ f g : Formula Variable, f.symbols = s.symbols → g.symbols = s.symbols → f = g := by
  refine ⟨?_, fun f g hf hg => Formula.symbols_injective (hf.trans hg.symm)⟩
  have hvocabulary : ∀ f : Formula Variable, f.symbols = s.symbols →
      ∀ v, v ∈ s.vocabulary.toSet ↔ v ∈ f.atoms := by
    intro f hf v
    rw [Vocabulary.mem_toSet, vocabulary, Vocabulary.mem_ofList, occurrences, ← hf,
      f.filterMap_atom?_symbols]
  rw [evaluate, bind_eq_ok_iff]
  constructor
  · rintro ⟨_, hwithin, hvalue⟩
    obtain ⟨f, hf, hvalue⟩ := Interpretation.value_eq_ok_iff.mp hvalue
    obtain ⟨hatoms, heval⟩ := Assignment.ofFormula_valuation_eq_ok_iff.mp hvalue
    refine ⟨f, hf, fun v => ?_, heval⟩
    rw [← Assignment.mem_domain]
    constructor
    · intro hv
      exact (hvocabulary f hf v).mp (Assignment.requireWithin_eq_ok_iff.mp hwithin v hv)
    · exact hatoms v
  · rintro ⟨f, hf, hdomain, heval⟩
    have hmem : ∀ v, v ∈ a.domain ↔ v ∈ f.atoms := by
      intro v
      rw [Assignment.mem_domain, hdomain]
    refine ⟨(), Assignment.requireWithin_eq_ok_iff.mpr fun v hv => ?_, ?_⟩
    · exact (hvocabulary f hf v).mpr ((hmem v).mp hv)
    · refine Interpretation.value_eq_ok_iff.mpr ⟨f, hf, ?_⟩
      exact Assignment.ofFormula_valuation_eq_ok_iff.mpr
        ⟨fun v hv => (hmem v).mpr hv, heval⟩

/-- The row of a conjunction has the value of the only formula it lists. -/
theorem evaluate_negated_conjunct :
    let a : Variable := ⟨'a', 97⟩
    let b : Variable := ⟨'b', 98⟩
    let f : Formula Variable := .conj (.atom b) (.neg (.atom a))
    let s : Sentence := ⟨[.atom b, .atom a, .connective .negation, .connective .conjunction]⟩
    s.evaluate (.ofPairs [(a, false), (b, true)]) = .ok true ∧
      ∀ g : Formula Variable, g.symbols = s.symbols → g = f := by
  intro a b f s
  have hdifferent : a ≠ b := by decide
  obtain ⟨hvalue, hunique⟩ := evaluate_eq_ok_iff s (.ofPairs [(a, false), (b, true)]) true
  refine ⟨hvalue.mpr ⟨f, rfl, fun v => ?_, rfl⟩, fun g hg => hunique g f hg rfl⟩
  by_cases hb : v = b <;> by_cases ha : v = a <;>
    simp [Assignment.ofPairs, Formula.atoms, f, ha, hb, hdifferent]

end Sentence

end Sentential
