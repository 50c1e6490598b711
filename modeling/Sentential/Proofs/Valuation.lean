/-
Assignments as valuations.  A vocabulary cuts a valuation of all variables down to
an assignment of its own, and every assignment of just these variables arises so.
Under such an assignment a proposition that expresses a formula has the truth
value of the formula.
-/
import Sentential.Proposition

namespace Sentential

namespace Assignment

/-- The truth values as a valuation; a variable without a value counts as false. -/
def read (a : Assignment) (v : Variable) : Bool := (a.get? v).getD false

variable {a : Assignment} {v : Variable}

theorem get?_eq_some_read (hv : v ∈ a.domain) : a.get? v = some (a.read v) := by
  have hsome := mem_domain.mp hv
  obtain ⟨value, hvalue⟩ := Option.isSome_iff_exists.mp hsome
  rw [read, hvalue]
  rfl

theorem value_eq_ok (hv : v ∈ a.domain) : a.value v = .ok (a.read v) := by
  rw [value, get?_eq_some_read hv]

theorem get?_foldl_insert (l : List Variable) (ν : Variable → Bool) (a : Assignment)
    (u : Variable) :
    ((l.map fun v => (v, ν v)).foldl (fun a pair => a.insert pair.1 pair.2) a).get? u =
      if u ∈ l then some (ν u) else a.get? u := by
  induction l generalizing a with
  | nil => rfl
  | cons w rest ih =>
      rw [List.map_cons, List.foldl_cons, ih, get?_insert]
      by_cases hrest : u ∈ rest
      · simp [hrest]
      · by_cases hw : u = w
        · simp [hw]
        · simp [hrest, hw]

theorem requireWithin_eq_ok {s : VariableSet} (h : a.domain ⊆ s) :
    a.requireWithin s = .ok () := by
  have hnone : (a.domain \ s).toList = [] := by
    apply List.eq_nil_iff_forall_not_mem.mpr
    intro v hv
    obtain ⟨hdomain, hnot⟩ := VariableSet.mem_sdiff.mp (VariableSet.mem_toList.mp hv)
    exact hnot (h v hdomain)
  rw [requireWithin, VariableSet.first?, hnone]
  rfl

@[simp] theorem domain_restrict (a : Assignment) (s : VariableSet) :
    (a.restrict s).domain = a.domain ∩ s := by
  ext v
  rw [mem_domain, get?_restrict, VariableSet.mem_inter, mem_domain]
  by_cases hv : v ∈ s <;> simp [hv]

theorem read_restrict {s : VariableSet} (hv : v ∈ s) : (a.restrict s).read v = a.read v := by
  simp [read, hv]

@[simp] theorem domain_override (a b : Assignment) :
    (a.override b).domain = a.domain ∪ b.domain := by
  ext v
  rw [mem_domain, get?_override, VariableSet.mem_union, mem_domain, mem_domain]
  cases b.get? v <;> simp

theorem read_override_of_mem {b : Assignment} (hv : v ∈ b.domain) :
    (a.override b).read v = b.read v := by
  rw [read, get?_override, get?_eq_some_read hv]
  rfl

theorem read_override_of_not_mem {b : Assignment} (hv : v ∉ b.domain) :
    (a.override b).read v = a.read v := by
  rw [mem_domain, Option.not_isSome_iff_eq_none] at hv
  simp [read, hv]

/-- The symbols of a formula mean its truth value where all its atoms have one. -/
theorem ofFormula_valuation {f : Formula Variable} (h : ∀ v ∈ f.atoms, v ∈ a.domain) :
    a.valuation.ofFormula f = .ok (f.eval a.read) := by
  induction f with
  | atom v => exact value_eq_ok (h v List.mem_cons_self)
  | neg f ih =>
      rw [Interpretation.ofFormula, ih h]
      rfl
  | conj l r ihl ihr =>
      have hl := ihl fun v hv => h v (List.mem_append.mpr (Or.inl hv))
      have hr := ihr fun v hv => h v (List.mem_append.mpr (Or.inr hv))
      rw [Interpretation.ofFormula, hl, hr]
      rfl
  | disj l r ihl ihr =>
      have hl := ihl fun v hv => h v (List.mem_append.mpr (Or.inl hv))
      have hr := ihr fun v hv => h v (List.mem_append.mpr (Or.inr hv))
      rw [Interpretation.ofFormula, hl, hr]
      rfl

end Assignment

namespace Vocabulary

/-- A valuation cut down to a vocabulary. -/
def assign (l : Vocabulary) (ν : Variable → Bool) : Assignment :=
  .ofPairs (l.toList.map fun v => (v, ν v))

variable {l : Vocabulary} {ν : Variable → Bool} {v : Variable}

theorem get?_assign : (l.assign ν).get? v = if v ∈ l then some (ν v) else none :=
  Assignment.get?_foldl_insert l.toList ν ∅ v

@[simp] theorem domain_assign : (l.assign ν).domain = l.toSet := by
  ext v
  rw [Assignment.mem_domain, get?_assign, mem_toSet]
  by_cases hv : v ∈ l <;> simp [hv]

theorem read_assign (hv : v ∈ l) : (l.assign ν).read v = ν v := by
  simp [Assignment.read, get?_assign, hv]

/-- An assignment of just the variables of a vocabulary is its own valuation, cut
down to the vocabulary. -/
theorem assign_read {a : Assignment} (ha : a.domain = l.toSet) : l.assign a.read = a := by
  apply Assignment.ext_get?
  intro v
  rw [get?_assign]
  by_cases hv : v ∈ l
  · have hdomain : v ∈ a.domain := by rwa [ha, mem_toSet]
    rw [if_pos hv, Assignment.get?_eq_some_read hdomain]
  · have hdomain : v ∉ a.domain := by rwa [ha, mem_toSet]
    rw [Assignment.mem_domain, Option.not_isSome_iff_eq_none] at hdomain
    rw [if_neg hv, hdomain]

theorem assign_congr {μ : Variable → Bool} (h : ∀ v ∈ l, ν v = μ v) :
    l.assign ν = l.assign μ := by
  apply Assignment.ext_get?
  intro v
  rw [get?_assign, get?_assign]
  by_cases hv : v ∈ l
  · rw [if_pos hv, if_pos hv, h v hv]
  · rw [if_neg hv, if_neg hv]

end Vocabulary

namespace Proposition

/-- A proposition expresses a formula: a variable the atom, a sentence the formula
whose symbols it has. -/
def Expresses : Proposition → Formula Variable → Prop
  | atom v, f => f = .atom v
  | sentence s, f => s.symbols = f.symbols

namespace Expresses

variable {p : Proposition} {f : Formula Variable}

theorem vocabulary_eq (h : p.Expresses f) : p.vocabulary = .ofList f.atoms := by
  cases p with
  | atom v =>
      cases h
      rfl
  | sentence s =>
      have hatoms : s.occurrences = f.atoms := by
        rw [Sentence.occurrences, show s.symbols = f.symbols from h,
          f.filterMap_atom?_symbols]
      rw [vocabulary, Sentence.vocabulary, hatoms]

theorem mem_vocabulary (h : p.Expresses f) {v : Variable} :
    v ∈ p.vocabulary ↔ v ∈ f.atoms := by
  rw [h.vocabulary_eq, Vocabulary.mem_ofList]

/-- Under an assignment of just its variables, a proposition has the truth value of
the formula it expresses. -/
theorem evaluate_eq (h : p.Expresses f) {a : Assignment}
    (ha : a.domain = p.vocabulary.toSet) : p.evaluate a = .ok (f.eval a.read) := by
  have hatoms : ∀ v ∈ f.atoms, v ∈ a.domain := by
    intro v hv
    rw [ha, Vocabulary.mem_toSet, h.mem_vocabulary]
    exact hv
  have hwithin : ∀ s : VariableSet, (∀ v ∈ f.atoms, v ∈ s) → a.domain ⊆ s := by
    intro s hs v hv
    rw [VariableSet.mem_toList, ha, Vocabulary.mem_toSet, h.mem_vocabulary] at hv
    exact hs v hv
  cases p with
  | atom v =>
      cases h
      have hrequire := Assignment.requireWithin_eq_ok
        (hwithin (.ofList [v]) fun u hu => VariableSet.mem_ofList.mpr hu)
      rw [evaluate, hrequire]
      exact Assignment.value_eq_ok (hatoms v List.mem_cons_self)
  | sentence s =>
      have hrequire := Assignment.requireWithin_eq_ok (hwithin s.vocabulary.toSet fun v hv => by
        rw [Vocabulary.mem_toSet]
        exact h.mem_vocabulary.mpr hv)
      rw [evaluate, Sentence.evaluate, hrequire, show s.symbols = f.symbols from h]
      change a.valuation.value f.symbols = _
      rw [Interpretation.value_symbols]
      exact Assignment.ofFormula_valuation hatoms

end Expresses

end Proposition

end Sentential
