/-
Queries on a proposition that expresses a formula.  No assignment of just its
variables makes the evaluation fail, so each query runs through the whole
enumeration and answers for the formula.
-/
import Sentential.Proofs.Exhaustion

namespace Sentential

variable {ε α β : Type}

/-- What the first element gives, if anything, comes before the rest. -/
theorem filterMapM_cons_eq (f : α → Except ε (Option β)) {a : α} {kept : Option β}
    (h : f a = .ok kept) (rest : List α) :
    (a :: rest).filterMapM f = (rest.filterMapM f).map (kept.toList ++ ·) := by
  rw [List.filterMapM_cons, h]
  cases kept <;> cases rest.filterMapM f <;> rfl

theorem filterMapM_eq_ok {f : α → Except ε (Option β)} {g : α → Option β} {l : List α}
    (h : ∀ a ∈ l, f a = .ok (g a)) : l.filterMapM f = .ok (l.filterMap g) := by
  induction l with
  | nil => rfl
  | cons a rest ih =>
      have hrest := ih fun b hb => h b (List.mem_cons_of_mem a hb)
      rw [filterMapM_cons_eq f (h a List.mem_cons_self), hrest, List.filterMap_cons]
      cases g a <;> rfl

theorem findM?_eq_ok {p : α → Except ε Bool} {q : α → Bool} {l : List α}
    (h : ∀ a ∈ l, p a = .ok (q a)) : l.findM? p = .ok (l.find? q) := by
  induction l with
  | nil => rfl
  | cons a rest ih =>
      have hrest := ih fun b hb => h b (List.mem_cons_of_mem a hb)
      rw [List.findM?, h a List.mem_cons_self, List.find?_cons]
      cases hq : q a with
      | false => exact hrest
      | true => rfl

namespace Proposition.Expresses

variable {p : Proposition} {f : Formula Variable}

/-- Cutting a valuation down to the variables of a proposition keeps the value of
its formula. -/
theorem eval_read_assign (h : p.Expresses f) (ν : Variable → Bool) :
    f.eval (p.vocabulary.assign ν).read = f.eval ν := by
  apply Formula.eval_congr
  intro v hv
  exact Vocabulary.read_assign (h.mem_vocabulary.mpr hv)

/-- A query that evaluates each assignment in turn goes through all of them. -/
theorem filterMapM_assignments_eq (h : p.Expresses f) {e : Enumeration}
    (he : p.assignments = .ok e) (keep : Assignment → Bool → Option β) :
    (p.assignments >>= fun e => e.filterMapM fun a => return keep a (← p.evaluate a)) =
      .ok (e.toList.filterMap fun a => keep a (f.eval a.read)) := by
  rw [he]
  change e.filterMapM _ = _
  rw [Enumeration.filterMapM_eq]
  apply filterMapM_eq_ok
  intro a ha
  rw [h.evaluate_eq ((Enumeration.mem_toList_ofVocabulary he).mp ha)]
  rfl

theorem outcomes_eq (h : p.Expresses f) (hsize : p.vocabulary.size < positionBits) :
    p.outcomes = .ok ((List.range (2 ^ p.vocabulary.size)).map fun i =>
      f.eval (p.vocabulary.digits i)) := by
  obtain ⟨e, he⟩ := Enumeration.exists_ofVocabulary hsize
  have hquery := h.filterMapM_assignments_eq he fun _ value => some value
  have hdigits : ((fun a : Assignment => some (f.eval a.read)) ∘ fun i =>
      p.vocabulary.assign (p.vocabulary.digits i)) =
      some ∘ fun i => f.eval (p.vocabulary.digits i) := by
    funext i
    exact congrArg some (h.eval_read_assign _)
  rw [Enumeration.toList_ofVocabulary he, List.filterMap_map, hdigits,
    List.filterMap_eq_map] at hquery
  exact hquery

/-- The outcomes are the values of the formula. -/
theorem exists_outcome_iff (h : p.Expresses f) (value : Bool) :
    value ∈ ((List.range (2 ^ p.vocabulary.size)).map fun i =>
        f.eval (p.vocabulary.digits i)) ↔
      ∃ ν : Variable → Bool, f.eval ν = value := by
  constructor
  · intro hvalue
    obtain ⟨i, _, rfl⟩ := List.mem_map.mp hvalue
    exact ⟨_, rfl⟩
  · rintro ⟨ν, rfl⟩
    obtain ⟨i, hi, hdigits⟩ := p.vocabulary.exists_digits_eq ν
    refine List.mem_map.mpr ⟨i, List.mem_range.mpr hi, ?_⟩
    apply Formula.eval_congr
    intro v hv
    exact hdigits v (h.mem_vocabulary.mpr hv)

/-- The properties of a proposition are those of its formula. -/
theorem exists_properties_eq (h : p.Expresses f)
    (hsize : p.vocabulary.size < positionBits) :
    ∃ properties, p.properties = .ok properties ∧
      (properties.valid = true ↔ ∀ ν : Variable → Bool, f.eval ν = true) ∧
      (properties.satisfiable = true ↔ ∃ ν : Variable → Bool, f.eval ν = true) ∧
      (properties.contingent = true ↔
        (∃ ν : Variable → Bool, f.eval ν = true) ∧
          ∃ ν : Variable → Bool, f.eval ν = false) := by
  have htrue := h.exists_outcome_iff true
  have hfalse := h.exists_outcome_iff false
  rw [properties, h.outcomes_eq hsize]
  generalize ((List.range (2 ^ p.vocabulary.size)).map fun i =>
    f.eval (p.vocabulary.digits i)) = outcomes at htrue hfalse
  have hall : outcomes.all id = true ↔ false ∉ outcomes := by
    rw [List.all_eq_true]
    constructor
    · intro hids hmem
      cases hids false hmem
    · intro hmem value hvalue
      cases value with
      | false => exact absurd hvalue hmem
      | true => rfl
  have hany : outcomes.any id = true ↔ true ∈ outcomes := by
    rw [List.any_eq_true]
    constructor
    · rintro ⟨value, hvalue, rfl⟩
      exact hvalue
    · intro hmem
      exact ⟨true, hmem, rfl⟩
  rw [hfalse] at hall
  rw [htrue] at hany
  refine ⟨_, rfl, ?_, hany, ?_⟩
  · change outcomes.all id = true ↔ _
    rw [hall, not_exists]
    exact forall_congr' fun ν => by rw [Bool.not_eq_false]
  · change (outcomes.any id && !outcomes.all id) = true ↔ _
    rw [Bool.and_eq_true, hany, Bool.not_eq_true', ← Bool.not_eq_true, hall, not_not]

/-- The satisfying assignments are the enumerated ones that make the formula true,
in the same order. -/
theorem satisfying_eq (h : p.Expresses f) {e : Enumeration} (he : p.assignments = .ok e) :
    p.satisfying = .ok (e.toList.filter fun a => f.eval a.read) := by
  have hquery := h.filterMapM_assignments_eq he fun a value => if value then some a else none
  rw [← List.filterMap_eq_filter]
  exact hquery

end Proposition.Expresses

end Sentential
