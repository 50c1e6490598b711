/-
Assignments.  An assignment gives truth values to finitely many variables: it
keeps the set of the true ones apart from the set of the false ones.  Every
operation is characterised by what it does to `get?`.
-/
import Sentential.Error
import Sentential.Reduction
import Sentential.Vocabulary

namespace Sentential

/-- Truth values for finitely many variables. -/
structure Assignment where
  /-- The variables that are true. -/
  positive : VariableSet
  /-- The variables that are false. -/
  negative : VariableSet
  /-- No variable is both. -/
  disjoint : ∀ v, v ∈ positive → v ∉ negative
deriving DecidableEq

namespace Assignment

instance : EmptyCollection Assignment where
  emptyCollection := ⟨∅, ∅, fun _ _ => VariableSet.not_mem_empty⟩

instance : Inhabited Assignment := ⟨∅⟩

/-- The value of a variable, if it has one. -/
def get? (a : Assignment) (v : Variable) : Option Bool :=
  if v ∈ a.positive then some true
  else if v ∈ a.negative then some false
  else none

/-- Whether a variable has a value. -/
def contains (a : Assignment) (v : Variable) : Bool :=
  v ∈ a.positive ∨ v ∈ a.negative

/-- The assignment with the value of one variable set. -/
def insert (a : Assignment) (v : Variable) : Bool → Assignment
  | true =>
      ⟨a.positive.insert v, a.negative.erase v, by
        intro u hpos hneg
        obtain ⟨hneg, hne⟩ := VariableSet.mem_erase.mp hneg
        rcases VariableSet.mem_insert.mp hpos with heq | hpos
        · exact hne heq
        · exact a.disjoint u hpos hneg⟩
  | false =>
      ⟨a.positive.erase v, a.negative.insert v, by
        intro u hpos hneg
        obtain ⟨hpos, hne⟩ := VariableSet.mem_erase.mp hpos
        rcases VariableSet.mem_insert.mp hneg with heq | hneg
        · exact hne heq
        · exact a.disjoint u hpos hneg⟩

/-- The assignment without a value for one variable. -/
def erase (a : Assignment) (v : Variable) : Assignment :=
  ⟨a.positive.erase v, a.negative.erase v, by
    intro u hpos hneg
    exact a.disjoint u (VariableSet.mem_erase.mp hpos).1 (VariableSet.mem_erase.mp hneg).1⟩

/-- The values of a list of pairs; the last value of a variable counts. -/
def ofPairs (pairs : List (Variable × Bool)) : Assignment :=
  pairs.foldl (fun a pair => a.insert pair.1 pair.2) ∅

/-- The variables that have a value. -/
def domain (a : Assignment) : VariableSet := a.positive ∪ a.negative

/-- The number of variables that have a value. -/
def size (a : Assignment) : Nat := a.positive.size + a.negative.size

/-- Whether no variable has a value. -/
def isEmpty (a : Assignment) : Bool := a.positive.isEmpty && a.negative.isEmpty

/-- The variables with their values, in listing order. -/
def toList (a : Assignment) : List (Variable × Bool) :=
  List.merge (a.positive.toList.map (·, true)) (a.negative.toList.map (·, false))
    fun left right => left.1 < right.1

/-- The values of the variables of a set, all others dropped. -/
def restrict (a : Assignment) (s : VariableSet) : Assignment :=
  ⟨a.positive ∩ s, a.negative ∩ s, by
    intro u hpos hneg
    exact a.disjoint u (VariableSet.mem_inter.mp hpos).1 (VariableSet.mem_inter.mp hneg).1⟩

/-- The values of two assignments; where both have one, the second counts. -/
def override (a b : Assignment) : Assignment :=
  ⟨(a.positive \ b.negative) ∪ b.positive, (a.negative \ b.positive) ∪ b.negative, by
    intro u hpos hneg
    simp only [VariableSet.mem_union, VariableSet.mem_sdiff] at hpos hneg
    rcases hpos with ⟨hpos, hnot⟩ | hpos
    · rcases hneg with ⟨hneg, _⟩ | hneg
      · exact a.disjoint u hpos hneg
      · exact hnot hneg
    · rcases hneg with ⟨_, hnot⟩ | hneg
      · exact hnot hpos
      · exact b.disjoint u hpos hneg⟩

/-- Fails at the first listed variable that has a value but is not in a set. -/
def requireWithin (a : Assignment) (s : VariableSet) : Except EvaluationError Unit :=
  match (a.domain \ s).first? with
  | some v => .error (.unexpectedVariable v)
  | none => .ok ()

/-- The value of a variable that has to have one. -/
def value (a : Assignment) (v : Variable) : Except EvaluationError Bool :=
  match a.get? v with
  | some b => .ok b
  | none => .error (.undefinedVariable v)

/-- Symbols as truth values. -/
def valuation (a : Assignment) : Interpretation Variable Bool where
  atom := a.value
  negation := (!·)
  conjunction := (· && ·)
  disjunction := (· || ·)

instance : ToString Assignment where
  toString a := " ".intercalate <|
    a.toList.map fun (v, b) => toString v ++ "=" ++ (if b then "1" else "0")

variable {a b : Assignment} {u v : Variable} {s : VariableSet}

theorem get?_eq_some_true_iff : a.get? v = some true ↔ v ∈ a.positive := by
  unfold get?
  split
  · simp [*]
  · split <;> simp [*]

theorem get?_eq_some_false_iff : a.get? v = some false ↔ v ∈ a.negative := by
  have hdisjoint := a.disjoint v
  unfold get?
  split
  · simp [*]
  · split <;> simp [*]

@[simp] theorem get?_empty : (∅ : Assignment).get? v = none := rfl

@[simp] theorem get?_insert {value : Bool} :
    (a.insert v value).get? u = if u = v then some value else a.get? u := by
  cases value <;> by_cases h : u = v <;> simp [insert, get?, h]

@[simp] theorem get?_erase :
    (a.erase v).get? u = if u = v then none else a.get? u := by
  by_cases h : u = v <;> simp [erase, get?, h]

@[simp] theorem get?_restrict :
    (a.restrict s).get? v = if v ∈ s then a.get? v else none := by
  by_cases h : v ∈ s <;> simp [restrict, get?, h]

@[simp] theorem get?_override :
    (a.override b).get? v = (b.get? v).or (a.get? v) := by
  have hdisjoint := b.disjoint v
  by_cases hpos : v ∈ b.positive <;> by_cases hneg : v ∈ b.negative <;>
    simp_all [override, get?]

theorem contains_eq_isSome_get? : a.contains v = (a.get? v).isSome := by
  by_cases hpos : v ∈ a.positive <;> by_cases hneg : v ∈ a.negative <;>
    simp [contains, get?, hpos, hneg]

theorem mem_domain : v ∈ a.domain ↔ (a.get? v).isSome = true := by
  by_cases hpos : v ∈ a.positive <;> by_cases hneg : v ∈ a.negative <;>
    simp [domain, get?, hpos, hneg]

/-- Assignments with the same values are equal. -/
theorem ext_get? {a b : Assignment} (h : ∀ v, a.get? v = b.get? v) : a = b := by
  have hpos : a.positive = b.positive := by
    ext v
    rw [← get?_eq_some_true_iff, ← get?_eq_some_true_iff, h]
  have hneg : a.negative = b.negative := by
    ext v
    rw [← get?_eq_some_false_iff, ← get?_eq_some_false_iff, h]
  cases a
  cases b
  cases hpos
  cases hneg
  rfl

end Assignment

end Sentential
