/-
Vocabularies.  A vocabulary lists distinct variables in the order in which they
first occurred; this order fixes the order of enumerated assignments.
-/
import Sentential.Variable.Set

namespace Sentential

/-- Distinct variables in order of first occurrence. -/
structure Vocabulary where
  /-- The variables in order. -/
  toList : List Variable
  /-- No variable occurs twice. -/
  nodup : toList.Nodup
deriving DecidableEq

namespace Vocabulary

instance : EmptyCollection Vocabulary where
  emptyCollection := ⟨[], .nil⟩

instance : Inhabited Vocabulary := ⟨∅⟩

instance : Membership Variable Vocabulary where
  mem l v := v ∈ l.toList

instance (v : Variable) (l : Vocabulary) : Decidable (v ∈ l) :=
  inferInstanceAs (Decidable (v ∈ l.toList))

/-- The vocabulary with a new variable at the end, unless it is there already. -/
def insertNew? (l : Vocabulary) (v : Variable) : Option Vocabulary :=
  if h : v ∈ l.toList then none
  else some ⟨l.toList ++ [v], List.nodup_append.mpr
    ⟨l.nodup, by simp, fun u hu w hw heq => h (List.mem_singleton.mp hw ▸ heq ▸ hu)⟩⟩

/-- The vocabulary with a variable at the end; nothing changes if it is there
already. -/
def insert (l : Vocabulary) (v : Variable) : Vocabulary := (l.insertNew? v).getD l

/-- The vocabulary with the variables of a list inserted from left to right. -/
def insertAll (l : Vocabulary) (vs : List Variable) : Vocabulary := vs.foldl insert l

/-- The distinct variables of a list. -/
def ofList (vs : List Variable) : Vocabulary := insertAll ∅ vs

/-- The variables that are not in a set, in the same order. -/
def without (l : Vocabulary) (s : VariableSet) : Vocabulary :=
  ⟨l.toList.filter (· ∉ s), l.nodup.filter _⟩

/-- The set of the variables. -/
def toSet (l : Vocabulary) : VariableSet := .ofList l.toList

/-- The number of variables. -/
def size (l : Vocabulary) : Nat := l.toList.length

/-- Whether there is no variable. -/
def isEmpty (l : Vocabulary) : Bool := l.toList.isEmpty

instance : ToString Vocabulary where
  toString l := "[" ++ ", ".intercalate (l.toList.map toString) ++ "]"

variable {l : Vocabulary} {u v : Variable} {vs : List Variable}

@[simp] theorem mem_toList : v ∈ l.toList ↔ v ∈ l := Iff.rfl

@[simp] theorem not_mem_empty : v ∉ (∅ : Vocabulary) := List.not_mem_nil

theorem insertNew?_eq_none_iff : l.insertNew? v = none ↔ v ∈ l := by
  simp [insertNew?]

theorem insert_of_mem (h : v ∈ l) : l.insert v = l := by
  rw [insert, insertNew?_eq_none_iff.mpr h, Option.getD_none]

theorem toList_insert :
    (l.insert v).toList = if v ∈ l then l.toList else l.toList ++ [v] := by
  by_cases h : v ∈ l <;> simp [insert, insertNew?, h]

@[simp] theorem mem_insert : u ∈ l.insert v ↔ u ∈ l ∨ u = v := by
  rw [← mem_toList, toList_insert]
  split
  · rename_i h
    constructor
    · exact Or.inl
    · rintro (hu | rfl)
      · exact hu
      · exact h
  · simp

@[simp] theorem mem_insertAll : v ∈ l.insertAll vs ↔ v ∈ l ∨ v ∈ vs := by
  induction vs generalizing l with
  | nil => simp [insertAll]
  | cons w rest ih =>
      change v ∈ (l.insert w).insertAll rest ↔ _
      rw [ih, mem_insert, List.mem_cons, or_assoc]

@[simp] theorem mem_ofList : v ∈ ofList vs ↔ v ∈ vs := by
  simp [ofList]

@[simp] theorem mem_without {s : VariableSet} : v ∈ l.without s ↔ v ∈ l ∧ v ∉ s := by
  rw [← mem_toList]
  simp [without]

@[simp] theorem mem_toSet : v ∈ l.toSet ↔ v ∈ l := by
  simp [toSet]

theorem toSet_insert (l : Vocabulary) (v : Variable) : (l.insert v).toSet = l.toSet.insert v := by
  ext u
  rw [mem_toSet, mem_insert, VariableSet.mem_insert, mem_toSet, or_comm]

theorem size_toSet (l : Vocabulary) : l.toSet.size = l.size := by
  have hperm : l.toSet.toList.Perm l.toList :=
    (List.perm_ext_iff_of_nodup l.toSet.nodup_toList l.nodup).mpr fun _ => mem_toSet
  exact hperm.length_eq

end Vocabulary

end Sentential
