/-
Finite sets of variables.  A set is the list of its members in listing order,
each once, so equal sets are equal values and a set is listed as it is stored.
-/
import Sentential.Variable.Basic

namespace Sentential

/-- Puts a variable in its place in a list kept in listing order. -/
def insertInOrder (v : Variable) : List Variable → List Variable
  | [] => [v]
  | w :: rest =>
      if v < w then v :: w :: rest
      else if v = w then w :: rest
      else w :: insertInOrder v rest

@[simp] theorem mem_insertInOrder {u v : Variable} {l : List Variable} :
    u ∈ insertInOrder v l ↔ u = v ∨ u ∈ l := by
  induction l with
  | nil => simp [insertInOrder]
  | cons w rest ih =>
      simp only [insertInOrder]
      split
      · simp
      · split
        · rename_i heq
          simp [heq]
        · simp only [List.mem_cons, ih]
          exact or_left_comm

theorem pairwise_insertInOrder (v : Variable) {l : List Variable}
    (hl : l.Pairwise (· < ·)) : (insertInOrder v l).Pairwise (· < ·) := by
  induction l with
  | nil => simp [insertInOrder]
  | cons w rest ih =>
      obtain ⟨hw, hrest⟩ := List.pairwise_cons.mp hl
      simp only [insertInOrder]
      split
      · rename_i hlt
        refine List.pairwise_cons.mpr ⟨fun u hu => ?_, hl⟩
        rcases List.mem_cons.mp hu with rfl | hu
        · exact hlt
        · exact Variable.lt_trans hlt (hw u hu)
      · split
        · exact hl
        · rename_i hlt hne
          refine List.pairwise_cons.mpr ⟨fun u hu => ?_, ih hrest⟩
          rcases mem_insertInOrder.mp hu with rfl | hu
          · rcases Variable.lt_or_eq_or_gt u w with h | h | h
            · exact absurd h hlt
            · exact absurd h hne
            · exact h
          · exact hw u hu

/-- A finite set of variables. -/
structure VariableSet where
  /-- The members in listing order. -/
  toList : List Variable
  /-- Each member stands before the later ones. -/
  sorted : toList.Pairwise (· < ·)
deriving DecidableEq

namespace VariableSet

instance : EmptyCollection VariableSet where
  emptyCollection := ⟨[], .nil⟩

instance : Inhabited VariableSet := ⟨∅⟩

instance : Membership Variable VariableSet where
  mem s v := v ∈ s.toList

instance (v : Variable) (s : VariableSet) : Decidable (v ∈ s) :=
  inferInstanceAs (Decidable (v ∈ s.toList))

/-- The members that satisfy a condition. -/
def filter (p : Variable → Bool) (s : VariableSet) : VariableSet :=
  ⟨s.toList.filter p, s.sorted.filter p⟩

/-- The set with one variable added. -/
def insert (s : VariableSet) (v : Variable) : VariableSet :=
  ⟨insertInOrder v s.toList, pairwise_insertInOrder v s.sorted⟩

/-- The set with one variable removed. -/
def erase (s : VariableSet) (v : Variable) : VariableSet :=
  s.filter (· ≠ v)

/-- The set with the variables of a list added. -/
def insertAll (s : VariableSet) (l : List Variable) : VariableSet :=
  l.foldl insert s

/-- The set of the variables of a list. -/
def ofList (l : List Variable) : VariableSet := insertAll ∅ l

instance : Union VariableSet where
  union s t := s.insertAll t.toList

instance : Inter VariableSet where
  inter s t := s.filter (· ∈ t)

instance : SDiff VariableSet where
  sdiff s t := s.filter (· ∉ t)

instance : HasSubset VariableSet where
  Subset s t := ∀ v ∈ s.toList, v ∈ t

instance (s t : VariableSet) : Decidable (s ⊆ t) :=
  inferInstanceAs (Decidable (∀ v ∈ s.toList, v ∈ t))

/-- The number of members. -/
def size (s : VariableSet) : Nat := s.toList.length

/-- Whether the set has no member. -/
def isEmpty (s : VariableSet) : Bool := s.toList.isEmpty

/-- The member that is listed first. -/
def first? (s : VariableSet) : Option Variable := s.toList.head?

/-- The members ordered by name. -/
def toListByName (s : VariableSet) : List Variable :=
  s.toList.mergeSort fun v w => (v.compareByName w).isLE

instance : ToString VariableSet where
  toString s := "\x7b" ++ ", ".intercalate (s.toList.map toString) ++ "\x7d"

variable {s t : VariableSet} {u v : Variable}

@[simp] theorem mem_toList : v ∈ s.toList ↔ v ∈ s := Iff.rfl

@[simp] theorem not_mem_empty : v ∉ (∅ : VariableSet) := List.not_mem_nil

@[simp] theorem mem_filter {p : Variable → Bool} : v ∈ s.filter p ↔ v ∈ s ∧ p v = true :=
  List.mem_filter

@[simp] theorem mem_insert : u ∈ s.insert v ↔ u = v ∨ u ∈ s := mem_insertInOrder

@[simp] theorem mem_erase : u ∈ s.erase v ↔ u ∈ s ∧ u ≠ v := by
  simp [erase]

@[simp] theorem mem_insertAll {l : List Variable} : v ∈ s.insertAll l ↔ v ∈ s ∨ v ∈ l := by
  induction l generalizing s with
  | nil => simp [insertAll]
  | cons w rest ih =>
      change v ∈ (s.insert w).insertAll rest ↔ _
      rw [ih, mem_insert, List.mem_cons, or_assoc, or_left_comm]

@[simp] theorem mem_ofList {l : List Variable} : v ∈ ofList l ↔ v ∈ l := by
  simp [ofList]

@[simp] theorem mem_union : v ∈ s ∪ t ↔ v ∈ s ∨ v ∈ t := mem_insertAll

@[simp] theorem mem_inter : v ∈ s ∩ t ↔ v ∈ s ∧ v ∈ t := by
  change v ∈ s.filter _ ↔ _
  simp

@[simp] theorem mem_sdiff : v ∈ s \ t ↔ v ∈ s ∧ v ∉ t := by
  change v ∈ s.filter _ ↔ _
  simp

theorem isEmpty_iff : s.isEmpty = true ↔ ∀ v, v ∉ s := by
  rw [isEmpty, List.isEmpty_iff, List.eq_nil_iff_forall_not_mem]
  rfl

theorem subset_iff : s ⊆ t ↔ ∀ v, v ∈ s → v ∈ t := Iff.rfl

/-- No member is listed twice. -/
theorem nodup_toList (s : VariableSet) : s.toList.Nodup := by
  refine s.sorted.imp ?_
  rintro v _ hlt rfl
  exact Variable.lt_irrefl v hlt

/-- The first member in listing order has the lowest number. -/
theorem number_le_of_first? {first : Variable} (h : s.first? = some first) :
    first ∈ s ∧ ∀ v, v ∈ s → first.number ≤ v.number := by
  obtain ⟨rest, hlist⟩ := List.head?_eq_some_iff.mp h
  have hsorted := s.sorted
  rw [hlist] at hsorted
  have hmem : ∀ v, v ∈ s ↔ v ∈ first :: rest := by
    intro v
    rw [← hlist]
    rfl
  refine ⟨(hmem first).mpr List.mem_cons_self, fun v hv => ?_⟩
  rcases List.mem_cons.mp ((hmem v).mp hv) with rfl | hrest
  · exact Nat.le_refl _
  · rcases List.rel_of_pairwise_cons hsorted hrest with hlt | ⟨heq, _⟩
    · exact Nat.le_of_lt hlt
    · exact Nat.le_of_eq heq

/-- Sets with the same members are equal. -/
@[ext] theorem ext {s t : VariableSet} (h : ∀ v, v ∈ s ↔ v ∈ t) : s = t := by
  have hperm : s.toList.Perm t.toList :=
    (List.perm_ext_iff_of_nodup s.nodup_toList t.nodup_toList).mpr h
  have hlist : s.toList = t.toList :=
    hperm.eq_of_pairwise
      (fun v w _ _ hvw hwv => absurd (Variable.lt_trans hvw hwv) (Variable.lt_irrefl v))
      s.sorted t.sorted
  cases s
  cases t
  cases hlist
  rfl

end VariableSet

end Sentential
