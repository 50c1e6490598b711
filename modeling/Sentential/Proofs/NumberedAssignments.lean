/-
Assignments by number.  An assignment may be kept as two sets of numbers, to be listed by
looking the numbers up in the registry.  For the assignments that a session makes nothing
is lost: every operation can be done on the numbers, and what is asked of the numbers has
the answer that the assignment gives.
-/
import Sentential.Proofs.DistinctLists
import Sentential.Proofs.PartialMap

namespace Sentential

/-- The numbers of the true variables and those of the false ones. -/
structure NumberedAssignment where
  positive : Finset Nat
  negative : Finset Nat
deriving DecidableEq

namespace NumberedAssignment

/-- The assignment of no variable. -/
def empty : NumberedAssignment := ⟨∅, ∅⟩

/-- The value of a variable, if its number has one. -/
def get? (a : NumberedAssignment) (v : Variable) : Option Bool :=
  if v.number ∈ a.positive then some true
  else if v.number ∈ a.negative then some false
  else none

/-- The assignment with the value of one variable set. -/
def insert (a : NumberedAssignment) (v : Variable) : Bool → NumberedAssignment
  | true => ⟨Insert.insert v.number a.positive, a.negative.erase v.number⟩
  | false => ⟨a.positive.erase v.number, Insert.insert v.number a.negative⟩

/-- The assignment without a value for one variable. -/
def erase (a : NumberedAssignment) (v : Variable) : NumberedAssignment :=
  ⟨a.positive.erase v.number, a.negative.erase v.number⟩

/-- The values of a list of pairs; the last value of a variable counts. -/
def ofPairs (pairs : List (Variable × Bool)) : NumberedAssignment :=
  pairs.foldl (fun a pair => a.insert pair.1 pair.2) empty

/-- The numbers that have a value. -/
def domain (a : NumberedAssignment) : Finset Nat := a.positive ∪ a.negative

/-- The values of the numbers in a set, all others dropped. -/
def restrict (a : NumberedAssignment) (N : Finset Nat) : NumberedAssignment :=
  ⟨a.positive ∩ N, a.negative ∩ N⟩

/-- The values of two assignments; where both have one, the second counts. -/
def override (a b : NumberedAssignment) : NumberedAssignment :=
  ⟨(a.positive \ b.negative) ∪ b.positive, (a.negative \ b.positive) ∪ b.negative⟩

/-- Fails at the variable of the first number that has a value but is not in a set. -/
def requireWithin (r : Registry) (a : NumberedAssignment) (N : Finset Nat) :
    Except EvaluationError Unit :=
  match (r.lookUpAll (a.domain \ N)).head? with
  | some v => .error (.unexpectedVariable v)
  | none => .ok ()

/-- The value of a variable that has to have one. -/
def value (a : NumberedAssignment) (v : Variable) : Except EvaluationError Bool :=
  match a.get? v with
  | some b => .ok b
  | none => .error (.undefinedVariable v)

/-- Symbols as truth values. -/
def valuation (a : NumberedAssignment) : Interpretation Variable Bool where
  atom := a.value
  negation := (!·)
  conjunction := (· && ·)
  disjunction := (· || ·)

/-- The variables with their values, in the order of their numbers. -/
def toList (r : Registry) (a : NumberedAssignment) : List (Variable × Bool) :=
  List.merge ((r.lookUpAll a.positive).map (·, true)) ((r.lookUpAll a.negative).map (·, false))
    fun left right => left.1.number < right.1.number

/-- The text of an assignment. -/
def text (r : Registry) (a : NumberedAssignment) : String :=
  " ".intercalate <|
    (a.toList r).map fun (v, b) => toString v ++ "=" ++ (if b then "1" else "0")

end NumberedAssignment

/-- The assignment kept by number. -/
def Assignment.numbered (a : Assignment) : NumberedAssignment :=
  ⟨a.positive.numbers, a.negative.numbers⟩

section Sets

variable {r : Registry} {s : VariableSet} {S : Set Variable} {N : Finset Nat}

theorem VariableSet.sameSet_numbers (hr : r.Extends .empty) (hs : ∀ v ∈ s, r.Issued v) :
    SameSet r s {v | v ∈ s} s.numbers where
  issued := hs
  mem_iff _ := Iff.rfl
  number_mem_iff _ := number_mem_numbers_iff hr hs
  exists_issued n hn := by
    rw [numbers, List.mem_toFinset, List.mem_map] at hn
    obtain ⟨v, hv, hnumber⟩ := hn
    exact ⟨v, hs v hv, hnumber⟩

/-- The numbers in which a set is kept are those of its members. -/
theorem SameSet.numbers_eq (h : SameSet r s S N) : s.numbers = N := by
  ext n
  rw [h.mem_numbers_iff, VariableSet.numbers, List.mem_toFinset, List.mem_map]
  simp only [← h.mem_iff]
  rfl

theorem VariableSet.lookUpAll_numbers (hr : r.Extends .empty) (hs : ∀ v ∈ s, r.Issued v) :
    r.lookUpAll s.numbers = s.toList :=
  ((sameSet_numbers hr hs).seenAlike hr).lookUpAll_eq

end Sets

namespace Assignment

variable {r : Registry} {a b : Assignment} {s : VariableSet} {v : Variable}
  {pairs : List (Variable × Bool)}

theorem Obtained.issued_positive (ha : Obtained r a) : ∀ v ∈ a.positive, r.Issued v :=
  fun v hv => ha.issued v (VariableSet.mem_union.mpr (.inl hv))

theorem Obtained.issued_negative (ha : Obtained r a) : ∀ v ∈ a.negative, r.Issued v :=
  fun v hv => ha.issued v (VariableSet.mem_union.mpr (.inr hv))

/-- What the numbers of one assignment are is told by the numbers of its two sets. -/
theorem numbered_eq {n : NumberedAssignment} (hpositive : a.positive.numbers = n.positive)
    (hnegative : a.negative.numbers = n.negative) : a.numbered = n := by
  rw [numbered, hpositive, hnegative]

section Operations

variable (hr : r.Extends .empty) (ha : Obtained r a)
include hr ha

theorem sameSet_positive : SameSet r a.positive {v | v ∈ a.positive} a.numbered.positive :=
  VariableSet.sameSet_numbers hr ha.issued_positive

theorem sameSet_negative : SameSet r a.negative {v | v ∈ a.negative} a.numbered.negative :=
  VariableSet.sameSet_numbers hr ha.issued_negative

theorem numbered_insert (hv : r.Issued v) (value : Bool) :
    (a.insert v value).numbered = a.numbered.insert v value := by
  have hpositive := sameSet_positive hr ha
  have hnegative := sameSet_negative hr ha
  cases value with
  | true =>
      apply numbered_eq
      · exact (hpositive.insert hr hv).numbers_eq
      · exact (hnegative.remove hr hv).numbers_eq
  | false =>
      apply numbered_eq
      · exact (hpositive.remove hr hv).numbers_eq
      · exact (hnegative.insert hr hv).numbers_eq

theorem numbered_erase (hv : r.Issued v) : (a.erase v).numbered = a.numbered.erase v := by
  apply numbered_eq
  · exact ((sameSet_positive hr ha).remove hr hv).numbers_eq
  · exact ((sameSet_negative hr ha).remove hr hv).numbers_eq

theorem numbered_restrict (hs : ∀ v ∈ s, r.Issued v) :
    (a.restrict s).numbered = a.numbered.restrict s.numbers := by
  have hshared := VariableSet.sameSet_numbers hr hs
  apply numbered_eq
  · exact ((sameSet_positive hr ha).intersect hshared).numbers_eq
  · exact ((sameSet_negative hr ha).intersect hshared).numbers_eq

theorem numbered_override (hb : Obtained r b) :
    (a.override b).numbered = a.numbered.override b.numbered := by
  have htrue := sameSet_positive hr hb
  have hfalse := sameSet_negative hr hb
  apply numbered_eq
  · exact (((sameSet_positive hr ha).subtract hfalse).unite htrue).numbers_eq
  · exact (((sameSet_negative hr ha).subtract htrue).unite hfalse).numbers_eq

theorem numbers_domain : a.domain.numbers = a.numbered.domain :=
  ((sameSet_positive hr ha).unite (sameSet_negative hr ha)).numbers_eq

theorem get?_numbered (hv : r.Issued v) : a.numbered.get? v = a.get? v := by
  have hpositive := (sameSet_positive hr ha).number_mem_iff v hv
  have hnegative := (sameSet_negative hr ha).number_mem_iff v hv
  simp only [NumberedAssignment.get?, hpositive, hnegative, get?]
  rfl

theorem value_numbered (hv : r.Issued v) : a.numbered.value v = a.value v := by
  rw [NumberedAssignment.value, get?_numbered hr ha hv]
  rfl

/-- The first variable outside a set is the one with the lowest number. -/
theorem requireWithin_numbered (hs : ∀ v ∈ s, r.Issued v) :
    a.numbered.requireWithin r s.numbers = a.requireWithin s := by
  have houtside : ∀ v ∈ a.domain \ s, r.Issued v :=
    fun v hv => ha.issued v (VariableSet.mem_sdiff.mp hv).1
  have hnumbers : (a.domain \ s).numbers = a.numbered.domain \ s.numbers := by
    rw [← numbers_domain hr ha]
    exact ((VariableSet.sameSet_numbers hr ha.issued).subtract
      (VariableSet.sameSet_numbers hr hs)).numbers_eq
  rw [NumberedAssignment.requireWithin, ← hnumbers, VariableSet.lookUpAll_numbers hr houtside]
  rfl

theorem toList_numbered : a.numbered.toList r = a.toList := by
  have horder : ∀ left ∈ a.positive.toList.map (·, true),
      ∀ right ∈ a.negative.toList.map (·, false),
        decide (left.1.number < right.1.number) = decide (left.1 < right.1) := by
    intro left hleft right hright
    obtain ⟨v, hv, rfl⟩ := List.mem_map.mp hleft
    obtain ⟨w, hw, rfl⟩ := List.mem_map.mp hright
    have hlt := (ha.issued_positive v hv).lt_iff_number_lt (ha.issued_negative w hw) hr
    exact decide_eq_decide.mpr hlt.symm
  have hmerge := List.map_merge (f := id)
    (r := fun left right : Variable × Bool => left.1.number < right.1.number)
    (s := fun left right : Variable × Bool => left.1 < right.1) horder
  rw [List.map_id, List.map_id, List.map_id] at hmerge
  rw [NumberedAssignment.toList, numbered, VariableSet.lookUpAll_numbers hr ha.issued_positive,
    VariableSet.lookUpAll_numbers hr ha.issued_negative]
  exact hmerge

theorem text_numbered : a.numbered.text r = toString a := by
  rw [NumberedAssignment.text, toList_numbered hr ha]
  rfl

theorem numbered_foldl_insert (hpairs : ∀ pair ∈ pairs, r.Issued pair.1) :
    (pairs.foldl (fun a pair => a.insert pair.1 pair.2) a).numbered =
      pairs.foldl (fun a pair => a.insert pair.1 pair.2) a.numbered := by
  induction pairs generalizing a with
  | nil => rfl
  | cons pair rest ih =>
      obtain ⟨hv, hrest⟩ := List.forall_mem_cons.mp hpairs
      rw [List.foldl_cons, List.foldl_cons, ← numbered_insert hr ha hv]
      exact ih (ha.insert pair.2 hv) hrest

end Operations

theorem numbered_ofPairs (hr : r.Extends .empty) (hpairs : ∀ pair ∈ pairs, r.Issued pair.1) :
    (ofPairs pairs).numbered = .ofPairs pairs :=
  numbered_foldl_insert hr (.empty r) hpairs

/-- Different assignments have different numbers. -/
theorem numbered_inj (hr : r.Extends .empty) (ha : Obtained r a) (hb : Obtained r b) :
    a.numbered = b.numbered ↔ a = b := by
  have hpositive := (sameSet_positive hr ha).eq_iff (sameSet_positive hr hb)
  have hnegative := (sameSet_negative hr ha).eq_iff (sameSet_negative hr hb)
  constructor
  · intro h
    have htrue : a.positive = b.positive :=
      hpositive.1.mpr (hpositive.2.mp (congrArg NumberedAssignment.positive h))
    have hfalse : a.negative = b.negative :=
      hnegative.1.mpr (hnegative.2.mp (congrArg NumberedAssignment.negative h))
    apply ext_get?
    intro v
    rw [get?, get?, htrue, hfalse]
  · exact congrArg numbered

/-- An assignment and numbers that the same operations make.  The registry is the one at
the end of the session: what it has given out before is given out still. -/
inductive MadeAlike (r : Registry) : Assignment → NumberedAssignment → Prop where
  | empty : MadeAlike r ∅ .empty
  | insert {a : Assignment} {n : NumberedAssignment} {v : Variable} (value : Bool) :
      MadeAlike r a n → r.Issued v → MadeAlike r (a.insert v value) (n.insert v value)
  | erase {a : Assignment} {n : NumberedAssignment} {v : Variable} :
      MadeAlike r a n → r.Issued v → MadeAlike r (a.erase v) (n.erase v)
  | ofPairs {pairs : List (Variable × Bool)} :
      (∀ pair ∈ pairs, r.Issued pair.1) → MadeAlike r (.ofPairs pairs) (.ofPairs pairs)
  | restrict {a : Assignment} {n : NumberedAssignment} {s : VariableSet} :
      MadeAlike r a n → (∀ v ∈ s, r.Issued v) →
        MadeAlike r (a.restrict s) (n.restrict s.numbers)
  | override {a b : Assignment} {n m : NumberedAssignment} :
      MadeAlike r a n → MadeAlike r b m → MadeAlike r (a.override b) (n.override m)

namespace MadeAlike

variable {n m : NumberedAssignment}

theorem obtained (h : MadeAlike r a n) : Obtained r a := by
  induction h with
  | empty => exact .empty r
  | insert value _ hv ih => exact ih.insert value hv
  | erase _ _ ih => exact ih.erase _
  | ofPairs hpairs => exact .ofPairs hpairs
  | restrict _ _ ih => exact ih.restrict _
  | override _ _ iha ihb => exact iha.override ihb

variable (hr : r.Extends .empty)
include hr

/-- Operations on numbers make the numbers of what the operations make. -/
theorem numbered_eq (h : MadeAlike r a n) : a.numbered = n := by
  induction h with
  | empty => rfl
  | insert value hmade hv ih => rw [numbered_insert hr hmade.obtained hv, ih]
  | erase hmade hv ih => rw [numbered_erase hr hmade.obtained hv, ih]
  | ofPairs hpairs => exact numbered_ofPairs hr hpairs
  | restrict hmade hs ih => rw [numbered_restrict hr hmade.obtained hs, ih]
  | override ha hb iha ihb => rw [numbered_override hr ha.obtained hb.obtained, iha, ihb]

/-- Nothing that is asked of an assignment tells it from its numbers. -/
theorem seen_alike (ha : MadeAlike r a n) (hb : MadeAlike r b m) :
    (∀ v, r.Issued v → n.get? v = a.get? v) ∧ n.toList r = a.toList ∧
      n.text r = toString a ∧ (n = m ↔ a = b) := by
  obtain rfl := ha.numbered_eq hr
  obtain rfl := hb.numbered_eq hr
  have hobtained := ha.obtained
  exact ⟨fun v hv => get?_numbered hr hobtained hv, toList_numbered hr hobtained,
    text_numbered hr hobtained, numbered_inj hr hobtained hb.obtained⟩

end MadeAlike

end Assignment

end Sentential
