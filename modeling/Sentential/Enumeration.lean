/-
Enumeration of the assignments of a vocabulary.  Position `i` stands for the
digits of `i` in base two, as many as there are variables: the first variable
has the most significant digit.  Positions are words of 64 bits, so vocabularies
of 64 variables or more are refused.
-/
import Sentential.Assignment.Basic

namespace Sentential

/-- The number of bits of a position. -/
def positionBits : Nat := 64

/-- The number of assignments of a vocabulary: each variable has two values. -/
def Vocabulary.assignmentCount (l : Vocabulary) : Nat := Nat.pow 2 l.size

/-- The assignments of a vocabulary, some of them already produced. -/
structure Enumeration where
  vocabulary : Vocabulary
  /-- The position of the assignment to produce next. -/
  next : UInt64
  /-- The number of positions. -/
  total : UInt64
  size_lt : vocabulary.size < positionBits
  toNat_total : total.toNat = vocabulary.assignmentCount
  next_le_total : next ≤ total
deriving DecidableEq

namespace Enumeration

theorem toNat_one_shiftLeft {n : Nat} (hn : n < positionBits) :
    ((1 : UInt64) <<< UInt64.ofNat n).toNat = Nat.pow 2 n := by
  have hlt : 2 ^ n < 2 ^ 64 := Nat.pow_lt_pow_right (by decide) hn
  have hmod : n % 18446744073709551616 % 64 = n := by
    unfold positionBits at hn
    omega
  rw [UInt64.toNat_shiftLeft, UInt64.toNat_ofNat', hmod, UInt64.toNat_one, Nat.shiftLeft_eq,
    Nat.one_mul, Nat.mod_eq_of_lt hlt, Nat.pow_eq]

/-- The enumeration of all assignments of a vocabulary. -/
def ofVocabulary (vocabulary : Vocabulary) : Except EvaluationError Enumeration :=
  if h : vocabulary.size < positionBits then
    .ok
      { vocabulary
        next := 0
        total := 1 <<< UInt64.ofNat vocabulary.size
        size_lt := h
        toNat_total := toNat_one_shiftLeft h
        next_le_total := UInt64.zero_le }
  else .error (.tooManyVariables vocabulary.size)

/-- The digit of a position at a place, counted from the least significant. -/
def digit (position : UInt64) (place : Nat) : Bool :=
  (position >>> UInt64.ofNat place) &&& 1 == 1

/-- The assignment at a position.  Digits beyond the number of variables do not
count. -/
def assignmentAt (e : Enumeration) (position : UInt64) : Assignment :=
  .ofPairs <| e.vocabulary.toList.zipIdx.map fun (v, k) =>
    (v, digit position (e.vocabulary.size - 1 - k))

/-- The number of assignments still to come. -/
def remaining (e : Enumeration) : UInt64 := e.total - e.next

/-- The word after one that is less than another does not wrap. -/
theorem toNat_add_one_of_lt {i n : UInt64} (h : i < n) : (i + 1).toNat = i.toNat + 1 := by
  have hlt := UInt64.lt_iff_toNat_lt.mp h
  have hn := n.toNat_lt
  rw [UInt64.toNat_add, UInt64.toNat_one, Nat.mod_eq_of_lt]
  omega

theorem add_one_le_of_lt {i n : UInt64} (h : i < n) : i + 1 ≤ n := by
  rw [UInt64.le_iff_toNat_le, toNat_add_one_of_lt h]
  exact UInt64.lt_iff_toNat_lt.mp h

/-- The next assignment, and the enumeration of those after it. -/
def next? (e : Enumeration) : Option (Assignment × Enumeration) :=
  if h : e.next < e.total then
    some (e.assignmentAt e.next,
      { e with next := e.next + 1, next_le_total := add_one_le_of_lt h })
  else none

/-- The next assignments, at most a given number of them, and the enumeration of
those after them. -/
def take (e : Enumeration) : Nat → List Assignment × Enumeration
  | 0 => ([], e)
  | count + 1 =>
      match e.next? with
      | none => ([], e)
      | some (a, later) =>
          let (as, last) := later.take count
          (a :: as, last)

/-- The assignments at a number of positions from one on. -/
def window (e : Enumeration) : Nat → UInt64 → List Assignment
  | 0, _ => []
  | count + 1, position => e.assignmentAt position :: e.window count (position + 1)

/-- The assignments still to come. -/
def toList (e : Enumeration) : List Assignment :=
  e.window e.remaining.toNat e.next

variable {ε β : Type}

/-- The results of a function on the assignments still to come.  The first error
ends the enumeration. -/
def filterMapM (f : Assignment → Except ε (Option β)) (e : Enumeration) :
    Except ε (List β) :=
  visit e.remaining.toNat e.next []
where
  visit : Nat → UInt64 → List β → Except ε (List β)
    | 0, _, found => .ok found.reverse
    | count + 1, position, found => do
        match ← f (e.assignmentAt position) with
        | none => visit count (position + 1) found
        | some b => visit count (position + 1) (b :: found)

/-- The first assignment still to come that passes a test.  It ends the
enumeration, as does the first error. -/
def findM? (p : Assignment → Except ε Bool) (e : Enumeration) :
    Except ε (Option Assignment) :=
  visit e.remaining.toNat e.next
where
  visit : Nat → UInt64 → Except ε (Option Assignment)
    | 0, _ => .ok none
    | count + 1, position => do
        let a := e.assignmentAt position
        if ← p a then return some a
        visit count (position + 1)

theorem toNat_remaining (e : Enumeration) :
    e.remaining.toNat = e.vocabulary.assignmentCount - e.next.toNat := by
  rw [remaining, UInt64.toNat_sub_of_le _ _ e.next_le_total, e.toNat_total]

theorem visit_filterMapM (f : Assignment → Except ε (Option β)) (e : Enumeration)
    (count : Nat) (position : UInt64) (found : List β) :
    filterMapM.visit f e count position found =
      List.filterMapM.loop f (e.window count position) found := by
  induction count generalizing position found with
  | zero => rfl
  | succ count ih =>
      simp only [filterMapM.visit, window, List.filterMapM.loop]
      cases hf : f (e.assignmentAt position) with
      | error err => rfl
      | ok b? =>
          cases b? with
          | none => exact ih (position + 1) found
          | some b => exact ih (position + 1) (b :: found)

/-- Running through the enumeration is running through the list of what is still
to come. -/
theorem filterMapM_eq (f : Assignment → Except ε (Option β)) (e : Enumeration) :
    e.filterMapM f = e.toList.filterMapM f :=
  visit_filterMapM f e e.remaining.toNat e.next []

theorem findM?_eq (p : Assignment → Except ε Bool) (e : Enumeration) :
    e.findM? p = e.toList.findM? p := by
  unfold findM? toList
  generalize e.remaining.toNat = count
  generalize e.next = position
  induction count generalizing position with
  | zero => rfl
  | succ count ih =>
      simp only [findM?.visit, window, List.findM?]
      cases hp : p (e.assignmentAt position) with
      | error err => rfl
      | ok b =>
          cases b with
          | false => exact ih (position + 1)
          | true => rfl

end Enumeration

end Sentential
