/-
Numbers and names.  In a session, which begins with the empty registry, enrolment
keeps the numbers and the names inverse to each other, so no two variables given out
have the same number, and listing by number leaves no ties.
-/
import Sentential.Proofs.Enrolment

namespace Sentential

namespace Registry

/-- The place of a name is its number, counted from the limit on, and no other
character has a number. -/
structure Consistent (r : Registry) : Prop where
  name_at : ∀ c n, r.numbers[c]? = some n → ∃ i, n = asciiLimit + i ∧ r.names[i]? = some c
  number_of : ∀ i c, r.names[i]? = some c → r.numbers[c]? = some (asciiLimit + i)

variable {r : Registry} {c d : Char}

theorem consistent_empty : Registry.empty.Consistent := by
  refine ⟨?_, ?_⟩
  · intro c n h
    simp [Registry.empty] at h
  · intro i c h
    simp [Registry.empty] at h

theorem getElem?_numbers_insert (n : Nat) :
    (r.numbers.insert c n)[d]? = if c = d then some n else r.numbers[d]? := by
  rw [Std.TreeMap.getElem?_insert]
  simp

/-- A new name and its number are put in matching places. -/
theorem Consistent.enroll (h : r.Consistent) (c : Char) : (r.enroll c).Consistent := by
  unfold Registry.enroll
  split
  · exact h
  · rename_i hnew
    have hfresh : r.numbers[c]? = none :=
      Std.TreeMap.getElem?_eq_none fun hmem => hnew (Or.inr hmem)
    refine ⟨?_, ?_⟩
    · intro d n hd
      rw [getElem?_numbers_insert] at hd
      split at hd
      · rename_i hsame
        cases hd
        exact ⟨r.names.size, rfl, by rw [Array.getElem?_push_size, hsame]⟩
      · obtain ⟨i, hn, hi⟩ := h.name_at d n hd
        have hlt : i < r.names.size := (Array.getElem?_eq_some_iff.mp hi).1
        exact ⟨i, hn, by rw [Array.getElem?_push, if_neg (Nat.ne_of_lt hlt), hi]⟩
    · intro i d hd
      rw [Array.getElem?_push] at hd
      rw [getElem?_numbers_insert]
      split at hd
      · rename_i hlast
        cases hd
        rw [if_pos rfl, hlast]
        rfl
      · have hold := h.number_of i d hd
        have hne : c ≠ d := by
          rintro rfl
          rw [hfresh] at hold
          cases hold
        rw [if_neg hne, hold]

theorem Consistent.enrollAll (h : r.Consistent) (cs : List Char) :
    (r.enrollAll cs).Consistent := by
  induction cs generalizing r with
  | nil => exact h
  | cons c rest ih => exact ih (h.enroll c)

/-- The registries of a session, which all come from the empty one, are consistent. -/
theorem Extends.consistent (h : r.Extends .empty) : r.Consistent := by
  obtain ⟨cs, rfl⟩ := h
  exact consistent_empty.enrollAll cs

/-- A number for good is the code point of an ASCII character or the place of another. -/
theorem Consistent.numberOf_cases (h : r.Consistent) (hc : r.Enrolled c) :
    (c.toNat < asciiLimit ∧ r.numberOf c = c.toNat) ∨
      ∃ i, r.numberOf c = asciiLimit + i ∧ r.names[i]? = some c := by
  by_cases hascii : c.toNat < asciiLimit
  · exact Or.inl ⟨hascii, r.numberOf_of_ascii hascii⟩
  · have hmem := hc.resolve_left hascii
    have hnumber : r.numbers[c]? = some (r.numberOf c) := by
      rw [numberOf, if_neg hascii, Std.TreeMap.getD_eq_getD_getElem?,
        Std.TreeMap.getElem?_eq_some_getElem hmem, Option.getD_some]
    exact Or.inr (h.name_at c _ hnumber)

/-- Different characters have different numbers. -/
theorem Consistent.eq_of_numberOf_eq (h : r.Consistent) (hc : r.Enrolled c)
    (hd : r.Enrolled d) (hnumber : r.numberOf c = r.numberOf d) : c = d := by
  obtain ⟨hcascii, hcnumber⟩ | ⟨i, hcnumber, hi⟩ := h.numberOf_cases hc <;>
    obtain ⟨hdascii, hdnumber⟩ | ⟨j, hdnumber, hj⟩ := h.numberOf_cases hd
  · exact Char.toNat_inj.mp (hcnumber.symm.trans (hnumber.trans hdnumber))
  · omega
  · omega
  · have hplace : i = j := by omega
    rw [hplace] at hi
    exact Option.some.inj (hi.symm.trans hj)

/-- Variables given out in a session that have the same number are the same. -/
theorem Issued.eq_of_number_eq {v w : Variable} (hv : r.Issued v) (hw : r.Issued w)
    (h : r.Extends .empty) (hnumber : v.number = w.number) : v = w := by
  have hsame : v.name = w.name := by
    apply h.consistent.eq_of_numberOf_eq hv.enrolled hw.enrolled
    have hvnumber := congrArg Variable.number hv.variableOf_name
    have hwnumber := congrArg Variable.number hw.variableOf_name
    exact hvnumber.trans (hnumber.trans hwnumber.symm)
  rw [← hv.variableOf_name, ← hw.variableOf_name, hsame]

theorem Issued.number_eq_iff {v w : Variable} (hv : r.Issued v) (hw : r.Issued w)
    (h : r.Extends .empty) : v.number = w.number ↔ v = w :=
  ⟨hv.eq_of_number_eq hw h, congrArg Variable.number⟩

/-- Among variables given out in a session, numbers alone make the listing order. -/
theorem Issued.lt_iff_number_lt {v w : Variable} (hv : r.Issued v) (hw : r.Issued w)
    (h : r.Extends .empty) : v < w ↔ v.number < w.number := by
  constructor
  · rintro (hlt | ⟨hnumber, hname⟩)
    · exact hlt
    · obtain rfl := hv.eq_of_number_eq hw h hnumber
      exact absurd hname (Char.lt_irrefl _)
  · exact Or.inl

end Registry

end Sentential
