/-
The variables that a registry has given out.  Enrolment never takes a variable
back: one that was read from a text at any time is still what its name is read as,
and reading the name again leaves the registry as it is.  So all that was read in a
session can be told from the registry at its end.
-/
import Sentential.Sentence

namespace Sentential

namespace Registry

/-- A character whose number is settled. -/
def Enrolled (r : Registry) (c : Char) : Prop := c.toNat < asciiLimit ∨ c ∈ r.numbers

/-- A variable that the registry has given out: its name can be read, has a number
for good, and stands for the variable. -/
structure Issued (r : Registry) (v : Variable) : Prop where
  readable : ¬ Reserved v.name
  enrolled : r.Enrolled v.name
  variableOf_name : r.variableOf v.name = v

variable {r : Registry} {v : Variable}

theorem enrolled_enroll_self (r : Registry) (c : Char) : (r.enroll c).Enrolled c := by
  unfold enroll
  split
  · assumption
  · exact Or.inr (by simp)

namespace Enrolled

variable {d : Char}

theorem enroll_eq_self (hd : r.Enrolled d) : r.enroll d = r :=
  if_pos hd

theorem enroll (hd : r.Enrolled d) (c : Char) : (r.enroll c).Enrolled d := by
  unfold Registry.enroll
  split
  · exact hd
  · rcases hd with hascii | hmem
    · exact Or.inl hascii
    · exact Or.inr (Std.TreeMap.mem_insert.mpr (Or.inr hmem))

/-- A number, once given, stays. -/
theorem numberOf_enroll (hd : r.Enrolled d) (c : Char) :
    (r.enroll c).numberOf d = r.numberOf d := by
  unfold Registry.enroll
  split
  · rfl
  · rename_i hc
    rcases hd with hascii | hmem
    · rw [numberOf_of_ascii _ hascii, numberOf_of_ascii _ hascii]
    · have hne : compare c d ≠ .eq := by
        intro heq
        rw [Std.LawfulEqCmp.eq_of_compare heq] at hc
        exact hc (Or.inr hmem)
      simp only [numberOf, Std.TreeMap.getD_eq_getD_getElem?, Std.TreeMap.getElem?_insert,
        if_neg hne, Std.TreeMap.getElem?_eq_some_getElem hmem, Option.getD_some]

end Enrolled

theorem Issued.enroll (h : r.Issued v) (c : Char) : (r.enroll c).Issued v := by
  refine ⟨h.readable, h.enrolled.enroll c, ?_⟩
  rw [variableOf, h.enrolled.numberOf_enroll]
  exact h.variableOf_name

/-- A variable that was given out stays given out. -/
theorem Issued.enrollAll (h : r.Issued v) (cs : List Char) : (r.enrollAll cs).Issued v := by
  induction cs generalizing r with
  | nil => exact h
  | cons c rest ih => exact ih (h.enroll c)

theorem issued_enroll_self (r : Registry) {c : Char} (hc : ¬ Reserved c) :
    (r.enroll c).Issued (r.variableOf c) := by
  refine ⟨hc, r.enrolled_enroll_self c, ?_⟩
  rw [name_variableOf, variableOf, numberOf_enroll_self, variableOf]

/-- Each name of a row stands for a variable given out, once the row is enrolled. -/
theorem issued_enrollAll {cs : List Char} {c : Char} (hc : c ∈ cs) (hreadable : ¬ Reserved c) :
    (r.enrollAll cs).Issued ((r.enrollAll cs).variableOf c) := by
  induction cs generalizing r with
  | nil => cases hc
  | cons d rest ih =>
      rw [enrollAll_cons]
      rcases List.mem_cons.mp hc with rfl | hrest
      · have hissued := (r.issued_enroll_self hreadable).enrollAll rest
        have hsame := hissued.variableOf_name
        rw [name_variableOf] at hsame
        rw [hsame]
        exact hissued
      · exact ih hrest

/-- Reading the names of variables given out leaves the registry as it is. -/
theorem enrollAll_eq_self {vs : List Variable} (h : ∀ v ∈ vs, r.Issued v) :
    r.enrollAll (vs.map Variable.name) = r := by
  induction vs with
  | nil => rfl
  | cons v rest ih =>
      rw [List.map_cons, enrollAll_cons, (h v List.mem_cons_self).enrolled.enroll_eq_self]
      exact ih fun u hu => h u (List.mem_cons_of_mem v hu)

/-- One registry has come from another by enrolments. -/
def Extends (later r : Registry) : Prop := ∃ cs, later = r.enrollAll cs

namespace Extends

variable {later : Registry}

theorem refl (r : Registry) : r.Extends r := ⟨[], rfl⟩

theorem trans {last : Registry} (hlast : last.Extends later) (h : later.Extends r) :
    last.Extends r := by
  obtain ⟨cs, rfl⟩ := h
  obtain ⟨ds, rfl⟩ := hlast
  exact ⟨cs ++ ds, (enrollAll_append r cs ds).symm⟩

/-- A variable given out is the same in every later registry. -/
theorem variableOf_eq {c : Char} (h : later.Extends r) (hc : r.Issued (r.variableOf c)) :
    later.variableOf c = r.variableOf c := by
  obtain ⟨cs, rfl⟩ := h
  exact (hc.enrollAll cs).variableOf_name

/-- A variable given out stays given out. -/
theorem issued (h : later.Extends r) (hv : r.Issued v) : later.Issued v := by
  obtain ⟨cs, rfl⟩ := h
  exact hv.enrollAll cs

end Extends

theorem extends_enroll (r : Registry) (c : Char) : (r.enroll c).Extends r := ⟨[c], rfl⟩

theorem extends_trimmedVariable? (r : Registry) (text : List Char) :
    (r.trimmedVariable? text).2.Extends r := by
  unfold trimmedVariable?
  split
  · exact .refl r
  · split
    · exact .refl r
    · exact r.extends_enroll _

/-- A character is read as a variable given out. -/
theorem issued_of_readChar {c : Char} (h : (r.readChar c).1 = .ok v) :
    (r.readChar c).2.Issued v := by
  unfold readChar at h ⊢
  split at h
  · cases h
  · rename_i hc
    cases h
    simpa only [if_neg hc] using r.issued_enroll_self hc

/-- So is a name in a text, with blanks around it or not. -/
theorem issued_of_trimmedVariable? {text : List Char}
    (h : (r.trimmedVariable? text).1 = some v) : (r.trimmedVariable? text).2.Issued v := by
  unfold trimmedVariable? at h ⊢
  split at h
  · cases h
  · rename_i c rest htrim
    split at h
    · cases h
    · rename_i hc
      split at h
      · cases h
        simpa only [htrim, if_neg hc] using r.issued_enroll_self hc
      · cases h

/-- So are the names in a list of variables. -/
theorem issued_of_mem_variablesOf {text : List Char} (h : v ∈ (r.variablesOf text).1) :
    (r.variablesOf text).2.Issued v := by
  obtain ⟨c, hc, rfl⟩ := List.mem_map.mp h
  have hreadable : ¬ Reserved c := by simpa using (List.mem_filter.mp hc).2
  exact issued_enrollAll hc hreadable

end Registry

end Sentential
