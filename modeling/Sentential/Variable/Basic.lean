/-
Variables.  A variable is named by one character and carries the number under
which it is listed.  The order `<` is the listing order, by number; names only
break ties, so it is a strict total order on all variables.
-/

namespace Sentential

/-- The characters with a meaning of their own in a sentence.  None of them
names a variable. -/
def reservedCharacters : List Char := [' ', '~', '&', '|', '(', ')']

/-- A character that cannot name a variable. -/
abbrev Reserved (c : Char) : Prop := c ∈ reservedCharacters

/-- A Boolean variable: the character that names it and its listing number. -/
structure Variable where
  name : Char
  number : Nat
deriving DecidableEq, Repr

namespace Variable

/-- The listing order: by number, and by name between equal numbers. -/
instance : LT Variable where
  lt v w := v.number < w.number ∨ (v.number = w.number ∧ v.name < w.name)

instance (v w : Variable) : Decidable (v < w) :=
  inferInstanceAs (Decidable (_ ∨ _))

instance : ToString Variable where
  toString v := v.name.toString

/-- Comparison by name, and by number between equal names. -/
def compareByName (v w : Variable) : Ordering :=
  (compare v.name w.name).then (compare v.number w.number)

theorem lt_iff {v w : Variable} :
    v < w ↔ v.number < w.number ∨ (v.number = w.number ∧ v.name < w.name) :=
  Iff.rfl

theorem lt_irrefl (v : Variable) : ¬ v < v := by
  rintro (h | ⟨_, h⟩)
  · exact Nat.lt_irrefl _ h
  · exact Char.lt_irrefl _ h

theorem lt_trans {u v w : Variable} (huv : u < v) (hvw : v < w) : u < w := by
  rw [lt_iff] at *
  rcases huv with huv | ⟨huv, hname⟩ <;> rcases hvw with hvw | ⟨hvw, hname'⟩
  · exact Or.inl (Nat.lt_trans huv hvw)
  · exact Or.inl (hvw ▸ huv)
  · exact Or.inl (huv ▸ hvw)
  · exact Or.inr ⟨huv.trans hvw, Char.lt_trans hname hname'⟩

/-- Two different variables are listed one before the other. -/
theorem lt_or_eq_or_gt (v w : Variable) : v < w ∨ v = w ∨ w < v := by
  obtain ⟨name, number⟩ := v
  obtain ⟨name', number'⟩ := w
  simp only [lt_iff, Variable.mk.injEq]
  rcases Nat.lt_trichotomy number number' with h | h | h
  · exact Or.inl (Or.inl h)
  · by_cases hlt : name < name'
    · exact Or.inl (Or.inr ⟨h, hlt⟩)
    · by_cases hgt : name' < name
      · exact Or.inr (Or.inr (Or.inr ⟨h.symm, hgt⟩))
      · exact Or.inr (Or.inl ⟨Char.le_antisymm (Char.not_lt.mp hgt) (Char.not_lt.mp hlt), h⟩)
  · exact Or.inr (Or.inr (Or.inl h))

end Variable

end Sentential
