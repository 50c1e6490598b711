/-
The enumeration of a vocabulary is exhaustive.  In `Nat` a position is a number
below the number of assignments and its digits are bits, so the positions in
order give every assignment of just the variables of the vocabulary.
-/
import Mathlib.Data.Nat.Bitwise
import Sentential.Proofs.Valuation

namespace Sentential

/-- The valuation that a position stands for: the first variable has the most
significant digit, the last variable the digit of weight one. -/
def Vocabulary.digits (l : Vocabulary) (position : Nat) (v : Variable) : Bool :=
  position.testBit (l.size - 1 - l.toList.idxOf v)

/-- Every valuation of the variables of a vocabulary has a position. -/
theorem Vocabulary.exists_digits_eq (l : Vocabulary) (ν : Variable → Bool) :
    ∃ i < 2 ^ l.size, ∀ v ∈ l, l.digits i v = ν v := by
  let bits : Fin l.toList.length → Bool := fun place => ν (l.toList.get place.rev)
  refine ⟨Nat.ofBits bits, Nat.ofBits_lt_two_pow bits, ?_⟩
  intro v hv
  have hindex : l.toList.idxOf v < l.toList.length := List.idxOf_lt_length_of_mem hv
  have hplace : l.toList.length - 1 - l.toList.idxOf v < l.toList.length := by omega
  have hrev : (⟨_, hplace⟩ : Fin l.toList.length).rev = ⟨l.toList.idxOf v, hindex⟩ := by
    apply Fin.ext
    simp only [Fin.val_rev]
    omega
  rw [digits, size, Nat.testBit_ofBits_lt bits _ hplace]
  change ν (l.toList.get (Fin.rev _)) = ν v
  rw [hrev, List.get_eq_getElem, List.getElem_idxOf]

namespace Enumeration

/-- A shift by less than the width of a word is exact. -/
theorem toNat_shiftRight_and_one (position : UInt64) {place : UInt64} (h : place.toNat < 64) :
    ((position >>> place) &&& 1).toNat = position.toNat / 2 ^ place.toNat % 2 := by
  rw [UInt64.toNat_and, UInt64.toNat_shiftRight, Nat.mod_eq_of_lt h, UInt64.toNat_one,
    Nat.and_one_is_mod, Nat.shiftRight_eq_div_pow]

theorem digit_eq_testBit (position : UInt64) {place : Nat} (h : place < positionBits) :
    digit position place = position.toNat.testBit place := by
  have hplace : (UInt64.ofNat place).toNat = place := by
    unfold positionBits at h
    rw [UInt64.toNat_ofNat', Nat.mod_eq_of_lt]
    omega
  rw [digit, Nat.testBit_eq_decide_div_mod_eq, Bool.eq_iff_iff, decide_eq_true_iff,
    beq_iff_eq, ← UInt64.toNat_inj, toNat_shiftRight_and_one position (hplace.symm ▸ h),
    hplace, UInt64.toNat_one]

theorem assignmentAt_eq (e : Enumeration) (position : UInt64) :
    e.assignmentAt position = e.vocabulary.assign (e.vocabulary.digits position.toNat) := by
  rw [assignmentAt, Vocabulary.assign]
  congr 1
  apply List.ext_getElem
  · simp
  · intro k hk _
    have hindex : k < e.vocabulary.toList.length := by simpa using hk
    have hplace : e.vocabulary.size - 1 - k < positionBits := by
      have hsize := e.size_lt
      omega
    have hfirst : e.vocabulary.toList.idxOf e.vocabulary.toList[k] = k :=
      e.vocabulary.nodup.idxOf_getElem k hindex
    simp only [List.getElem_map, List.getElem_zipIdx, Nat.zero_add, Vocabulary.digits, hfirst,
      digit_eq_testBit position hplace]

theorem toNat_total_le (e : Enumeration) : e.total.toNat ≤ 2 ^ 63 := by
  rw [e.toNat_total]
  have hsize := e.size_lt
  exact Nat.pow_le_pow_right (by decide) (Nat.le_of_lt_succ hsize)

/-- The positions of a window are consecutive numbers, as none of them wraps. -/
theorem window_eq (e : Enumeration) (count : Nat) (position : UInt64)
    (h : position.toNat + count ≤ e.total.toNat) :
    e.window count position =
      (List.range' position.toNat count).map fun i =>
        e.vocabulary.assign (e.vocabulary.digits i) := by
  induction count generalizing position with
  | zero => rfl
  | succ count ih =>
      have hlt : position < e.total := UInt64.lt_iff_toNat_lt.mpr (by omega)
      have hnext := toNat_add_one_of_lt hlt
      have hrest := ih (position + 1) (by omega)
      rw [hnext] at hrest
      rw [window, assignmentAt_eq, hrest, List.range'_succ, List.map_cons]

theorem toList_eq (e : Enumeration) :
    e.toList = (List.range' e.next.toNat e.remaining.toNat).map fun i =>
      e.vocabulary.assign (e.vocabulary.digits i) := by
  apply e.window_eq
  have hle := UInt64.le_iff_toNat_le.mp e.next_le_total
  have hremaining := e.toNat_remaining
  have htotal := e.toNat_total
  omega

variable {l : Vocabulary} {e : Enumeration}

theorem exists_ofVocabulary (h : l.size < positionBits) :
    ∃ e, ofVocabulary l = .ok e := by
  rw [ofVocabulary, dif_pos h]
  exact ⟨_, rfl⟩

/-- A new enumeration runs through the positions from zero on. -/
theorem toList_ofVocabulary (he : ofVocabulary l = .ok e) :
    e.toList = (List.range (2 ^ l.size)).map fun i => l.assign (l.digits i) := by
  unfold ofVocabulary at he
  split at he
  · rename_i hsize
    cases he
    rw [toList_eq, toNat_remaining, List.range_eq_range']
    rfl
  · cases he

/-- A new enumeration produces the assignments of just the variables. -/
theorem mem_toList_ofVocabulary (he : ofVocabulary l = .ok e) {a : Assignment} :
    a ∈ e.toList ↔ a.domain = l.toSet := by
  rw [toList_ofVocabulary he]
  constructor
  · intro ha
    obtain ⟨i, _, rfl⟩ := List.mem_map.mp ha
    exact Vocabulary.domain_assign
  · intro ha
    obtain ⟨i, hi, hdigits⟩ := l.exists_digits_eq a.read
    apply List.mem_map.mpr
    refine ⟨i, List.mem_range.mpr hi, ?_⟩
    rw [Vocabulary.assign_congr hdigits, Vocabulary.assign_read ha]

end Enumeration

end Sentential
