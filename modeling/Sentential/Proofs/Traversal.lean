/-
Calls on an enumeration.  After any number of calls the next position is that number,
up to the number of assignments; so the calls produce the assignments of just the
variables, each at the one position that has its values as digits, and a copy goes on
from where it was taken.
-/
import Sentential.Proofs.Exhaustion

namespace Sentential

namespace Vocabulary

variable {l : Vocabulary} {i j : Nat}

theorem digits_getElem (l : Vocabulary) (i : Nat) {k : Nat} (hk : k < l.toList.length) :
    l.digits i l.toList[k] = i.testBit (l.size - 1 - k) := by
  rw [digits, l.nodup.idxOf_getElem k hk]

/-- Digits beyond the number of variables do not count. -/
theorem digits_mod (l : Vocabulary) (i : Nat) {v : Variable} (hv : v ∈ l) :
    l.digits (i % 2 ^ l.size) v = l.digits i v := by
  have hindex : l.toList.idxOf v < l.size := List.idxOf_lt_length_of_mem hv
  have hplace : l.size - 1 - l.toList.idxOf v < l.size := by omega
  rw [digits, digits, Nat.testBit_mod_two_pow]
  simp [hplace]

/-- A position is known from its digits. -/
theorem eq_of_digits_eq (hi : i < 2 ^ l.size) (hj : j < 2 ^ l.size)
    (h : ∀ v ∈ l, l.digits i v = l.digits j v) : i = j := by
  apply Nat.eq_of_testBit_eq
  intro place
  by_cases hplace : place < l.size
  · have hk : l.size - 1 - place < l.toList.length := by
      change l.size - 1 - place < l.size
      omega
    have hdigit := h _ (List.getElem_mem hk)
    rw [digits_getElem, digits_getElem] at hdigit
    rwa [show l.size - 1 - (l.size - 1 - place) = place by omega] at hdigit
  · have hle : 2 ^ l.size ≤ 2 ^ place := Nat.pow_le_pow_right (by decide) (Nat.le_of_not_lt hplace)
    rw [Nat.testBit_lt_two_pow (Nat.lt_of_lt_of_le hi hle),
      Nat.testBit_lt_two_pow (Nat.lt_of_lt_of_le hj hle)]

theorem assign_digits_mod (l : Vocabulary) (i : Nat) :
    l.assign (l.digits (i % 2 ^ l.size)) = l.assign (l.digits i) :=
  assign_congr fun _ hv => l.digits_mod i hv

/-- Different positions have different assignments. -/
theorem eq_of_assign_digits_eq (hi : i < 2 ^ l.size) (hj : j < 2 ^ l.size)
    (h : l.assign (l.digits i) = l.assign (l.digits j)) : i = j := by
  apply eq_of_digits_eq hi hj
  intro v hv
  calc l.digits i v = (l.assign (l.digits i)).read v := (read_assign hv).symm
    _ = (l.assign (l.digits j)).read v := by rw [h]
    _ = l.digits j v := read_assign hv

end Vocabulary

namespace Enumeration

/-- One call for the next assignment: the answer, and the enumeration after it.  One
that is exhausted stays as it is. -/
def call (e : Enumeration) : Option Assignment × Enumeration :=
  match e.next? with
  | some (a, later) => (some a, later)
  | none => (none, e)

/-- The enumeration after a number of calls. -/
def after (e : Enumeration) : Nat → Enumeration
  | 0 => e
  | count + 1 => e.call.2.after count

/-- The answers to a number of calls. -/
def answers (e : Enumeration) (count : Nat) : List (Option Assignment) :=
  (List.range count).map fun i => (e.after i).call.1

/-- Calls on an enumeration and on a copy of it in any order, `true` for a call on the
copy: the answers of the one and of the other. -/
def callBoth (original copy : Enumeration) :
    List Bool → List (Option Assignment) × List (Option Assignment)
  | [] => ([], [])
  | false :: calls =>
      let (originals, copies) := callBoth original.call.2 copy calls
      (original.call.1 :: originals, copies)
  | true :: calls =>
      let (originals, copies) := callBoth original copy.call.2 calls
      (originals, copy.call.1 :: copies)

variable (e : Enumeration)

theorem answers_succ (count : Nat) :
    e.answers (count + 1) = e.call.1 :: e.call.2.answers count := by
  rw [answers, answers, List.range_succ_eq_map, List.map_cons, List.map_map]
  rfl

/-- A call on one of the two does not bear on the answers of the other. -/
theorem callBoth_eq (original copy : Enumeration) (calls : List Bool) :
    callBoth original copy calls =
      (original.answers (calls.count false), copy.answers (calls.count true)) := by
  induction calls generalizing original copy with
  | nil => rfl
  | cons onCopy calls ih =>
      cases onCopy with
      | false => simp [callBoth, ih, answers_succ]
      | true => simp [callBoth, ih, answers_succ]

theorem after_add (m count : Nat) : (e.after m).after count = e.after (m + count) := by
  induction m generalizing e with
  | zero => rw [Nat.zero_add, after]
  | succ m ih => rw [Nat.succ_add, after, after, ih]

/-- What one call does: it answers with the assignment at the next position and goes
on to the one after, unless no position is left. -/
theorem cases_of_call :
    (e.next.toNat < 2 ^ e.vocabulary.size ∧ e.call.1 = some (e.assignmentAt e.next) ∧
        e.call.2.vocabulary = e.vocabulary ∧ e.call.2.next.toNat = e.next.toNat + 1) ∨
      (e.next.toNat = 2 ^ e.vocabulary.size ∧ e.call.1 = none ∧ e.call.2 = e) := by
  have htotal : e.total.toNat = 2 ^ e.vocabulary.size := e.toNat_total
  have hlt := UInt64.lt_iff_toNat_lt (a := e.next) (b := e.total)
  have hle := UInt64.le_iff_toNat_le.mp e.next_le_total
  by_cases h : e.next < e.total
  · refine Or.inl ⟨htotal ▸ hlt.mp h, ?_, ?_, ?_⟩
    · simp [call, next?, h]
    · simp [call, next?, h]
    · simpa [call, next?, h] using toNat_add_one_of_lt h
  · refine Or.inr ⟨?_, ?_, ?_⟩
    · rw [hlt] at h
      omega
    · simp [call, next?, h]
    · simp [call, next?, h]

theorem vocabulary_after (m : Nat) : (e.after m).vocabulary = e.vocabulary := by
  induction m generalizing e with
  | zero => rfl
  | succ m ih =>
      rw [after, ih]
      obtain ⟨_, _, hvocabulary, _⟩ | ⟨_, _, hstay⟩ := e.cases_of_call
      · exact hvocabulary
      · rw [hstay]

/-- The calls go through the positions one by one and stop after the last. -/
theorem toNat_next_after (m : Nat) :
    (e.after m).next.toNat = min (e.next.toNat + m) (2 ^ e.vocabulary.size) := by
  induction m generalizing e with
  | zero =>
      have hle := UInt64.le_iff_toNat_le.mp e.next_le_total
      have htotal : e.total.toNat = 2 ^ e.vocabulary.size := e.toNat_total
      rw [after]
      omega
  | succ m ih =>
      rw [after, ih]
      obtain ⟨_, _, hvocabulary, hnext⟩ | ⟨hend, _, hstay⟩ := e.cases_of_call
      · rw [hvocabulary, hnext]
        omega
      · rw [hstay]
        omega

/-- The answer to a call after others. -/
theorem call_after (m : Nat) :
    (e.after m).call.1 =
      if e.next.toNat + m < 2 ^ e.vocabulary.size then
        some (e.vocabulary.assign (e.vocabulary.digits (e.next.toNat + m)))
      else none := by
  have hnext := e.toNat_next_after m
  have hvocabulary := e.vocabulary_after m
  obtain ⟨hlt, hanswer, _, _⟩ | ⟨hend, hanswer, _⟩ := (e.after m).cases_of_call
  · rw [hvocabulary] at hlt
    have hposition : (e.after m).next.toNat = e.next.toNat + m := by omega
    rw [hanswer, assignmentAt_eq, hvocabulary, hposition, if_pos (hposition ▸ hlt)]
  · rw [hvocabulary] at hend
    have hpast : ¬ e.next.toNat + m < 2 ^ e.vocabulary.size := by omega
    rw [hanswer, if_neg hpast]

theorem toNat_remaining_after (m : Nat) :
    (e.after m).remaining.toNat =
      2 ^ e.vocabulary.size - min (e.next.toNat + m) (2 ^ e.vocabulary.size) := by
  rw [toNat_remaining, toNat_next_after, vocabulary_after]
  rfl

theorem answers_after (m count : Nat) :
    (e.after m).answers count = (List.range count).map fun i => (e.after (m + i)).call.1 := by
  simp only [answers, after_add]

/-- What the calls on a new enumeration of a vocabulary give. -/
structure Enumerates (e : Enumeration) (l : Vocabulary) : Prop where
  /-- Each call answers with the assignment at the number of calls before it, as long as
  there are positions. -/
  call_after : ∀ m, (e.after m).call.1 =
    if m < 2 ^ l.size then some (e.assignmentAt (UInt64.ofNat m)) else none
  /-- The number of assignments still to come counts down to zero. -/
  remaining_after : ∀ m, (e.after m).remaining.toNat = 2 ^ l.size - min m (2 ^ l.size)
  /-- Each assignment is one of just the variables. -/
  isSome_get? : ∀ i v, ((e.assignmentAt i).get? v).isSome = true ↔ v ∈ l
  /-- The first variable has the most significant digit of the position. -/
  get?_getElem : ∀ (i : UInt64) (k : Nat) (hk : k < l.toList.length),
    (e.assignmentAt i).get? l.toList[k] = some (i.toNat.testBit (l.size - 1 - k))
  /-- Each assignment of just the variables is the answer to one call and no other. -/
  existsUnique_call : ∀ a : Assignment, (∀ v, (a.get? v).isSome = true ↔ v ∈ l) →
    ∃! m, (e.after m).call.1 = some a
  /-- Positions are taken modulo the number of assignments. -/
  assignmentAt_mod : ∀ i : UInt64,
    e.assignmentAt i = e.assignmentAt (UInt64.ofNat (i.toNat % 2 ^ l.size))
  /-- A copy taken after some calls goes on as the original does from there, in whatever
  order the two are called. -/
  callBoth_after : ∀ m calls, callBoth (e.after m) (e.after m) calls =
    ((List.range (calls.count false)).map fun i => (e.after (m + i)).call.1,
      (List.range (calls.count true)).map fun i => (e.after (m + i)).call.1)

variable {e : Enumeration} {l : Vocabulary}

theorem eq_of_ofVocabulary (he : ofVocabulary l = .ok e) :
    e.vocabulary = l ∧ e.next.toNat = 0 := by
  unfold ofVocabulary at he
  split at he
  · cases he
    exact ⟨rfl, rfl⟩
  · cases he

theorem toNat_ofNat_of_lt (e : Enumeration) {m : Nat} (hm : m < 2 ^ e.vocabulary.size) :
    (UInt64.ofNat m).toNat = m := by
  have hbound := e.toNat_total_le
  have htotal : e.total.toNat = 2 ^ e.vocabulary.size := e.toNat_total
  rw [UInt64.toNat_ofNat', Nat.mod_eq_of_lt]
  omega

theorem call_after_ofVocabulary (he : ofVocabulary l = .ok e) (m : Nat) :
    (e.after m).call.1 =
      if m < 2 ^ l.size then some (l.assign (l.digits m)) else none := by
  obtain ⟨rfl, hnext⟩ := eq_of_ofVocabulary he
  rw [call_after, hnext, Nat.zero_add]

/-- The digits of a position tell at which call its assignment is produced. -/
theorem existsUnique_call_after (he : ofVocabulary l = .ok e) {a : Assignment}
    (ha : a.domain = l.toSet) : ∃! m, (e.after m).call.1 = some a := by
  obtain ⟨i, hi, hdigits⟩ := l.exists_digits_eq a.read
  have hassign : l.assign (l.digits i) = a := by
    rw [Vocabulary.assign_congr hdigits, Vocabulary.assign_read ha]
  refine ⟨i, ?_, ?_⟩
  · change (e.after i).call.1 = some a
    rw [call_after_ofVocabulary he, if_pos hi, hassign]
  · intro j hj
    rw [call_after_ofVocabulary he] at hj
    split at hj
    · rename_i hlt
      have hsame := (Option.some.inj hj).trans hassign.symm
      exact Vocabulary.eq_of_assign_digits_eq hlt hi hsame
    · cases hj

theorem enumerates_ofVocabulary (he : ofVocabulary l = .ok e) : e.Enumerates l := by
  have hcall := call_after_ofVocabulary he
  have hunique := fun a => existsUnique_call_after (a := a) he
  obtain ⟨rfl, hnext⟩ := eq_of_ofVocabulary he
  refine ⟨?_, ?_, ?_, ?_, ?_, ?_, ?_⟩
  · intro m
    rw [hcall]
    split
    · rename_i hm
      rw [assignmentAt_eq, e.toNat_ofNat_of_lt hm]
    · rfl
  · intro m
    rw [toNat_remaining_after, hnext, Nat.zero_add]
  · intro i v
    rw [assignmentAt_eq, ← Assignment.mem_domain, Vocabulary.domain_assign, Vocabulary.mem_toSet]
  · intro i k hk
    have hmem : e.vocabulary.toList[k] ∈ e.vocabulary := List.getElem_mem hk
    rw [assignmentAt_eq, Vocabulary.get?_assign, if_pos hmem, Vocabulary.digits_getElem]
  · intro a ha
    apply hunique
    ext v
    rw [Assignment.mem_domain, ha, Vocabulary.mem_toSet]
  · intro i
    have hmod : i.toNat % 2 ^ e.vocabulary.size < 2 ^ e.vocabulary.size :=
      Nat.mod_lt _ (Nat.pow_pos (by decide))
    rw [assignmentAt_eq, assignmentAt_eq, e.toNat_ofNat_of_lt hmod,
      Vocabulary.assign_digits_mod]
  · intro m calls
    rw [callBoth_eq, answers_after, answers_after]

end Enumeration

open Enumeration in
/-- A vocabulary of 64 variables or more is refused, and no other; the calls on its
enumeration then give each assignment of just its variables once, in order. -/
theorem ofVocabulary_refuses_or_enumerates (l : Vocabulary) :
    (∀ err, ofVocabulary l = .error err ↔ 64 ≤ l.size ∧ err = .tooManyVariables l.size) ∧
      (l.size < 64 → ∃ e, ofVocabulary l = .ok e ∧ e.Enumerates l) := by
  constructor
  · intro err
    unfold ofVocabulary
    split
    · rename_i h
      constructor
      · intro herr
        cases herr
      · rintro ⟨hsize, _⟩
        exact absurd h (Nat.not_lt.mpr hsize)
    · rename_i h
      constructor
      · intro herr
        cases herr
        exact ⟨Nat.not_lt.mp h, rfl⟩
      · rintro ⟨_, rfl⟩
        rfl
  · intro hsize
    obtain ⟨e, he⟩ := exists_ofVocabulary hsize
    exact ⟨e, he, enumerates_ofVocabulary he⟩

/-- The largest number of variables: the last position has an assignment, and the calls
after it have none. -/
theorem calls_on_sixty_three_variables :
    let l : Vocabulary := .ofList ((List.range 63).map fun i => ⟨Char.ofNat (256 + i), 128 + i⟩)
    l.size = 63 ∧ ∃ e, Enumeration.ofVocabulary l = .ok e ∧
      (e.after (2 ^ 63 - 1)).call.1 = some (e.assignmentAt (UInt64.ofNat (2 ^ 63 - 1))) ∧
      (e.after (2 ^ 63)).call.1 = none ∧ (e.after (2 ^ 63)).remaining.toNat = 0 := by
  intro l
  have hsize : l.size = 63 := by decide +kernel
  obtain ⟨_, haccepted⟩ := ofVocabulary_refuses_or_enumerates l
  obtain ⟨e, he, henumerates⟩ := haccepted (by omega)
  refine ⟨hsize, e, he, ?_, ?_, ?_⟩
  · rw [henumerates.call_after, hsize, if_pos (by decide)]
  · rw [henumerates.call_after, hsize, if_neg (by decide)]
  · rw [henumerates.remaining_after, hsize]
    decide

end Sentential
