/-
Enumerations in exact numbers.  The words of an enumeration stay so far below their
bound that no operation on them wraps, and no digit is shifted by the width of a word or
more: an enumeration kept in numbers, in which an operation whose exact result is no word
has no result at all, always has one and answers every call alike.
-/
import Mathlib.Logic.Function.Basic
import Sentential.Proofs.Traversal

namespace Sentential

/-- The exact sum of two numbers, where a word can hold it. -/
def checkedAdd (a b : Nat) : Option Nat :=
  if a + b < 2 ^ positionBits then some (a + b) else none

/-- The exact difference of two numbers, where there is one. -/
def checkedSub (a b : Nat) : Option Nat :=
  if b ≤ a then some (a - b) else none

/-- A number shifted to the left, where no digit is lost. -/
def checkedShiftLeft (a places : Nat) : Option Nat :=
  if places < positionBits ∧ a * 2 ^ places < 2 ^ positionBits then some (a * 2 ^ places)
  else none

/-- A number shifted to the right by less than the width of a word. -/
def checkedShiftRight (a places : Nat) : Option Nat :=
  if places < positionBits then some (a / 2 ^ places) else none

theorem mapM_eq_some_map {α β : Type} {f : α → Option β} {g : α → β} {xs : List α}
    (h : ∀ x ∈ xs, f x = some (g x)) : xs.mapM f = some (xs.map g) := by
  induction xs with
  | nil => rfl
  | cons x rest ih =>
      have hrest := ih fun y hy => h y (List.mem_cons_of_mem x hy)
      rw [List.mapM_cons, h x List.mem_cons_self, hrest]
      rfl

/-- An enumeration in exact numbers. -/
structure CheckedEnumeration where
  vocabulary : Vocabulary
  next : Nat
  total : Nat

namespace CheckedEnumeration

/-- The enumeration of all assignments of a vocabulary. -/
def ofVocabulary (vocabulary : Vocabulary) : Option CheckedEnumeration := do
  let total ← checkedShiftLeft 1 vocabulary.size
  return { vocabulary, next := 0, total }

/-- The value at a position of the variable with an index. -/
def valueAt (e : CheckedEnumeration) (position k : Nat) : Option Bool := do
  let last ← checkedSub e.vocabulary.size 1
  let place ← checkedSub last k
  let shifted ← checkedShiftRight position place
  return shifted % 2 == 1

/-- The assignment at a position. -/
def assignmentAt (e : CheckedEnumeration) (position : Nat) : Option Assignment := do
  let pairs ← e.vocabulary.toList.zipIdx.mapM fun (v, k) =>
    (e.valueAt position k).map fun value => (v, value)
  return .ofPairs pairs

/-- The number of assignments still to come. -/
def remaining (e : CheckedEnumeration) : Option Nat := checkedSub e.total e.next

/-- One call for the next assignment: the answer, and the enumeration after it. -/
def call (e : CheckedEnumeration) : Option (Option Assignment × CheckedEnumeration) :=
  if e.total ≤ e.next then some (none, e)
  else do
    let a ← e.assignmentAt e.next
    let next ← checkedAdd e.next 1
    return (some a, { e with next })

end CheckedEnumeration

variable {ι σ : Type}

/-- A call on one of several enumerations, each in a slot. -/
inductive EnumerationCall (ι : Type) where
  | next (i : ι)
  | remaining (i : ι)
  /-- The first slot gets a copy of the enumeration in the second. -/
  | copy (i j : ι)
  | assignmentAt (i : ι) (position : UInt64)
deriving Repr

/-- The answer to a call on an enumeration. -/
inductive EnumerationAnswer where
  | produced (a? : Option Assignment)
  | count (n : Nat)
  | copied
  | assignment (a : Assignment)

/-- A way to keep enumerations, in which an operation may have no result. -/
structure EnumerationForm (σ : Type) where
  call : σ → Option (Option Assignment × σ)
  remaining : σ → Option Nat
  assignmentAt : σ → UInt64 → Option Assignment

namespace EnumerationForm

/-- Enumerations in words. -/
def words : EnumerationForm Enumeration where
  call e := some e.call
  remaining e := some e.remaining.toNat
  assignmentAt e position := some (e.assignmentAt position)

/-- Enumerations in exact numbers. -/
def numbers : EnumerationForm CheckedEnumeration where
  call := CheckedEnumeration.call
  remaining := CheckedEnumeration.remaining
  assignmentAt e position := e.assignmentAt position.toNat

variable [DecidableEq ι]

/-- The answer to a call, and the enumerations in all slots after it. -/
def act (form : EnumerationForm σ) (slots : ι → σ) :
    EnumerationCall ι → Option (EnumerationAnswer × (ι → σ))
  | .next i => do
      let (a?, later) ← form.call (slots i)
      return (.produced a?, Function.update slots i later)
  | .remaining i => do
      let n ← form.remaining (slots i)
      return (.count n, slots)
  | .copy i j => some (.copied, Function.update slots i (slots j))
  | .assignmentAt i position => do
      let a ← form.assignmentAt (slots i) position
      return (.assignment a, slots)

/-- The answers to calls, and the enumerations in all slots after them. -/
def run (form : EnumerationForm σ) (slots : ι → σ) :
    List (EnumerationCall ι) → Option (List EnumerationAnswer × (ι → σ))
  | [] => some ([], slots)
  | c :: calls => do
      let (answer, later) ← form.act slots c
      let (answers, last) ← form.run later calls
      return (answer :: answers, last)

end EnumerationForm

/-- The bounds on the words of an enumeration of a vocabulary, and the operations on them
that they make exact. -/
structure Enumeration.Fits (e : Enumeration) (l : Vocabulary) : Prop where
  vocabulary_eq : e.vocabulary = l
  size_lt : l.size < 64
  toNat_total : e.total.toNat = 2 ^ l.size
  total_le : e.total.toNat ≤ 2 ^ 63
  next_le : e.next.toNat ≤ e.total.toNat
  /-- What is left does not fall below zero. -/
  toNat_sub : (e.total - e.next).toNat + e.next.toNat = e.total.toNat
  /-- The next position does not wrap. -/
  toNat_add : e.next < e.total → (e.next + 1).toNat = e.next.toNat + 1
  /-- The place of a digit does not fall below zero. -/
  toNat_place : ∀ k < l.size,
    (UInt64.ofNat l.size - 1 - UInt64.ofNat k).toNat + 1 + k = l.size
  /-- No digit is shifted by the width of a word. -/
  place_lt : ∀ k < l.size, (UInt64.ofNat l.size - 1 - UInt64.ofNat k).toNat < 64
  /-- The digit of a position is the one that its exact quotient has. -/
  toNat_digit : ∀ (position : UInt64), ∀ k < l.size,
    ((position >>> (UInt64.ofNat l.size - 1 - UInt64.ofNat k)) &&& 1).toNat =
      position.toNat / 2 ^ (l.size - 1 - k) % 2

namespace Enumeration

variable (e : Enumeration)

/-- The enumeration in exact numbers. -/
def inNumbers : CheckedEnumeration where
  vocabulary := e.vocabulary
  next := e.next.toNat
  total := e.total.toNat

theorem ofVocabulary_inNumbers {l : Vocabulary} {e : Enumeration} (he : ofVocabulary l = .ok e) :
    CheckedEnumeration.ofVocabulary l = some e.inNumbers := by
  obtain ⟨rfl, hnext⟩ := eq_of_ofVocabulary he
  have hfits : 1 * 2 ^ e.vocabulary.size < 2 ^ positionBits := by
    rw [Nat.one_mul]
    exact Nat.pow_lt_pow_right (by decide) e.size_lt
  have htotal : e.total.toNat = 2 ^ e.vocabulary.size := e.toNat_total
  rw [CheckedEnumeration.ofVocabulary, checkedShiftLeft, if_pos ⟨e.size_lt, hfits⟩, inNumbers,
    hnext, htotal, Nat.one_mul]
  rfl

theorem valueAt_inNumbers (position : UInt64) {k : Nat} (hk : k < e.vocabulary.size) :
    e.inNumbers.valueAt position.toNat k =
      some (digit position (e.vocabulary.size - 1 - k)) := by
  have hplace : e.vocabulary.size - 1 - k < positionBits := by
    have hsize := e.size_lt
    omega
  have hlast : checkedSub e.vocabulary.size 1 = some (e.vocabulary.size - 1) :=
    if_pos (by omega)
  have hsub : checkedSub (e.vocabulary.size - 1) k = some (e.vocabulary.size - 1 - k) :=
    if_pos (by omega)
  have hshift : checkedShiftRight position.toNat (e.vocabulary.size - 1 - k) =
      some (position.toNat / 2 ^ (e.vocabulary.size - 1 - k)) := if_pos hplace
  have hvalue : (position.toNat / 2 ^ (e.vocabulary.size - 1 - k) % 2 == 1) =
      digit position (e.vocabulary.size - 1 - k) := by
    rw [digit_eq_testBit position hplace, Nat.testBit_eq_decide_div_mod_eq]
    rfl
  change (checkedSub e.vocabulary.size 1).bind _ = _
  simp [hlast, hsub, hshift, hvalue]

theorem assignmentAt_inNumbers (position : UInt64) :
    e.inNumbers.assignmentAt position.toNat = some (e.assignmentAt position) := by
  have hpairs : (e.vocabulary.toList.zipIdx.mapM fun (v, k) =>
        (e.inNumbers.valueAt position.toNat k).map fun value => (v, value)) =
      some (e.vocabulary.toList.zipIdx.map fun (v, k) =>
        (v, digit position (e.vocabulary.size - 1 - k))) := by
    apply mapM_eq_some_map
    rintro ⟨v, k⟩ hmem
    obtain ⟨hk, _⟩ := List.mem_zipIdx' hmem
    simp only [e.valueAt_inNumbers position hk, Option.map_some]
  change Option.bind (e.vocabulary.toList.zipIdx.mapM _) _ = _
  rw [hpairs]
  rfl

theorem remaining_inNumbers : e.inNumbers.remaining = some e.remaining.toNat := by
  have hle := UInt64.le_iff_toNat_le.mp e.next_le_total
  rw [CheckedEnumeration.remaining, checkedSub, inNumbers, if_pos hle, remaining,
    UInt64.toNat_sub_of_le _ _ e.next_le_total]

theorem call_inNumbers : e.inNumbers.call = some (e.call.1, e.call.2.inNumbers) := by
  have hcall : e.inNumbers.call =
      if e.total.toNat ≤ e.next.toNat then some (none, e.inNumbers)
      else (e.inNumbers.assignmentAt e.next.toNat).bind fun a =>
        (checkedAdd e.next.toNat 1).bind fun next =>
          some (some a, { e.inNumbers with next }) := rfl
  have htotal : e.total.toNat = 2 ^ e.vocabulary.size := e.toNat_total
  obtain ⟨hlt, hanswer, hvocabulary, hnext⟩ | ⟨hend, hanswer, hstay⟩ := e.cases_of_call
  · have hbound := e.toNat_total_le
    have hadd : checkedAdd e.next.toNat 1 = some (e.next.toNat + 1) := if_pos (by
      unfold positionBits
      omega)
    have hlater : e.call.2.inNumbers = { e.inNumbers with next := e.next.toNat + 1 } := by
      have htotal' : e.call.2.total.toNat = e.total.toNat := by
        rw [e.call.2.toNat_total, hvocabulary, e.toNat_total]
      simp only [inNumbers, hvocabulary, hnext, htotal']
    rw [hcall, if_neg (by omega), assignmentAt_inNumbers, hadd, hanswer, hlater]
    rfl
  · rw [hcall, if_pos (by omega), hanswer, hstay]

/-- The place of the digit of the variable with an index does not fall below zero. -/
theorem toNat_place {k : Nat} (hk : k < e.vocabulary.size) :
    (UInt64.ofNat e.vocabulary.size - 1 - UInt64.ofNat k).toNat =
      e.vocabulary.size - 1 - k := by
  have hsize : e.vocabulary.size < 64 := e.size_lt
  have hplace : UInt64.ofNat (e.vocabulary.size - 1 - k) =
      UInt64.ofNat e.vocabulary.size - 1 - UInt64.ofNat k := by
    rw [UInt64.ofNat_sub (by omega), UInt64.ofNat_sub (by omega)]
    rfl
  rw [← hplace, UInt64.toNat_ofNat', Nat.mod_eq_of_lt]
  omega

theorem place_lt {k : Nat} (hk : k < e.vocabulary.size) :
    (UInt64.ofNat e.vocabulary.size - 1 - UInt64.ofNat k).toNat < 64 := by
  have hsize : e.vocabulary.size < 64 := e.size_lt
  rw [e.toNat_place hk]
  omega

theorem fits : e.Fits e.vocabulary where
  vocabulary_eq := rfl
  size_lt := e.size_lt
  toNat_total := e.toNat_total
  total_le := e.toNat_total_le
  next_le := UInt64.le_iff_toNat_le.mp e.next_le_total
  toNat_sub := by
    have hle := UInt64.le_iff_toNat_le.mp e.next_le_total
    rw [UInt64.toNat_sub_of_le _ _ e.next_le_total, Nat.sub_add_cancel hle]
  toNat_add := toNat_add_one_of_lt
  toNat_place k hk := by
    rw [e.toNat_place hk]
    omega
  place_lt _ := e.place_lt
  toNat_digit position k hk := by
    rw [toNat_shiftRight_and_one position (e.place_lt hk), e.toNat_place hk]

theorem vocabulary_call : e.call.2.vocabulary = e.vocabulary := e.vocabulary_after 1

end Enumeration

namespace EnumerationForm

variable [DecidableEq ι] {slots : ι → Enumeration} {l : Vocabulary}

/-- A call gives the same answer in both forms, and enumerations of the same vocabulary. -/
theorem act_words (hslots : ∀ i, (slots i).vocabulary = l) (c : EnumerationCall ι) :
    ∃ answer later, words.act slots c = some (answer, later) ∧
      numbers.act (Enumeration.inNumbers ∘ slots) c =
        some (answer, Enumeration.inNumbers ∘ later) ∧
      ∀ i, (later i).vocabulary = l := by
  have hupdate : ∀ i e, e.vocabulary = l → ∀ j, (Function.update slots i e j).vocabulary = l := by
    intro i e he j
    by_cases hj : j = i
    · rw [hj, Function.update_self, he]
    · rw [Function.update_of_ne hj, hslots]
  cases c with
  | next i =>
      refine ⟨.produced (slots i).call.1, Function.update slots i (slots i).call.2, rfl, ?_, ?_⟩
      · change (slots i).inNumbers.call.bind _ = _
        rw [Enumeration.call_inNumbers, Function.comp_update]
        rfl
      · exact hupdate i _ ((slots i).vocabulary_call.trans (hslots i))
  | remaining i =>
      refine ⟨.count (slots i).remaining.toNat, slots, rfl, ?_, hslots⟩
      change (slots i).inNumbers.remaining.bind _ = _
      rw [Enumeration.remaining_inNumbers]
      rfl
  | copy i j =>
      refine ⟨.copied, Function.update slots i (slots j), rfl, ?_, ?_⟩
      · rw [Function.comp_update]
        rfl
      · exact hupdate i _ (hslots j)
  | assignmentAt i position =>
      refine ⟨.assignment ((slots i).assignmentAt position), slots, rfl, ?_, hslots⟩
      change ((slots i).inNumbers.assignmentAt position.toNat).bind _ = _
      rw [Enumeration.assignmentAt_inNumbers]
      rfl

theorem run_words (hslots : ∀ i, (slots i).vocabulary = l) (calls : List (EnumerationCall ι)) :
    ∃ answers last, words.run slots calls = some (answers, last) ∧
      numbers.run (Enumeration.inNumbers ∘ slots) calls =
        some (answers, Enumeration.inNumbers ∘ last) ∧
      ∀ i, (last i).vocabulary = l := by
  induction calls generalizing slots with
  | nil => exact ⟨[], slots, rfl, rfl, hslots⟩
  | cons c calls ih =>
      obtain ⟨answer, later, hwords, hnumbers, hlater⟩ := act_words hslots c
      obtain ⟨answers, last, hwords', hnumbers', hlast⟩ := ih hlater
      refine ⟨answer :: answers, last, ?_, ?_, hlast⟩
      · simp [run, hwords, hwords']
      · simp [run, hnumbers, hnumbers']

end EnumerationForm

/-- After any calls on an enumeration and copies of it, no word is past its bounds; and in
exact numbers no operation is without a result, and the answers are the same. -/
theorem calls_exact [DecidableEq ι] {l : Vocabulary} {e : Enumeration}
    (he : Enumeration.ofVocabulary l = .ok e) (calls : List (EnumerationCall ι)) :
    CheckedEnumeration.ofVocabulary l = some e.inNumbers ∧
      ∃ answers last, EnumerationForm.words.run (fun _ => e) calls = some (answers, last) ∧
        EnumerationForm.numbers.run (fun _ => e.inNumbers) calls =
          some (answers, fun i => (last i).inNumbers) ∧
        ∀ i, (last i).Fits l := by
  obtain ⟨hvocabulary, _⟩ := Enumeration.eq_of_ofVocabulary he
  obtain ⟨answers, last, hwords, hnumbers, hlast⟩ :=
    EnumerationForm.run_words (fun _ => hvocabulary) calls
  refine ⟨Enumeration.ofVocabulary_inNumbers he, answers, last, hwords, hnumbers, ?_⟩
  intro i
  rw [← hlast i]
  exact (last i).fits

/-- The largest number of variables, with digits asked for at the largest word. -/
theorem calls_exact_on_sixty_three_variables :
    let l : Vocabulary := .ofList ((List.range 63).map fun i => ⟨Char.ofNat (256 + i), 128 + i⟩)
    let calls : List (EnumerationCall Bool) :=
      [.next false, .copy true false, .assignmentAt true (UInt64.ofNat (2 ^ 64 - 1)),
        .next true, .remaining false, .remaining true]
    l.size = 63 ∧ ∃ e, Enumeration.ofVocabulary l = .ok e ∧
      ∃ answers last, EnumerationForm.words.run (fun _ => e) calls = some (answers, last) ∧
        EnumerationForm.numbers.run (fun _ => e.inNumbers) calls =
          some (answers, fun i => (last i).inNumbers) ∧
        ∀ i, (last i).Fits l := by
  intro l calls
  have hsize : l.size = 63 := by decide +kernel
  obtain ⟨e, he⟩ := Enumeration.exists_ofVocabulary (l := l) (by rw [hsize]; decide)
  obtain ⟨_, hcalls⟩ := calls_exact he calls
  exact ⟨hsize, e, he, hcalls⟩

end Sentential
