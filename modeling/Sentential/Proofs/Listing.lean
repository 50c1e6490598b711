/-
Texts that list values.  A value is written as the name of its variable, after a sign if it
is false, with separators around it.  Splitting such a text gives back the items one by one,
and reading these sets the values in their order, since a name that is neither a separator
nor blank, nor taken for a sign, is read as what it names.  In the other direction, no text
whatever gives a value to a variable named by a separator or a blank.
-/
import Mathlib.Data.List.Induction
import Sentential.Proofs.PartialMap

namespace Sentential

/-- Only spaces, commas and semicolons. -/
def Gap (text : List Char) : Prop := ∀ c ∈ text, c = ' ' ∨ c = ',' ∨ c = ';'

instance (text : List Char) : Decidable (Gap text) :=
  List.decidableBAll (fun c => c = ' ' ∨ c = ',' ∨ c = ';') text

/-- The items that a variable with its value can be written as: its bare name if it is
true, its name after one of the signs if it is false. -/
inductive Writes : Variable × Bool → List Char → Prop where
  | bare (v : Variable) : Writes (v, true) [v.name]
  | signed (v : Variable) {sign : Char} :
      sign = '~' ∨ sign = '!' → Writes (v, false) [sign, v.name]

/-- A text holds the items of pairs in order, with at least one separator between two items
and any number of them before the first and after the last. -/
inductive Lists : List Char → List (Variable × Bool) → Prop where
  | none {gap : List Char} : Gap gap → Lists gap []
  | last {before item after : List Char} {pair : Variable × Bool} :
      Gap before → Writes pair item → Gap after → Lists (before ++ item ++ after) [pair]
  | next {before item between rest : List Char} {pair : Variable × Bool}
      {pairs : List (Variable × Bool)} :
      Gap before → Writes pair item → Gap between → between ≠ [] → Lists rest pairs →
        Lists (before ++ item ++ between ++ rest) (pair :: pairs)

/-- A pair that can be told from its item: the name is no blank and no separator, and it is
not taken for a sign. -/
structure Legible (pair : Variable × Bool) : Prop where
  not_blank : isBlank pair.1.name = false
  not_comma : pair.1.name ≠ ','
  not_semicolon : pair.1.name ≠ ';'
  not_sign : pair.2 = true → pair.1.name ≠ '!'

theorem mem_itemSeparators_iff {c : Char} : c ∈ itemSeparators ↔ c = ' ' ∨ c = ',' ∨ c = ';' := by
  simp [itemSeparators]

theorem Gap.mem_itemSeparators {gap : List Char} (h : Gap gap) : ∀ c ∈ gap, c ∈ itemSeparators :=
  fun c hc => mem_itemSeparators_iff.mpr (h c hc)

theorem Legible.not_mem_itemSeparators {pair : Variable × Bool} (h : Legible pair) :
    pair.1.name ∉ itemSeparators := by
  rw [mem_itemSeparators_iff]
  rintro (hspace | hcomma | hsemicolon)
  · have hblank := h.not_blank
    rw [hspace] at hblank
    exact absurd hblank (by decide)
  · exact h.not_comma hcomma
  · exact h.not_semicolon hsemicolon

section Splitting

variable {c : Char} {item items gap text rest : List Char}

theorem splitItems_cons_separator (hc : c ∈ itemSeparators) (text : List Char) :
    splitItems (c :: text) = ([], itemsOf text) := by
  simp [splitItems, itemsOf, hc]

theorem itemsOf_cons_separator (hc : c ∈ itemSeparators) (text : List Char) :
    itemsOf (c :: text) = itemsOf text := by
  simp [itemsOf, splitItems_cons_separator hc, consItem]

/-- Separators before a text make no item. -/
theorem itemsOf_gap_append (hgap : Gap gap) (text : List Char) :
    itemsOf (gap ++ text) = itemsOf text := by
  induction gap with
  | nil => rfl
  | cons c gap ih =>
      obtain ⟨hc, hrest⟩ := List.forall_mem_cons.mp hgap
      rw [List.cons_append, itemsOf_cons_separator (mem_itemSeparators_iff.mpr hc)]
      exact ih hrest

theorem itemsOf_gap (hgap : Gap gap) : itemsOf gap = [] := by
  have h := itemsOf_gap_append hgap []
  rwa [List.append_nil] at h

theorem splitItems_append (hitem : ∀ c ∈ item, c ∉ itemSeparators) (text : List Char) :
    splitItems (item ++ text) = (item ++ (splitItems text).1, (splitItems text).2) := by
  induction item with
  | nil => rfl
  | cons c item ih =>
      obtain ⟨hc, hrest⟩ := List.forall_mem_cons.mp hitem
      simp [splitItems, ih hrest, hc]

/-- An item goes up to the next separator. -/
theorem itemsOf_append (hne : item ≠ []) (hitem : ∀ c ∈ item, c ∉ itemSeparators)
    (hrest : ∀ c ∈ rest.head?, c ∈ itemSeparators) :
    itemsOf (item ++ rest) = item :: itemsOf rest := by
  have hsplit : splitItems rest = ([], itemsOf rest) := by
    cases rest with
    | nil => rfl
    | cons c more =>
        have hc := hrest c rfl
        rw [splitItems_cons_separator hc, itemsOf_cons_separator hc]
  have hwhole : splitItems (item ++ rest) = (item, itemsOf rest) := by
    rw [splitItems_append hitem, hsplit, List.append_nil]
  rw [itemsOf, hwhole]
  simp [consItem, hne]

/-- No item has a separator in it. -/
theorem not_mem_itemSeparators_of_mem_splitItems (text : List Char) :
    (∀ c ∈ (splitItems text).1, c ∉ itemSeparators) ∧
      ∀ item ∈ (splitItems text).2, ∀ c ∈ item, c ∉ itemSeparators := by
  induction text with
  | nil => simp [splitItems]
  | cons c text ih =>
      obtain ⟨hfirst, hothers⟩ := ih
      by_cases hc : c ∈ itemSeparators
      · by_cases hempty : (splitItems text).1.isEmpty = true
        · simpa [splitItems, hc, consItem, hempty] using hothers
        · simpa [splitItems, hc, consItem, hempty] using ⟨hfirst, hothers⟩
      · simpa [splitItems, hc] using ⟨hfirst, hothers⟩

theorem not_mem_itemSeparators_of_mem_itemsOf (hitem : item ∈ itemsOf text) :
    ∀ c ∈ item, c ∉ itemSeparators := by
  obtain ⟨hfirst, hothers⟩ := not_mem_itemSeparators_of_mem_splitItems text
  simp only [itemsOf, consItem] at hitem
  split at hitem
  · exact hothers item hitem
  · rcases List.mem_cons.mp hitem with rfl | hitem
    · exact hfirst
    · exact hothers item hitem

end Splitting

section Items

variable {pair : Variable × Bool} {pairs : List (Variable × Bool)} {item text : List Char}

namespace Writes

theorem ne_nil (h : Writes pair item) : item ≠ [] := by
  cases h <;> simp

theorem not_mem_itemSeparators (h : Writes pair item) (hpair : Legible pair) :
    ∀ c ∈ item, c ∉ itemSeparators := by
  cases h with
  | bare v => simpa using hpair.not_mem_itemSeparators
  | @signed v sign hsign =>
      have hapart : sign ∉ itemSeparators := by
        rcases hsign with rfl | rfl <;> decide
      simpa using ⟨hapart, hpair.not_mem_itemSeparators⟩

/-- The name and the value of an item are those it was written for. -/
theorem signedName_eq (h : Writes pair item) (hpair : Legible pair)
    (hname : ¬ Reserved pair.1.name) : signedName item = ([pair.1.name], pair.2) := by
  cases h with
  | bare v =>
      have htilde : v.name ≠ '~' := by
        intro heq
        exact hname (by simp [heq, Reserved, reservedCharacters])
      have hbang : v.name ≠ '!' := hpair.not_sign rfl
      simp [signedName, falseSigns, htilde, hbang]
  | signed v hsign => rcases hsign with rfl | rfl <;> rfl

end Writes

/-- The items of a text are those of the pairs it lists, one for each. -/
theorem Lists.forall₂_itemsOf (h : Lists text pairs) (hpairs : ∀ pair ∈ pairs, Legible pair) :
    List.Forall₂ Writes pairs (itemsOf text) := by
  induction h with
  | none hgap =>
      rw [itemsOf_gap hgap]
      exact .nil
  | @last before item after pair hbefore hitem hafter =>
      have hpair := hpairs pair List.mem_cons_self
      have hends : ∀ c ∈ after.head?, c ∈ itemSeparators :=
        fun c hc => hafter.mem_itemSeparators c (List.mem_of_mem_head? hc)
      rw [List.append_assoc, itemsOf_gap_append hbefore,
        itemsOf_append hitem.ne_nil (hitem.not_mem_itemSeparators hpair) hends,
        itemsOf_gap hafter]
      exact .cons hitem .nil
  | @next before item between rest pair pairs hbefore hitem hbetween hne hrest ih =>
      obtain ⟨hpair, hothers⟩ := List.forall_mem_cons.mp hpairs
      have hends : ∀ c ∈ (between ++ rest).head?, c ∈ itemSeparators := by
        intro c hc
        rw [List.head?_append_of_ne_nil between hne] at hc
        exact hbetween.mem_itemSeparators c (List.mem_of_mem_head? hc)
      rw [List.append_assoc, List.append_assoc, itemsOf_gap_append hbefore,
        itemsOf_append hitem.ne_nil (hitem.not_mem_itemSeparators hpair) hends,
        itemsOf_gap_append hbetween]
      exact .cons hitem (ih hothers)

end Items

section Trimming

variable {c : Char} {text : List Char}

/-- What is left alone after trimming stood in the text and is not blank. -/
theorem mem_and_not_blank_of_trim_eq (h : trim text = [c]) : c ∈ text ∧ isBlank c = false := by
  have hlast : (text.dropWhile isBlank).reverse.dropWhile isBlank = [c] := by
    have hreverse := congrArg List.reverse h
    rwa [trim, List.reverse_reverse] at hreverse
  have hmem : c ∈ (text.dropWhile isBlank).reverse.dropWhile isBlank := by
    rw [hlast]
    exact List.mem_singleton_self c
  refine ⟨?_, ?_⟩
  · have hinner := (List.dropWhile_sublist isBlank).subset hmem
    exact (List.dropWhile_sublist isBlank).subset (List.mem_reverse.mp hinner)
  · have hhead := List.head?_dropWhile_not isBlank (text.dropWhile isBlank).reverse
    rw [hlast] at hhead
    simpa using hhead

end Trimming

namespace Registry

open Assignment

variable {r : Registry} {a b : Assignment} {v : Variable}

/-- The name of a variable given out is read as the variable, if it is not blank. -/
theorem Issued.trimmedVariable?_name (hv : r.Issued v) (hblank : isBlank v.name = false) :
    r.trimmedVariable? [v.name] = (some v, r) := by
  simp [trimmedVariable?, trim_singleton hblank, hv.readable, hv.variableOf_name,
    hv.enrolled.enroll_eq_self]

theorem trim_eq_of_trimmedVariable? {text : List Char}
    (h : (r.trimmedVariable? text).1 = some v) : trim text = [v.name] := by
  unfold trimmedVariable? at h
  split at h
  · cases h
  · rename_i c rest htrim
    split at h
    · cases h
    · cases rest with
      | nil =>
          cases h
          exact htrim
      | cons d rest => cases h

/-- Items written for pairs set the values of the pairs, one after the other. -/
theorem readItems_of_forall₂ {pairs : List (Variable × Bool)} {items : List (List Char)}
    (h : List.Forall₂ Writes pairs items) (hpairs : ∀ pair ∈ pairs, Legible pair)
    (hissued : ∀ pair ∈ pairs, r.Issued pair.1) (a : Assignment) :
    r.readItems a items =
      (some (pairs.foldl (fun a pair => a.insert pair.1 pair.2) a), r) := by
  induction h generalizing a with
  | nil => rfl
  | @cons pair item pairs items hitem _ ih =>
      obtain ⟨hpair, hothers⟩ := List.forall_mem_cons.mp hpairs
      obtain ⟨hv, hrest⟩ := List.forall_mem_cons.mp hissued
      have hname := hitem.signedName_eq hpair hv.readable
      simp only [readItems, hname, hv.trimmedVariable?_name hpair.not_blank, List.foldl_cons]
      exact ih hothers hrest _

/-- A variable has a value before the items are read, or its name is all that one of them
has but for a sign and blanks. -/
theorem mem_domain_of_readItems {items : List (List Char)}
    (h : (r.readItems a items).1 = some b) (hv : v ∈ b.domain) :
    v ∈ a.domain ∨ ∃ item ∈ items, trim (signedName item).1 = [v.name] := by
  induction items generalizing r a with
  | nil =>
      cases h
      exact .inl hv
  | cons item rest ih =>
      simp only [readItems] at h
      split at h
      · rename_i u between hread
        have hname := trim_eq_of_trimmedVariable? (congrArg Prod.fst hread)
        rcases ih h with hmem | ⟨other, hother, hshown⟩
        · rcases mem_domain_insert.mp hmem with rfl | hmem
          · exact .inr ⟨item, List.mem_cons_self, hname⟩
          · exact .inl hmem
        · exact .inr ⟨other, List.mem_cons_of_mem item hother, hshown⟩
      · cases h

theorem mem_of_mem_signedName {c : Char} {item : List Char} (hc : c ∈ (signedName item).1) :
    c ∈ item := by
  cases item with
  | nil => exact hc
  | cons d rest =>
      simp only [signedName] at hc
      split at hc
      · exact List.mem_cons_of_mem d hc
      · exact hc

/-- No text gives a value to a variable whose name is blank or a separator. -/
theorem not_blank_of_readAssignment {text : String}
    (h : (r.readAssignment text).1 = .ok a) (hv : v ∈ a.domain) :
    isBlank v.name = false ∧ v.name ∉ itemSeparators := by
  unfold readAssignment at h
  split at h
  · rename_i read later hread
    cases h
    rcases mem_domain_of_readItems (congrArg Prod.fst hread) hv with hnone | ⟨item, hitem, hname⟩
    · exact absurd hnone not_mem_domain_empty
    · obtain ⟨hmem, hblank⟩ := mem_and_not_blank_of_trim_eq hname
      exact ⟨hblank, not_mem_itemSeparators_of_mem_itemsOf hitem _ (mem_of_mem_signedName hmem)⟩
  · cases h

end Registry

/-- The last value of a variable counts. -/
theorem Assignment.get?_ofPairs (pairs : List (Variable × Bool)) (v : Variable) :
    (ofPairs pairs).get? v = (pairs.reverse.find? fun pair => pair.1 = v).map Prod.snd := by
  induction pairs using List.reverseRecOn with
  | nil => rfl
  | append_singleton pairs pair ih =>
      have hlast : ofPairs (pairs ++ [pair]) = (ofPairs pairs).insert pair.1 pair.2 := by
        simp [ofPairs]
      rw [hlast, get?_insert, List.reverse_concat, List.find?_cons, ih]
      by_cases hv : v = pair.1
      · simp [hv]
      · simp [hv, Ne.symm hv]

open Registry in
/-- A text that lists legible values of variables given out is read as the assignment of
these values, of which the last one of each variable counts, and enrolls no name.  No text
is read as an assignment with a value of a variable that could not be listed because its
name is blank or a separator. -/
theorem readAssignment_of_lists (r : Registry) :
    (∀ pairs : List (Variable × Bool), (∀ pair ∈ pairs, r.Issued pair.1) →
      (∀ pair ∈ pairs, Legible pair) →
        (∀ text : String, Lists text.toList pairs →
          r.readAssignment text = (.ok (.ofPairs pairs), r)) ∧
        ∀ v, (Assignment.ofPairs pairs).get? v =
          (pairs.reverse.find? fun pair => pair.1 = v).map Prod.snd) ∧
      ∀ (text : String) (a : Assignment), (r.readAssignment text).1 = .ok a →
        ∀ v, (a.get? v).isSome = true →
          isBlank v.name = false ∧ v.name ≠ ',' ∧ v.name ≠ ';' := by
  refine ⟨fun pairs hissued hpairs => ⟨fun text htext => ?_, Assignment.get?_ofPairs pairs⟩, ?_⟩
  · have hitems := htext.forall₂_itemsOf hpairs
    rw [readAssignment, readItems_of_forall₂ hitems hpairs hissued]
    rfl
  · intro text a ha v hv
    obtain ⟨hblank, hseparator⟩ :=
      not_blank_of_readAssignment ha (Assignment.mem_domain.mpr hv)
    rw [mem_itemSeparators_iff, not_or, not_or] at hseparator
    exact ⟨hblank, hseparator.2.1, hseparator.2.2⟩

/-- A variable is listed twice, and an exclamation mark follows the sign it could be taken
for. -/
theorem readAssignment_of_repeated_variable :
    let accented : Variable := ⟨'é', 128⟩
    let plain : Variable := ⟨'b', 98⟩
    let mark : Variable := ⟨'!', 33⟩
    let r : Registry := Registry.empty.enroll 'é'
    let pairs : List (Variable × Bool) :=
      [(plain, true), (accented, true), (mark, false), (plain, false)]
    (∀ pair ∈ pairs, r.Issued pair.1) ∧ (∀ pair ∈ pairs, Legible pair) ∧
      Lists ", b é;,!! ~b".toList pairs ∧
      r.readAssignment ", b é;,!! ~b" = (.ok (.ofPairs pairs), r) ∧
      (Assignment.ofPairs pairs).get? plain = some false := by
  intro accented plain mark r pairs
  have hissued : ∀ pair ∈ pairs, r.Issued pair.1 := by
    have haccented : r.Issued accented := Registry.empty.issued_enroll_self (by decide)
    have hplain : r.Issued plain := ⟨by decide, Or.inl (by decide), rfl⟩
    have hmark : r.Issued mark := ⟨by decide, Or.inl (by decide), rfl⟩
    simp [pairs, haccented, hplain, hmark]
  have hpairs : ∀ pair ∈ pairs, Legible pair := by
    have hfirst : Legible (plain, true) := ⟨by decide, by decide, by decide, by decide⟩
    have haccented : Legible (accented, true) := ⟨by decide, by decide, by decide, by decide⟩
    have hmark : Legible (mark, false) := ⟨by decide, by decide, by decide, by decide⟩
    have hlast : Legible (plain, false) := ⟨by decide, by decide, by decide, by decide⟩
    simp [pairs, hfirst, haccented, hmark, hlast]
  have hfourth : Lists ([] ++ ['~', 'b'] ++ []) [(plain, false)] :=
    .last (by decide) (.signed plain (by decide)) (by decide)
  have hthird : Lists ([] ++ ['!', '!'] ++ [' '] ++ _) ((mark, false) :: _) :=
    .next (by decide) (.signed mark (by decide)) (by decide) (by decide) hfourth
  have hsecond : Lists ([] ++ ['é'] ++ [';', ','] ++ _) ((accented, true) :: _) :=
    .next (by decide) (.bare accented) (by decide) (by decide) hthird
  have hfirst : Lists ([',', ' '] ++ ['b'] ++ [' '] ++ _) ((plain, true) :: _) :=
    .next (by decide) (.bare plain) (by decide) (by decide) hsecond
  have hlists : Lists ", b é;,!! ~b".toList pairs := by
    have htext : ", b é;,!! ~b".toList =
        [',', ' ', 'b', ' ', 'é', ';', ',', '!', '!', ' ', '~', 'b'] := by decide +kernel
    rw [htext]
    exact hfirst
  obtain ⟨hread, _⟩ := readAssignment_of_lists r
  obtain ⟨htext, hvalue⟩ := hread pairs hissued hpairs
  exact ⟨hissued, hpairs, hlists, htext _ hlists, hvalue plain⟩

end Sentential
