/-
First occurrences.  A vocabulary built from a list keeps the first occurrence of
each variable, so the vocabulary of a sentence read from a text names the
characters of the text in the order of their first appearance.
-/
import Mathlib.Data.List.Basic
import Mathlib.Data.List.Induction
import Sentential.Proofs.Spelling

namespace Sentential

variable {α β : Type} [DecidableEq α] [DecidableEq β]

theorem eraseDups_concat (l : List α) (a : α) :
    (l ++ [a]).eraseDups = if a ∈ l then l.eraseDups else l.eraseDups ++ [a] := by
  rw [List.eraseDups_append, List.cons_removeAll]
  by_cases ha : a ∈ l <;> simp [ha, List.eraseDups_cons]

theorem eraseDups_of_nodup {l : List α} (h : l.Nodup) : l.eraseDups = l := by
  induction l using List.reverseRecOn with
  | nil => rfl
  | append_singleton l a ih =>
      obtain ⟨hl, _, hdisjoint⟩ := List.nodup_append.mp h
      have ha : a ∉ l := fun hmem => hdisjoint a hmem a (List.mem_singleton_self a) rfl
      rw [eraseDups_concat, if_neg ha, ih hl]

/-- Renaming that keeps names apart keeps first occurrences. -/
theorem eraseDups_map_of_injective {g : α → β} (hg : Function.Injective g) (l : List α) :
    (l.map g).eraseDups = l.eraseDups.map g := by
  induction l using List.reverseRecOn with
  | nil => rfl
  | append_singleton l a ih =>
      have hmem : g a ∈ l.map g ↔ a ∈ l := List.mem_map_of_injective hg
      rw [List.map_append, List.map_singleton, eraseDups_concat, eraseDups_concat, ih]
      by_cases ha : a ∈ l <;> simp [ha, hmem]

theorem idxOf_map_of_injective {g : α → β} (hg : Function.Injective g) (l : List α) (a : α) :
    (l.map g).idxOf (g a) = l.idxOf a := by
  induction l with
  | nil => rfl
  | cons b rest ih =>
      rw [List.map_cons, List.idxOf_cons, List.idxOf_cons, ih]
      have hsame : (g b == g a) = (b == a) := by
        rw [Bool.eq_iff_iff, beq_iff_eq, beq_iff_eq, hg.eq_iff]
      rw [hsame]

theorem Vocabulary.toList_ofList (vs : List Variable) :
    (Vocabulary.ofList vs).toList = vs.eraseDups := by
  induction vs using List.reverseRecOn with
  | nil => rfl
  | append_singleton vs v ih =>
      have hinsert : Vocabulary.ofList (vs ++ [v]) = (Vocabulary.ofList vs).insert v := by
        simp [ofList, insertAll]
      rw [hinsert, toList_insert, eraseDups_concat, ih]
      by_cases hv : v ∈ vs <;> simp [hv]

theorem Vocabulary.toList_injective : Function.Injective Vocabulary.toList := by
  rintro ⟨vs, _⟩ ⟨ws, _⟩ h
  cases h
  rfl

/-- A vocabulary is built again from its own list. -/
theorem Vocabulary.ofList_toList (l : Vocabulary) : ofList l.toList = l :=
  toList_injective ((toList_ofList l.toList).trans (eraseDups_of_nodup l.nodup))

/-- The names in a text, each once, in the order in which they first appear. -/
def namesOf (text : List Char) : List Char :=
  (text.filter fun c => ¬ Reserved c).eraseDups

theorem mem_namesOf {text : List Char} {c : Char} :
    c ∈ namesOf text ↔ c ∈ text ∧ ¬ Reserved c := by
  simp [namesOf]

/-- Only a new name is listed, after all others. -/
theorem namesOf_concat (text : List Char) (c : Char) :
    namesOf (text ++ [c]) =
      if Reserved c ∨ c ∈ text then namesOf text else namesOf text ++ [c] := by
  by_cases hc : Reserved c
  · simp [namesOf, hc]
  · have hfilter : ((text ++ [c]).filter fun c => ¬ Reserved c) =
        (text.filter fun c => ¬ Reserved c) ++ [c] := by
      simp [hc]
    rw [namesOf, hfilter, eraseDups_concat]
    simp [namesOf, hc]

/-- Names are listed in the order of their first appearance. -/
theorem pairwise_idxOf_namesOf (text : List Char) :
    (namesOf text).Pairwise fun c d => text.idxOf c < text.idxOf d := by
  induction text using List.reverseRecOn with
  | nil => exact .nil
  | append_singleton text c ih =>
      have hbefore : ∀ d ∈ namesOf text, (text ++ [c]).idxOf d = text.idxOf d :=
        fun d hd => List.idxOf_append_of_mem (mem_namesOf.mp hd).1
      have hkept : (namesOf text).Pairwise
          fun d e => (text ++ [c]).idxOf d < (text ++ [c]).idxOf e :=
        ih.imp_of_mem fun hd he hlt => by rwa [hbefore _ hd, hbefore _ he]
      rw [namesOf_concat]
      split
      · exact hkept
      · rename_i hnew
        -- A new name first appears at the end, after all that are listed before it.
        refine List.pairwise_append.mpr ⟨hkept, List.pairwise_singleton _ _, ?_⟩
        intro d hd e he
        obtain rfl := List.mem_singleton.mp he
        have hlast : (text ++ [e]).idxOf e = text.length := by
          rw [List.idxOf_append_of_notMem fun he => hnew (.inr he), List.idxOf_cons_self,
            Nat.add_zero]
        rw [hbefore d hd, hlast]
        exact List.idxOf_lt_length_of_mem (mem_namesOf.mp hd).1

theorem Token.reserved_sign {t : Token Char} (ht : t.atom? = none) : Reserved t.sign := by
  cases t with
  | symbol s =>
      cases s with
      | atom name => cases ht
      | connective c => cases c <;> decide
  | opening => decide
  | closing => decide

/-- The names that a text shows are the atoms of the tokens it spells. -/
theorem Spells.filter_eq {text : List Char} {tokens : List (Token Char)}
    (h : Spells text tokens) :
    (text.filter fun c => ¬ Reserved c) = tokens.filterMap Token.atom? := by
  induction h with
  | nil => rfl
  | space _ ih =>
      rw [List.filter_cons_of_neg (by decide)]
      exact ih
  | @token t text tokens ht _ ih =>
      cases hatom : t.atom? with
      | none =>
          have hsign := Token.reserved_sign hatom
          rw [List.filter_cons_of_neg (by simpa using hsign), ih,
            List.filterMap_cons_none hatom]
      | some name =>
          have hsign : t.sign = name := by
            cases t with
            | symbol s => cases s <;> simp_all [Token.sign]
            | opening => cases hatom
            | closing => cases hatom
          have hname : ¬ Reserved t.sign := hsign ▸ ht name hatom
          rw [List.filter_cons_of_pos (by simpa using hname), ih,
            List.filterMap_cons_some hatom, hsign]

theorem Registry.variableOf_injective (r : Registry) : Function.Injective r.variableOf := by
  intro c d h
  exact congrArg Variable.name h

end Sentential
