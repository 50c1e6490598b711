/-
Sessions.  A session begins with the empty registry and reads texts one after the
other.  Each reading uses some characters as names, also a reading that fails; the
registry numbers the characters in order of first use, and a variable obtained at any
time can be read again, or found by its number, from then on.
-/
import Sentential.Proofs.Numbering
import Sentential.Proofs.Occurrences
import Sentential.Proofs.Operands
import Sentential.Proofs.PartialMap

namespace Sentential

/-- A character that has no number until it is enrolled. -/
abbrev Unnumbered (c : Char) : Prop := asciiLimit ≤ c.toNat

/-- Something to read. -/
inductive Reading where
  | character (c : Char)
  | name (text : String)
  | names (text : List Char)
  | tokens (text : String)
  | sentence (text : String)
  | assignment (text : String)
deriving DecidableEq, Repr

/-- The character that a text begins with, blanks skipped, if it can be a name. -/
def leadingName (text : List Char) : List Char :=
  match trim text with
  | [] => []
  | c :: _ => if Reserved c then [] else [c]

/-- The characters that begin the names in items, up to the first item that names no
variable. -/
def leadingNames : List (List Char) → List Char
  | [] => []
  | item :: rest =>
      match trim (signedName item).1 with
      | [] => []
      | c :: more =>
          if Reserved c then [] else if more.isEmpty then c :: leadingNames rest else [c]

/-- The characters that a reading uses as names, in order.  A reading that fails has used
those before the failure. -/
def Reading.uses : Reading → List Char
  | character c => if Reserved c then [] else [c]
  | name text => leadingName text.toList
  | names text => text.filter fun c => ¬ Reserved c
  | tokens text | sentence text => text.toList.filter fun c => ¬ Reserved c
  | assignment text => leadingNames (itemsOf text.toList)

theorem not_reserved_of_mem_leadingName {text : List Char} {c : Char}
    (hc : c ∈ leadingName text) : ¬ Reserved c := by
  simp only [leadingName] at hc
  split at hc
  · cases hc
  · split at hc
    · cases hc
    · rw [List.mem_singleton.mp hc]
      assumption

theorem not_reserved_of_mem_leadingNames {items : List (List Char)} {c : Char}
    (hc : c ∈ leadingNames items) : ¬ Reserved c := by
  induction items with
  | nil => cases hc
  | cons item rest ih =>
      simp only [leadingNames] at hc
      split at hc
      · cases hc
      · split at hc
        · cases hc
        · rename_i hd
          split at hc
          · rcases List.mem_cons.mp hc with rfl | hc
            · exact hd
            · exact ih hc
          · rw [List.mem_singleton.mp hc]
            exact hd

/-- No reading uses a reserved character. -/
theorem Reading.not_reserved_of_mem_uses {x : Reading} {c : Char} (hc : c ∈ x.uses) :
    ¬ Reserved c := by
  cases x with
  | character d =>
      simp only [uses] at hc
      split at hc
      · cases hc
      · rw [List.mem_singleton.mp hc]
        assumption
  | name text => exact not_reserved_of_mem_leadingName hc
  | names text => simpa using (List.mem_filter.mp hc).2
  | tokens text => simpa using (List.mem_filter.mp hc).2
  | sentence text => simpa using (List.mem_filter.mp hc).2
  | assignment text => exact not_reserved_of_mem_leadingNames hc

/-- Readings one after the other. -/
abbrev Session := List Reading

theorem mem_toList_toOption {ε α : Type} {e : Except ε α} {a : α} :
    a ∈ e.toOption.toList ↔ e = .ok a := by
  cases e <;> simp [Except.toOption, eq_comm]

namespace Registry

/-- The registry after a reading. -/
def after (r : Registry) : Reading → Registry
  | .character c => (r.readChar c).2
  | .name text => (r.readVariable text).2
  | .names text => (r.variablesOf text).2
  | .tokens text => (r.tokenize text).2
  | .sentence text => (r.parse text).2
  | .assignment text => (r.readAssignment text).2

/-- The variables in what a reading gives. -/
def given (r : Registry) : Reading → List Variable
  | .character c => (r.readChar c).1.toOption.toList
  | .name text => (r.readVariable text).1.toOption.toList
  | .names text => (r.variablesOf text).1
  | .tokens text => (r.tokenize text).1.filterMap Token.atom?
  | .sentence text => (r.parse text).1.toOption.toList.flatMap Sentence.occurrences
  | .assignment text => (r.readAssignment text).1.toOption.toList.flatMap fun a => a.domain.toList

variable {r : Registry} {v w : Variable} {c : Char}

theorem readVariable_eq_ok_iff {text : String} :
    (r.readVariable text).1 = .ok v ↔ (r.trimmedVariable? text.toList).1 = some v := by
  unfold readVariable
  split <;> simp [*]

theorem readAssignment_eq_ok_iff {text : String} {a : Assignment} :
    (r.readAssignment text).1 = .ok a ↔ (r.readItems ∅ (itemsOf text.toList)).1 = some a := by
  unfold readAssignment
  split <;> simp [*]

theorem readVariable_snd (r : Registry) (text : String) :
    (r.readVariable text).2 = (r.trimmedVariable? text.toList).2 := by
  unfold readVariable
  split <;> simp [*]

theorem readAssignment_snd (r : Registry) (text : String) :
    (r.readAssignment text).2 = (r.readItems ∅ (itemsOf text.toList)).2 := by
  unfold readAssignment
  split <;> simp [*]

theorem trimmedVariable?_snd (r : Registry) (text : List Char) :
    (r.trimmedVariable? text).2 = r.enrollAll (leadingName text) := by
  simp only [trimmedVariable?, leadingName]
  cases trim text with
  | nil => rfl
  | cons c rest => by_cases hc : Reserved c <;> simp [hc]

theorem readItems_snd (r : Registry) (a : Assignment) (items : List (List Char)) :
    (r.readItems a items).2 = r.enrollAll (leadingNames items) := by
  induction items generalizing r a with
  | nil => rfl
  | cons item rest ih =>
      simp only [readItems, leadingNames, trimmedVariable?]
      cases trim (signedName item).1 with
      | nil => rfl
      | cons c more =>
          by_cases hc : Reserved c
          · simp [hc]
          · cases more with
            | nil => simp [hc, ih]
            | cons d more => simp [hc]

/-- A reading enrolls the characters that it uses, and does nothing else. -/
theorem after_eq_enrollAll (r : Registry) (x : Reading) : r.after x = r.enrollAll x.uses := by
  cases x with
  | character c =>
      simp only [after, Reading.uses, readChar]
      split <;> rfl
  | name text => exact (r.readVariable_snd text).trans (r.trimmedVariable?_snd _)
  | names text => rfl
  | tokens text =>
      rw [Reading.uses, (Spells.of_lex text.toList).filter_eq]
      rfl
  | sentence text =>
      rw [Reading.uses, (Spells.of_lex text.toList).filter_eq]
      exact congrArg Prod.snd (r.parse_of_spells (Spells.of_lex text.toList))
  | assignment text => exact (r.readAssignment_snd text).trans (r.readItems_snd _ _)

theorem mem_leadingName {text : List Char} (h : (r.trimmedVariable? text).1 = some v) :
    v.name ∈ leadingName text := by
  simp only [trimmedVariable?, leadingName] at h ⊢
  cases htrim : trim text with
  | nil => simp [htrim] at h
  | cons c rest =>
      by_cases hc : Reserved c
      · simp [htrim, hc] at h
      · cases rest with
        | nil =>
            simp only [htrim, hc, if_false, List.isEmpty_nil, if_true] at h
            cases h
            simp [hc]
        | cons d rest => simp [htrim, hc] at h

theorem mem_leadingNames {a b : Assignment} {items : List (List Char)}
    (h : (r.readItems a items).1 = some b) (hv : v ∈ b.domain) :
    v ∈ a.domain ∨ v.name ∈ leadingNames items := by
  induction items generalizing r a with
  | nil =>
      cases h
      exact Or.inl hv
  | cons item rest ih =>
      simp only [readItems, leadingNames, trimmedVariable?] at h ⊢
      cases htrim : trim (signedName item).1 with
      | nil => simp [htrim] at h
      | cons c more =>
          by_cases hc : Reserved c
          · simp [htrim, hc] at h
          · cases more with
            | nil =>
                simp only [htrim, hc, if_false, List.isEmpty_nil, if_true] at h
                rcases ih h with hbefore | hrest
                · rcases Assignment.mem_domain_insert.mp hbefore with rfl | hbefore
                  · exact Or.inr (by simp [hc])
                  · exact Or.inl hbefore
                · exact Or.inr (by simp [hc, hrest])
            | cons d more => simp [htrim, hc] at h

theorem name_mem_of_mem_tokenize {text : String}
    (hv : v ∈ (r.tokenize text).1.filterMap Token.atom?) :
    v.name ∈ text.toList.filter fun c => ¬ Reserved c := by
  rw [(Spells.of_lex text.toList).filter_eq]
  obtain ⟨_, ht, hatom⟩ := List.mem_filterMap.mp hv
  obtain ⟨t, hlex, rfl⟩ := List.mem_map.mp ht
  rw [Token.atom?_map, Option.map_eq_some_iff] at hatom
  obtain ⟨c, hc, rfl⟩ := hatom
  exact List.mem_filterMap.mpr ⟨t, hlex, hc⟩

/-- The variables of a sentence are those of the tokens it is read from. -/
theorem occurrences_of_parse {text : String} {s : Sentence} (h : (r.parse text).1 = .ok s) :
    s.occurrences = (r.tokenize text).1.filterMap Token.atom? :=
  filterMap_atom?_of_toPostfix (toPostfix_of_parse h)

/-- What a reading gives has the names that the reading uses. -/
theorem mem_uses_of_mem_given {x : Reading} (hv : v ∈ r.given x) : v.name ∈ x.uses := by
  cases x with
  | character c =>
      have hread := mem_toList_toOption.mp hv
      simp only [Reading.uses, readChar] at hread ⊢
      split at hread
      · cases hread
      · rename_i hc
        cases hread
        rw [if_neg hc]
        exact List.mem_singleton_self c
  | name text =>
      have hread := mem_toList_toOption.mp hv
      rw [readVariable_eq_ok_iff] at hread
      exact mem_leadingName hread
  | names text =>
      obtain ⟨c, hc, rfl⟩ := List.mem_map.mp hv
      exact hc
  | tokens text => exact name_mem_of_mem_tokenize hv
  | sentence text =>
      obtain ⟨s, hread, hs⟩ := List.mem_flatMap.mp hv
      rw [occurrences_of_parse (mem_toList_toOption.mp hread)] at hs
      exact name_mem_of_mem_tokenize hs
  | assignment text =>
      obtain ⟨a, hread, ha⟩ := List.mem_flatMap.mp hv
      rw [mem_toList_toOption, readAssignment_eq_ok_iff] at hread
      exact (mem_leadingNames hread ha).resolve_left Assignment.not_mem_domain_empty

theorem issued_of_mem_filterMap_tokenize {text : String}
    (hv : v ∈ (r.tokenize text).1.filterMap Token.atom?) : (r.tokenize text).2.Issued v := by
  obtain ⟨t, ht, hatom⟩ := List.mem_filterMap.mp hv
  rw [Token.atom?_eq_some_iff] at hatom
  exact issued_of_mem_tokenize (hatom ▸ ht)

/-- What a reading gives are variables given out. -/
theorem issued_of_mem_given {x : Reading} (hv : v ∈ r.given x) : (r.after x).Issued v := by
  cases x with
  | character c => exact issued_of_readChar (mem_toList_toOption.mp hv)
  | name text =>
      rw [after, readVariable_snd]
      exact issued_of_trimmedVariable? (readVariable_eq_ok_iff.mp (mem_toList_toOption.mp hv))
  | names text => exact issued_of_mem_variablesOf hv
  | tokens text => exact issued_of_mem_filterMap_tokenize hv
  | sentence text =>
      obtain ⟨s, hread, hs⟩ := List.mem_flatMap.mp hv
      rw [occurrences_of_parse (mem_toList_toOption.mp hread)] at hs
      exact issued_of_mem_filterMap_tokenize hs
  | assignment text =>
      obtain ⟨a, hread, ha⟩ := List.mem_flatMap.mp hv
      exact issued_of_readAssignment (mem_toList_toOption.mp hread) v ha

/-- A variable given out is read again from its name, and nothing changes. -/
theorem Issued.readChar_name (hv : r.Issued v) : r.readChar v.name = (.ok v, r) := by
  rw [readChar, if_neg hv.readable, hv.variableOf_name, hv.enrolled.enroll_eq_self]

/-- Variables given out differ by name. -/
theorem Issued.eq_of_name_eq (hv : r.Issued v) (hw : r.Issued w) (hname : v.name = w.name) :
    v = w := by
  rw [← hv.variableOf_name, ← hw.variableOf_name, hname]

/-- The number of a variable given out is the code point of its name, or the place of the
name among the names. -/
theorem Consistent.number_cases (h : r.Consistent) (hv : r.Issued v) :
    (v.name.toNat < asciiLimit ∧ v.number = v.name.toNat) ∨
      ∃ k, v.number = asciiLimit + k ∧ r.names[k]? = some v.name := by
  have hnumber : r.numberOf v.name = v.number := congrArg Variable.number hv.variableOf_name
  rw [← hnumber]
  exact h.numberOf_cases hv.enrolled

/-- A variable given out is found by its number. -/
theorem Consistent.variableAt?_number (h : r.Consistent) (hv : r.Issued v) :
    r.variableAt? v.number = some v := by
  obtain ⟨hascii, hnumber⟩ | ⟨k, hnumber, hname⟩ := h.number_cases hv
  · rw [variableAt?, if_pos (hnumber ▸ hascii), hnumber, Char.ofNat_toNat, ← hnumber]
  · rw [variableAt?, if_neg (by omega), hnumber, Nat.add_sub_cancel_left, hname, ← hnumber]
    rfl

/-- A name at a place stands for the variable with the number of the place. -/
theorem Consistent.issued_of_name_at (h : r.Consistent) {k : Nat} (hreadable : ¬ Reserved c)
    (hc : Unnumbered c) (hname : r.names[k]? = some c) : r.Issued ⟨c, asciiLimit + k⟩ := by
  have hnumber := h.number_of k c hname
  refine ⟨hreadable, Or.inr (Std.TreeMap.mem_iff_isSome_getElem?.mpr ?_), ?_⟩
  · simp [hnumber]
  · rw [variableOf, numberOf, if_neg (Nat.not_lt.mpr hc), Std.TreeMap.getD_eq_getD_getElem?,
      hnumber, Option.getD_some]

/-- No character is named at two places. -/
theorem Consistent.nodup_names (h : r.Consistent) : r.names.toList.Nodup := by
  rw [List.nodup_iff_getElem?_ne_getElem?]
  intro i j hij hj hsame
  have hi : r.names[i]? = some r.names.toList[j] := by
    rw [← Array.getElem?_toList, hsame, List.getElem?_eq_getElem hj]
  have hj : r.names[j]? = some r.names.toList[j] := by
    rw [← Array.getElem?_toList, List.getElem?_eq_getElem hj]
  have hnumber := (h.number_of i _ hi).symm.trans (h.number_of j _ hj)
  simp only [Option.some.injEq, Nat.add_left_cancel_iff] at hnumber
  omega

theorem Consistent.mem_numbers_iff (h : r.Consistent) :
    c ∈ r.numbers ↔ c ∈ r.names.toList := by
  rw [List.mem_iff_getElem?, Std.TreeMap.mem_iff_isSome_getElem?, Option.isSome_iff_exists]
  constructor
  · rintro ⟨n, hn⟩
    obtain ⟨i, _, hi⟩ := h.name_at c n hn
    exact ⟨i, by simpa using hi⟩
  · rintro ⟨i, hi⟩
    exact ⟨_, h.number_of i c (by simpa using hi)⟩

/-- The names are the characters without a number of their own, in order of first use. -/
theorem names_enrollAll (cs : List Char) :
    (Registry.empty.enrollAll cs).names.toList = (cs.filter (Unnumbered ·)).eraseDups := by
  -- The last character is new just when no earlier one is the same, as the numbers tell.
  induction cs using List.reverseRecOn with
  | nil => rfl
  | append_singleton cs c ih =>
      have hconsistent := consistent_empty.enrollAll cs
      have hmem : c ∈ (Registry.empty.enrollAll cs).numbers ↔
          c ∈ cs.filter (Unnumbered ·) := by
        rw [hconsistent.mem_numbers_iff, ih, List.mem_eraseDups]
      rw [enrollAll_append, enrollAll_cons, enrollAll_nil, enroll, List.filter_append]
      by_cases hc : c.toNat < asciiLimit
      · have hnumbered : ¬ Unnumbered c := Nat.not_le.mpr hc
        simp [hc, hnumbered, ih]
      · have hunnumbered : Unnumbered c := Nat.not_lt.mp hc
        rw [List.filter_cons_of_pos (by simpa using hunnumbered), List.filter_nil,
          eraseDups_concat, ← ih]
        by_cases hold : c ∈ cs.filter (Unnumbered ·)
        · rw [if_pos (Or.inr (hmem.mpr hold)), if_pos hold]
        · rw [if_neg (not_or.mpr ⟨hc, mt hmem.mp hold⟩), if_neg hold, Array.toList_push]

end Registry

namespace Session

variable {session : Session} {v w : Variable}

/-- The registry when a session ends. -/
def registry (session : Session) : Registry := session.foldl Registry.after .empty

/-- The characters that a session uses as names, in order, repeats included. -/
def uses (session : Session) : List Char := session.flatMap Reading.uses

/-- The distinct characters without a number of their own that a session uses as names,
in order of first use. -/
def newNames (session : Session) : List Char :=
  (session.uses.filter (Unnumbered ·)).eraseDups

/-- At one of its uses of a character as a name, a session reads the character as the
variable. -/
def Obtains (session : Session) (v : Variable) : Prop :=
  ∃ before after, session.uses = before ++ v.name :: after ∧
    ((Registry.empty.enrollAll before).readChar v.name).1 = .ok v

theorem registry_eq_enrollAll (session : Session) :
    session.registry = Registry.empty.enrollAll session.uses := by
  suffices ∀ r : Registry, session.foldl Registry.after r = r.enrollAll session.uses from
    this .empty
  induction session with
  | nil => exact fun _ => rfl
  | cons x rest ih =>
      intro r
      rw [List.foldl_cons, ih, r.after_eq_enrollAll, ← Registry.enrollAll_append]
      rfl

theorem extends_empty (session : Session) : session.registry.Extends .empty :=
  ⟨session.uses, session.registry_eq_enrollAll⟩

theorem registry_append (session more : Session) :
    (session ++ more).registry.Extends session.registry := by
  refine ⟨more.uses, ?_⟩
  rw [registry_eq_enrollAll, registry_eq_enrollAll, uses, List.flatMap_append,
    Registry.enrollAll_append]
  rfl

theorem names_registry (session : Session) :
    session.registry.names.toList = session.newNames := by
  rw [registry_eq_enrollAll, Registry.names_enrollAll, newNames]

theorem not_reserved_of_mem_uses {c : Char} (hc : c ∈ session.uses) : ¬ Reserved c := by
  obtain ⟨x, _, hx⟩ := List.mem_flatMap.mp hc
  exact Reading.not_reserved_of_mem_uses hx

/-- A session obtains the variables given out that have a name it uses. -/
theorem obtains_iff :
    session.Obtains v ↔ v.name ∈ session.uses ∧ session.registry.Issued v := by
  rw [registry_eq_enrollAll]
  constructor
  · rintro ⟨before, after, huses, hread⟩
    refine ⟨by simp [huses], ?_⟩
    have hissued := Registry.issued_of_readChar hread
    rw [Registry.readChar, if_neg hissued.readable] at hissued
    rw [huses, Registry.enrollAll_append, Registry.enrollAll_cons]
    exact hissued.enrollAll after
  · rintro ⟨hname, hissued⟩
    -- Any use will do: what the name was read as then is what it stands for at the end.
    obtain ⟨before, after, huses⟩ := List.append_of_mem hname
    refine ⟨before, after, huses, ?_⟩
    have hused := ((Registry.empty.enrollAll before).issued_enroll_self
      hissued.readable).enrollAll after
    rw [huses, Registry.enrollAll_append, Registry.enrollAll_cons] at hissued
    rw [Registry.readChar, if_neg hissued.readable]
    exact congrArg Except.ok (hused.eq_of_name_eq hissued rfl)

theorem obtains_iff_variableOf :
    session.Obtains v ↔ v.name ∈ session.uses ∧ session.registry.variableOf v.name = v := by
  rw [obtains_iff]
  constructor
  · exact fun ⟨hname, hissued⟩ => ⟨hname, hissued.variableOf_name⟩
  · rintro ⟨hname, hvariable⟩
    refine ⟨hname, ?_⟩
    rw [← hvariable, registry_eq_enrollAll]
    exact Registry.issued_enrollAll hname (not_reserved_of_mem_uses hname)

instance (session : Session) (v : Variable) : Decidable (session.Obtains v) :=
  decidable_of_iff _ obtains_iff_variableOf.symm

theorem Obtains.issued (h : session.Obtains v) : session.registry.Issued v :=
  (obtains_iff.mp h).2

/-- What a reading gives is obtained, and stays so whatever is read later. -/
theorem obtains_of_mem_given {before after : Session} {x : Reading}
    (hv : v ∈ before.registry.given x) : Obtains (before ++ x :: after) v := by
  refine obtains_iff.mpr ⟨?_, ?_⟩
  · have hname := Registry.mem_uses_of_mem_given hv
    exact List.mem_flatMap.mpr ⟨x, by simp, hname⟩
  · have hissued := Registry.issued_of_mem_given hv
    have hregistry : before.registry.after x = Session.registry (before ++ [x]) := by
      simp [registry]
    rw [hregistry] at hissued
    rw [List.append_cons]
    exact (registry_append (before ++ [x]) after).issued hissued

/-- An ASCII character has its code point as number. -/
theorem Obtains.number_of_ascii (hv : session.Obtains v) (hascii : v.name.toNat < asciiLimit) :
    v.number = v.name.toNat := by
  rw [← hv.issued.variableOf_name]
  exact Registry.numberOf_of_ascii _ hascii

/-- The characters without a number of their own are numbered in order of first use. -/
theorem getElem?_newNames_eq_some_iff {k : Nat} {c : Char} :
    session.newNames[k]? = some c ↔ session.Obtains ⟨c, asciiLimit + k⟩ := by
  have hconsistent := session.extends_empty.consistent
  rw [← names_registry, Array.getElem?_toList]
  constructor
  · intro hk
    have hmem : c ∈ session.uses.filter (Unnumbered ·) := by
      rw [← List.mem_eraseDups, ← newNames, ← names_registry]
      exact List.mem_of_getElem? (Array.getElem?_toList.trans hk)
    obtain ⟨huses, hunnumbered⟩ := List.mem_filter.mp hmem
    exact obtains_iff.mpr ⟨huses, hconsistent.issued_of_name_at
      (not_reserved_of_mem_uses huses) (by simpa using hunnumbered) hk⟩
  · intro hv
    obtain ⟨hascii, hnumber⟩ | ⟨i, hnumber, hi⟩ := hconsistent.number_cases hv.issued
    · dsimp only at hascii hnumber
      omega
    · rw [Nat.add_left_cancel hnumber]
      exact hi

/-- Throughout a session, names and numbers are inverse to each other, and a variable
obtained at any time, such as any that a reading gives, has a number that no other has and
is what its name and its number stand for ever after. -/
theorem numbering_throughout (session : Session) :
    session.registry.names.toList.Nodup ∧
      (∀ c n, session.registry.numbers[c]? = some n ↔
        ∃ i, n = asciiLimit + i ∧ session.registry.names[i]? = some c) ∧
      (∀ (before after : Session) x, session = before ++ x :: after →
        ∀ v ∈ before.registry.given x, session.Obtains v) ∧
      (∀ k c, session.newNames[k]? = some c ↔ session.Obtains ⟨c, asciiLimit + k⟩) ∧
      (∀ v, session.Obtains v → v.name.toNat < asciiLimit → v.number = v.name.toNat) ∧
      (∀ v w, session.Obtains v → session.Obtains w → v.name ≠ w.name →
        v.number ≠ w.number) ∧
      ∀ v, session.Obtains v → ∀ more : Session,
        let later := (session ++ more).registry
        later.readChar v.name = (.ok v, later) ∧ later.variableAt? v.number = some v := by
  have hconsistent := session.extends_empty.consistent
  refine ⟨hconsistent.nodup_names, ?_, ?_, fun _ _ => getElem?_newNames_eq_some_iff,
    fun _ => Obtains.number_of_ascii, ?_, ?_⟩
  · intro c n
    constructor
    · exact hconsistent.name_at c n
    · rintro ⟨i, rfl, hi⟩
      exact hconsistent.number_of i c hi
  · rintro before after x rfl v hv
    exact obtains_of_mem_given hv
  · intro v w hv hw hname hnumber
    exact hname (congrArg Variable.name
      (hv.issued.eq_of_number_eq hw.issued session.extends_empty hnumber))
  · intro v hv more later
    have hissued := (session.registry_append more).issued hv.issued
    exact ⟨hissued.readChar_name, (extends_empty _).consistent.variableAt?_number hissued⟩

/-- Three readings that fail have numbered two characters; the second is still found by its
number after another reading. -/
theorem numbering_of_failed_readings :
    let session : Session := [.name "éa", .sentence "(é|ж", .assignment "~ж &"]
    let later := (session ++ [Reading.character 'ñ']).registry
    (∀ x ∈ session, session.registry.given x = []) ∧ session.newNames = ['é', 'ж'] ∧
      session.Obtains ⟨'ж', 129⟩ ∧ later.readChar 'ж' = (.ok ⟨'ж', 129⟩, later) ∧
      later.variableAt? 129 = some ⟨'ж', 129⟩ := by
  intro session later
  have hgiven : ∀ x ∈ session, session.registry.given x = [] := by decide +kernel
  have hnames : session.newNames = ['é', 'ж'] := by decide +kernel
  obtain ⟨_, _, _, hplaces, _, _, hlater⟩ := numbering_throughout session
  have hobtains : session.Obtains ⟨'ж', 129⟩ := (hplaces 1 'ж').mp (by rw [hnames]; rfl)
  exact ⟨hgiven, hnames, hobtains, hlater _ hobtains [.character 'ñ']⟩

end Session

end Sentential
