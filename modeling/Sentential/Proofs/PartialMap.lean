/-
Assignments as partial maps.  Whatever a session does to an assignment, its two sets
stay apart and all that can be asked of it agrees with one map from variables to truth
values, listed by number; and each operation does to the assignment what it does to
the map.
-/
import Mathlib.Data.Set.Card
import Sentential.Assignment.Reading
import Sentential.Proofs.Exhaustion
import Sentential.Proofs.Numbering

namespace Sentential

namespace Assignment

variable {a b : Assignment} {u v : Variable} {r : Registry}

/-- All that can be asked of an assignment agrees with a finite partial map. -/
structure Represents (a : Assignment) (M : Variable → Option Bool) : Prop where
  /-- No variable is both true and false. -/
  disjoint : ∀ v, ¬ (v ∈ a.positive ∧ v ∈ a.negative)
  finite : {v | (M v).isSome = true}.Finite
  get?_eq : ∀ v, a.get? v = M v
  contains_iff : ∀ v, a.contains v = true ↔ (M v).isSome = true
  size_eq : a.size = {v | (M v).isSome = true}.ncard
  mem_domain_iff : ∀ v, v ∈ a.domain ↔ (M v).isSome = true
  size_domain : a.domain.size = a.size
  isEmpty_iff : a.isEmpty = true ↔ ∀ v, M v = none
  /-- The variables are listed by number, each with its value. -/
  mem_toList_iff : ∀ v value, (v, value) ∈ a.toList ↔ M v = some value
  toList_sorted : a.toList.Pairwise fun left right => left.1.number < right.1.number

theorem mem_toList {value : Bool} : (v, value) ∈ a.toList ↔ a.get? v = some value := by
  rw [toList, List.mem_merge]
  cases value with
  | true => simp [get?_eq_some_true_iff]
  | false => simp [get?_eq_some_false_iff]

/-- Two lists in listing order that share no variable are merged into one. -/
theorem pairwise_merge {l m : List (Variable × Bool)}
    (hl : l.Pairwise fun left right => left.1 < right.1)
    (hm : m.Pairwise fun left right => left.1 < right.1)
    (hne : ∀ left ∈ l, ∀ right ∈ m, left.1 ≠ right.1) :
    (List.merge l m fun left right => left.1 < right.1).Pairwise
      fun left right => left.1 < right.1 := by
  induction l generalizing m with
  | nil => simpa using hm
  | cons x l ihl =>
      obtain ⟨hx, hrest⟩ := List.pairwise_cons.mp hl
      induction m with
      | nil => simpa using hl
      | cons y m ihm =>
          obtain ⟨hy, hlater⟩ := List.pairwise_cons.mp hm
          rw [List.cons_merge_cons]
          split
          · rename_i hlt
            have hxy : x.1 < y.1 := by simpa using hlt
            refine List.pairwise_cons.mpr ⟨?_, ?_⟩
            · intro z hz
              rcases List.mem_merge.mp hz with hz | hz
              · exact hx z hz
              · rcases List.mem_cons.mp hz with rfl | hz
                · exact hxy
                · exact Variable.lt_trans hxy (hy z hz)
            · exact ihl hrest hm fun left hleft => hne left (List.mem_cons_of_mem x hleft)
          · rename_i hlt
            have hyx : y.1 < x.1 := by
              rcases Variable.lt_or_eq_or_gt x.1 y.1 with h | h | h
              · exact absurd (by simpa using h) hlt
              · exact absurd h (hne x List.mem_cons_self y List.mem_cons_self)
              · exact h
            refine List.pairwise_cons.mpr ⟨?_, ?_⟩
            · intro z hz
              rcases List.mem_merge.mp hz with hz | hz
              · rcases List.mem_cons.mp hz with rfl | hz
                · exact hyx
                · exact Variable.lt_trans hyx (hx z hz)
              · exact hy z hz
            · exact ihm hlater fun left hleft right hright =>
                hne left hleft right (List.mem_cons_of_mem y hright)

theorem pairwise_toList (a : Assignment) :
    a.toList.Pairwise fun left right => left.1 < right.1 := by
  refine pairwise_merge ?_ ?_ ?_
  · exact List.pairwise_map.mpr a.positive.sorted
  · exact List.pairwise_map.mpr a.negative.sorted
  · simp only [List.mem_map]
    rintro _ ⟨v, hpos, rfl⟩ _ ⟨w, hneg, rfl⟩ (rfl : v = w)
    exact a.disjoint v hpos hneg

/-- The two sets together list each variable that has a value once. -/
theorem size_domain_eq (a : Assignment) : a.domain.size = a.size := by
  have hnodup : (a.positive.toList ++ a.negative.toList).Nodup := by
    refine List.nodup_append'.mpr ⟨a.positive.nodup_toList, a.negative.nodup_toList, ?_⟩
    exact fun v hpos hneg => a.disjoint v hpos hneg
  have hperm : a.domain.toList.Perm (a.positive.toList ++ a.negative.toList) := by
    refine (List.perm_ext_iff_of_nodup a.domain.nodup_toList hnodup).mpr fun v => ?_
    rw [List.mem_append]
    exact VariableSet.mem_union
  rw [VariableSet.size, hperm.length_eq, List.length_append]
  rfl

theorem ncard_isSome_get? (a : Assignment) :
    {v | (a.get? v).isSome = true}.Finite ∧ {v | (a.get? v).isSome = true}.ncard = a.size := by
  have hset : {v | (a.get? v).isSome = true} = (a.domain.toList.toFinset : Set Variable) := by
    ext v
    rw [Finset.mem_coe, List.mem_toFinset]
    exact mem_domain.symm
  rw [hset]
  refine ⟨Finset.finite_toSet _, ?_⟩
  rw [Set.ncard_coe_finset, List.toFinset_card_of_nodup a.domain.nodup_toList, ← size_domain_eq]
  rfl

theorem isEmpty_iff : a.isEmpty = true ↔ ∀ v, a.get? v = none := by
  have hnone : ∀ v, a.get? v = none ↔ v ∉ a.positive ∧ v ∉ a.negative := by
    intro v
    rw [← Option.not_isSome_iff_eq_none, ← mem_domain, domain, VariableSet.mem_union, not_or]
  simp only [isEmpty, Bool.and_eq_true, VariableSet.isEmpty_iff, hnone, forall_and]

/-- An assignment of variables given out in a session agrees with the map of its
values. -/
theorem represents_get? (hr : r.Extends .empty) (ha : ∀ v ∈ a.domain, r.Issued v) :
    a.Represents a.get? := by
  have hsorted : a.toList.Pairwise fun left right => left.1.number < right.1.number := by
    have hdomain : ∀ {u value}, (u, value) ∈ a.toList → r.Issued u := by
      intro u value hu
      apply ha
      rw [mem_domain, mem_toList.mp hu]
      rfl
    apply a.pairwise_toList.imp_of_mem
    rintro ⟨v, _⟩ ⟨w, _⟩ hv hw
    exact ((hdomain hv).lt_iff_number_lt (hdomain hw) hr).mp
  exact {
    disjoint := fun v h => a.disjoint v h.1 h.2
    finite := a.ncard_isSome_get?.1
    get?_eq := fun _ => rfl
    contains_iff := fun v => by rw [contains_eq_isSome_get?]
    size_eq := a.ncard_isSome_get?.2.symm
    mem_domain_iff := fun _ => mem_domain
    size_domain := a.size_domain_eq
    isEmpty_iff := isEmpty_iff
    mem_toList_iff := fun _ _ => mem_toList
    toList_sorted := hsorted }

/-- What a session can make of assignments, from the empty one on, while it enrolls
names. -/
inductive Obtained : Registry → Assignment → Prop where
  | empty (r : Registry) : Obtained r ∅
  | later {r later : Registry} {a : Assignment} :
      later.Extends r → Obtained r a → Obtained later a
  | insert {r : Registry} {a : Assignment} {v : Variable} (value : Bool) :
      Obtained r a → r.Issued v → Obtained r (a.insert v value)
  | erase {r : Registry} {a : Assignment} (v : Variable) :
      Obtained r a → Obtained r (a.erase v)
  | ofPairs {r : Registry} {pairs : List (Variable × Bool)} :
      (∀ pair ∈ pairs, r.Issued pair.1) → Obtained r (.ofPairs pairs)
  | read {r : Registry} {a : Assignment} {text : String} :
      (r.readAssignment text).1 = .ok a → Obtained (r.readAssignment text).2 a
  | restrict {r : Registry} {a : Assignment} (s : VariableSet) :
      Obtained r a → Obtained r (a.restrict s)
  | override {r : Registry} {a b : Assignment} :
      Obtained r a → Obtained r b → Obtained r (a.override b)
  | assignmentAt {r : Registry} {e : Enumeration} (position : UInt64) :
      (∀ v ∈ e.vocabulary, r.Issued v) → Obtained r (e.assignmentAt position)

theorem not_mem_domain_empty : v ∉ (∅ : Assignment).domain := by
  rw [mem_domain, get?_empty]
  exact nofun

theorem mem_domain_insert {value : Bool} :
    u ∈ (a.insert v value).domain ↔ u = v ∨ u ∈ a.domain := by
  rw [mem_domain, get?_insert, mem_domain]
  by_cases h : u = v <;> simp [h]

theorem mem_domain_foldl_insert {pairs : List (Variable × Bool)} :
    v ∈ (pairs.foldl (fun a pair => a.insert pair.1 pair.2) a).domain ↔
      v ∈ a.domain ∨ v ∈ pairs.map Prod.fst := by
  induction pairs generalizing a with
  | nil => simp
  | cons pair rest ih =>
      rw [List.foldl_cons, ih, mem_domain_insert, List.map_cons, List.mem_cons, or_assoc,
        or_left_comm]

end Assignment

namespace Registry

open Assignment

variable {r : Registry} {a b : Assignment}

theorem extends_readItems (r : Registry) (a : Assignment) (items : List (List Char)) :
    (r.readItems a items).2.Extends r := by
  induction items generalizing r a with
  | nil => exact .refl r
  | cons item rest ih =>
      have hextends := r.extends_trimmedVariable? (signedName item).1
      simp only [readItems]
      split
      · rename_i v between hread
        rw [hread] at hextends
        exact (ih between _).trans hextends
      · rename_i between hread
        rw [hread] at hextends
        exact hextends

/-- Reading an assignment only enrolls names, whether it succeeds or not. -/
theorem extends_readAssignment (r : Registry) (text : String) :
    (r.readAssignment text).2.Extends r := by
  have hextends := r.extends_readItems ∅ (itemsOf text.toList)
  unfold readAssignment
  split
  · rename_i a later hread
    rw [hread] at hextends
    exact hextends
  · rename_i later hread
    rw [hread] at hextends
    exact hextends

/-- The items of a text give values to variables given out. -/
theorem issued_of_readItems {items : List (List Char)} (ha : ∀ v ∈ a.domain, r.Issued v)
    (h : (r.readItems a items).1 = some b) :
    ∀ v ∈ b.domain, (r.readItems a items).2.Issued v := by
  induction items generalizing r a with
  | nil =>
      cases h
      exact ha
  | cons item rest ih =>
      simp only [readItems] at h ⊢
      split at h
      · rename_i v between hread
        have hextends := r.extends_trimmedVariable? (signedName item).1
        have hissued := issued_of_trimmedVariable? (congrArg Prod.fst hread)
        rw [hread] at hextends hissued
        refine ih (fun u hu => ?_) h
        rcases mem_domain_insert.mp hu with rfl | hu
        · exact hissued
        · exact hextends.issued (ha u hu)
      · cases h

/-- So do the texts that are read as assignments. -/
theorem issued_of_readAssignment {text : String} (h : (r.readAssignment text).1 = .ok a) :
    ∀ v ∈ a.domain, (r.readAssignment text).2.Issued v := by
  unfold readAssignment at h ⊢
  split at h
  · rename_i read later hread
    cases h
    have hissued := issued_of_readItems (fun v hv => absurd hv not_mem_domain_empty)
      (congrArg Prod.fst hread)
    rw [hread] at hissued
    exact hissued
  · cases h

end Registry

namespace Assignment

variable {a b : Assignment} {u v : Variable} {r : Registry}

/-- All variables that have a value were given out in the session. -/
theorem Obtained.issued (h : Obtained r a) : ∀ v ∈ a.domain, r.Issued v := by
  induction h with
  | empty r => exact fun v hv => absurd hv not_mem_domain_empty
  | later hextends _ ih => exact fun v hv => hextends.issued (ih v hv)
  | insert value _ hv ih =>
      intro u hu
      rcases mem_domain_insert.mp hu with rfl | hu
      · exact hv
      · exact ih u hu
  | erase v _ ih =>
      intro u hu
      apply ih
      rw [mem_domain, get?_erase] at hu
      split at hu
      · cases hu
      · exact mem_domain.mpr hu
  | ofPairs hpairs =>
      intro v hv
      rcases mem_domain_foldl_insert.mp hv with hv | hv
      · exact absurd hv not_mem_domain_empty
      · obtain ⟨pair, hpair, rfl⟩ := List.mem_map.mp hv
        exact hpairs pair hpair
  | read hread => exact Registry.issued_of_readAssignment hread
  | restrict s _ ih =>
      intro v hv
      apply ih
      rw [mem_domain, get?_restrict] at hv
      split at hv
      · exact mem_domain.mpr hv
      · cases hv
  | override _ _ iha ihb =>
      intro v hv
      rw [mem_domain, get?_override, Option.isSome_or, Bool.or_eq_true] at hv
      rcases hv with hv | hv
      · exact ihb v (mem_domain.mpr hv)
      · exact iha v (mem_domain.mpr hv)
  | assignmentAt position hvocabulary =>
      intro v hv
      rw [Enumeration.assignmentAt_eq, Vocabulary.domain_assign, Vocabulary.mem_toSet] at hv
      exact hvocabulary v hv

/-- The map of an assignment made in a session agrees with all that can be asked of
the assignment, so it is enough to know the single values. -/
theorem Obtained.represents {M : Variable → Option Bool} (h : Obtained r a)
    (hr : r.Extends .empty) (hM : ∀ v, a.get? v = M v) : a.Represents M := by
  rw [← funext hM]
  exact represents_get? hr h.issued

/-- Every assignment that a session makes refines a finite partial map, and the
operations act on the maps. -/
theorem refines_partial_map (hr : r.Extends .empty) (h : Obtained r a) :
    ∃ M, a.Represents M ∧
      (∀ v value, r.Issued v →
        (a.insert v value).Represents (Function.update M v (some value))) ∧
      (∀ v, (a.erase v).Represents (Function.update M v none)) ∧
      (∀ s : VariableSet, (a.restrict s).Represents fun v => if v ∈ s then M v else none) ∧
      ∀ b N, Obtained r b → b.Represents N →
        (a.override b).Represents (fun v => (N v).or (M v)) ∧ (a = b ↔ M = N) := by
  refine ⟨a.get?, h.represents hr fun _ => rfl, ?_, ?_, ?_, ?_⟩
  · intro v value hv
    apply (h.insert value hv).represents hr
    intro u
    rw [get?_insert, Function.update_apply]
  · intro v
    apply (h.erase v).represents hr
    intro u
    rw [get?_erase, Function.update_apply]
  · intro s
    exact (h.restrict s).represents hr fun _ => get?_restrict
  · intro b N hb hN
    obtain rfl : b.get? = N := funext hN.get?_eq
    refine ⟨(h.override hb).represents hr fun _ => get?_override, ?_⟩
    constructor
    · exact fun hsame => congrArg get? hsame
    · exact fun hmaps => ext_get? fun v => congrFun hmaps v

/-- Two texts are read one after the other; where both give a value, that of the second
text counts. -/
theorem override_of_read_texts :
    let first := Registry.empty.readAssignment "é ~b"
    let second := first.2.readAssignment "b;!c"
    ∃ a b M N, first.1 = .ok a ∧ second.1 = .ok b ∧ a.Represents M ∧ b.Represents N ∧
      M ⟨'b', 98⟩ = some false ∧ N ⟨'b', 98⟩ = some true ∧ M ⟨'é', 128⟩ = some true ∧
      (a.override b).Represents (fun v => (N v).or (M v)) ∧
      (a.override b).toList = [(⟨'b', 98⟩, true), (⟨'c', 99⟩, false), (⟨'é', 128⟩, true)] := by
  intro first second
  let a : Assignment := .ofPairs [(⟨'é', 128⟩, true), (⟨'b', 98⟩, false)]
  let b : Assignment := .ofPairs [(⟨'b', 98⟩, true), (⟨'c', 99⟩, false)]
  have ha : first.1 = .ok a := by decide +kernel
  have hb : second.1 = .ok b := by decide +kernel
  have hlater : second.2.Extends first.2 := first.2.extends_readAssignment "b;!c"
  have hr : second.2.Extends .empty :=
    hlater.trans (Registry.empty.extends_readAssignment "é ~b")
  have hobtained : Obtained second.2 b := .read hb
  have hN : b.Represents b.get? := hobtained.represents hr fun _ => rfl
  obtain ⟨M, hM, _, _, _, hpairs⟩ := refines_partial_map hr (.later hlater (.read ha))
  obtain ⟨hoverride, _⟩ := hpairs b b.get? hobtained hN
  refine ⟨a, b, M, b.get?, ha, hb, hM, hN, ?_, ?_, ?_, hoverride, ?_⟩
  · rw [← hM.get?_eq]
    decide +kernel
  · decide +kernel
  · rw [← hM.get?_eq]
    decide +kernel
  · have htrue : (a.override b).positive.toList = [⟨'b', 98⟩, ⟨'é', 128⟩] := by decide +kernel
    have hfalse : (a.override b).negative.toList = [⟨'c', 99⟩] := by decide +kernel
    simp [toList, htrue, hfalse, Variable.lt_iff]

end Assignment

end Sentential
