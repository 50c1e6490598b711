/-
Sets by number.  A set of variables may be kept as the set of their numbers alone, and
listed by looking the numbers up in the registry.  While a session reads texts and
changes any number of sets of variables that it has obtained, a set so kept, the set in
listing order and the set in the mathematical sense stay the same set: no number in use is
shared, lost or past looking up.
-/
import Mathlib.Data.Finset.Sort
import Mathlib.Data.Set.Card
import Sentential.Proofs.Sessions

namespace Sentential

variable {ι σ : Type}

/-- What is done in a session with sets of variables, one in each slot. -/
inductive SetAction (ι : Type) where
  | read (x : Reading)
  | insert (i : ι) (v : Variable)
  | remove (i : ι) (v : Variable)
  | extend (i : ι) (vs : List Variable)
  | collect (i : ι) (vs : List Variable)
  | unite (i j : ι)
  | intersect (i j : ι)
  | subtract (i j : ι)
deriving Repr

namespace SetAction

/-- The texts that an action reads. -/
def readings : SetAction ι → Session
  | read x => [x]
  | _ => []

/-- The variables that an action names. -/
def mentioned : SetAction ι → List Variable
  | insert _ v | remove _ v => [v]
  | extend _ vs | collect _ vs => vs
  | read _ | unite _ _ | intersect _ _ | subtract _ _ => []

end SetAction

/-- The texts that actions read. -/
def sessionOf (actions : List (SetAction ι)) : Session := actions.flatMap SetAction.readings

/-- Every variable that an action names was obtained by the texts read before. -/
def NamesObtained (actions : List (SetAction ι)) : Prop :=
  ∀ before a after, actions = before ++ a :: after →
    ∀ v ∈ a.mentioned, (sessionOf before).Obtains v

theorem namesObtained_iff {actions : List (SetAction ι)} :
    NamesObtained actions ↔ ∀ k : Fin actions.length, ∀ v ∈ actions[k].mentioned,
      (sessionOf (actions.take k)).Obtains v := by
  constructor
  · intro h k
    apply h (actions.take k) actions[k] (actions.drop (k + 1))
    rw [Fin.getElem_fin, ← List.drop_eq_getElem_cons, List.take_append_drop]
  · rintro h before a after rfl
    have hk := h ⟨before.length, by simp⟩
    simpa using hk

instance (actions : List (SetAction ι)) : Decidable (NamesObtained actions) :=
  decidable_of_iff _ namesObtained_iff.symm

/-- A way to keep sets of variables. -/
structure SetForm (σ : Type) where
  empty : σ
  insert : σ → Variable → σ
  remove : σ → Variable → σ
  extend : σ → List Variable → σ
  collect : List Variable → σ
  unite : σ → σ → σ
  intersect : σ → σ → σ
  subtract : σ → σ → σ

namespace SetForm

/-- Sets as lists in listing order. -/
def listed : SetForm VariableSet where
  empty := ∅
  insert := .insert
  remove := .erase
  extend := .insertAll
  collect := .ofList
  unite := (· ∪ ·)
  intersect := (· ∩ ·)
  subtract := (· \ ·)

/-- Sets of variables in the mathematical sense. -/
def mathematical : SetForm (Set Variable) where
  empty := ∅
  insert S v := S ∪ {v}
  remove S v := S \ {v}
  extend S vs := S ∪ {v | v ∈ vs}
  collect vs := {v | v ∈ vs}
  unite := (· ∪ ·)
  intersect := (· ∩ ·)
  subtract := (· \ ·)

/-- Sets of numbers, each for the variable that has it. -/
def numbered : SetForm (Finset Nat) where
  empty := ∅
  insert N v := Insert.insert v.number N
  remove N v := N.erase v.number
  extend N vs := vs.foldl (fun N v => Insert.insert v.number N) N
  collect vs := vs.foldl (fun N v => Insert.insert v.number N) ∅
  unite := (· ∪ ·)
  intersect := (· ∩ ·)
  subtract := (· \ ·)

variable [DecidableEq ι]

/-- The sets in all slots after an action. -/
def act (form : SetForm σ) (slots : ι → σ) : SetAction ι → ι → σ
  | .read _ => slots
  | .insert i v => Function.update slots i (form.insert (slots i) v)
  | .remove i v => Function.update slots i (form.remove (slots i) v)
  | .extend i vs => Function.update slots i (form.extend (slots i) vs)
  | .collect i vs => Function.update slots i (form.collect vs)
  | .unite i j => Function.update slots i (form.unite (slots i) (slots j))
  | .intersect i j => Function.update slots i (form.intersect (slots i) (slots j))
  | .subtract i j => Function.update slots i (form.subtract (slots i) (slots j))

/-- The sets in all slots after actions, all sets being empty at first. -/
def run (form : SetForm σ) (actions : List (SetAction ι)) : ι → σ :=
  actions.foldl form.act fun _ => form.empty

end SetForm

/-- The three forms of one set of variables given out. -/
structure SameSet (r : Registry) (s : VariableSet) (S : Set Variable) (N : Finset Nat) :
    Prop where
  issued : ∀ v ∈ S, r.Issued v
  mem_iff : ∀ v, v ∈ s ↔ v ∈ S
  number_mem_iff : ∀ v, r.Issued v → (v.number ∈ N ↔ v ∈ S)
  exists_issued : ∀ n ∈ N, ∃ v, r.Issued v ∧ v.number = n

namespace SameSet

variable {r later : Registry} {s t : VariableSet} {S T : Set Variable} {N M : Finset Nat}
  {v : Variable} {vs : List Variable}

theorem empty (r : Registry) : SameSet r ∅ ∅ ∅ := by
  constructor <;> simp

theorem insert (h : SameSet r s S N) (hr : r.Extends .empty) (hv : r.Issued v) :
    SameSet r (s.insert v) (S ∪ {v}) (Insert.insert v.number N) where
  issued := by
    rintro u (hu | rfl)
    · exact h.issued u hu
    · exact hv
  mem_iff u := by
    rw [VariableSet.mem_insert, h.mem_iff, Set.mem_union, Set.mem_singleton_iff, or_comm]
  number_mem_iff u hu := by
    rw [Finset.mem_insert, h.number_mem_iff u hu, hu.number_eq_iff hv hr, Set.mem_union,
      Set.mem_singleton_iff, or_comm]
  exists_issued n hn := by
    rcases Finset.mem_insert.mp hn with rfl | hn
    · exact ⟨v, hv, rfl⟩
    · exact h.exists_issued n hn

theorem remove (h : SameSet r s S N) (hr : r.Extends .empty) (hv : r.Issued v) :
    SameSet r (s.erase v) (S \ {v}) (N.erase v.number) where
  issued u hu := h.issued u hu.1
  mem_iff u := by
    rw [VariableSet.mem_erase, h.mem_iff]
    rfl
  number_mem_iff u hu := by
    rw [Finset.mem_erase, h.number_mem_iff u hu, ne_eq, hu.number_eq_iff hv hr, and_comm]
    rfl
  exists_issued n hn := h.exists_issued n (Finset.mem_of_mem_erase hn)

theorem extend (h : SameSet r s S N) (hr : r.Extends .empty) (hvs : ∀ v ∈ vs, r.Issued v) :
    SameSet r (s.insertAll vs) (S ∪ {v | v ∈ vs})
      (vs.foldl (fun N v => Insert.insert v.number N) N) := by
  induction vs generalizing s S N with
  | nil =>
      simp only [List.not_mem_nil, Set.ofPred_false, Set.union_empty]
      exact h
  | cons v rest ih =>
      have hrest := ih (h.insert hr (hvs v List.mem_cons_self))
        fun u hu => hvs u (List.mem_cons_of_mem v hu)
      have hset : S ∪ {u | u ∈ v :: rest} = S ∪ {v} ∪ {u | u ∈ rest} := by
        ext u
        simp [or_left_comm, or_assoc]
      rw [hset]
      exact hrest

theorem unite (hs : SameSet r s S N) (ht : SameSet r t T M) :
    SameSet r (s ∪ t) (S ∪ T) (N ∪ M) where
  issued := by
    rintro v (hv | hv)
    · exact hs.issued v hv
    · exact ht.issued v hv
  mem_iff v := by
    rw [VariableSet.mem_union, hs.mem_iff, ht.mem_iff, Set.mem_union]
  number_mem_iff v hv := by
    rw [Finset.mem_union, hs.number_mem_iff v hv, ht.number_mem_iff v hv, Set.mem_union]
  exists_issued n hn := by
    rcases Finset.mem_union.mp hn with hn | hn
    · exact hs.exists_issued n hn
    · exact ht.exists_issued n hn

theorem intersect (hs : SameSet r s S N) (ht : SameSet r t T M) :
    SameSet r (s ∩ t) (S ∩ T) (N ∩ M) where
  issued v hv := hs.issued v hv.1
  mem_iff v := by
    rw [VariableSet.mem_inter, hs.mem_iff, ht.mem_iff, Set.mem_inter_iff]
  number_mem_iff v hv := by
    rw [Finset.mem_inter, hs.number_mem_iff v hv, ht.number_mem_iff v hv, Set.mem_inter_iff]
  exists_issued n hn := hs.exists_issued n (Finset.mem_inter.mp hn).1

theorem subtract (hs : SameSet r s S N) (ht : SameSet r t T M) :
    SameSet r (s \ t) (S \ T) (N \ M) where
  issued v hv := hs.issued v hv.1
  mem_iff v := by
    rw [VariableSet.mem_sdiff, hs.mem_iff, ht.mem_iff, Set.mem_sdiff]
  number_mem_iff v hv := by
    rw [Finset.mem_sdiff, hs.number_mem_iff v hv, ht.number_mem_iff v hv, Set.mem_sdiff]
  exists_issued n hn := hs.exists_issued n (Finset.mem_sdiff.mp hn).1

/-- The forms stay the same set as more variables are given out: a new variable has a
number that is not in use. -/
theorem of_extends (h : SameSet r s S N) (hlater : later.Extends r) (hr : r.Extends .empty) :
    SameSet later s S N where
  issued v hv := hlater.issued (h.issued v hv)
  mem_iff := h.mem_iff
  number_mem_iff v hv := by
    constructor
    · intro hn
      obtain ⟨w, hw, hnumber⟩ := h.exists_issued _ hn
      obtain rfl := (hlater.issued hw).eq_of_number_eq hv (hlater.trans hr) hnumber
      exact (h.number_mem_iff w hw).mp hn
    · exact fun hS => (h.number_mem_iff v (h.issued v hS)).mpr hS
  exists_issued n hn := by
    obtain ⟨v, hv, hnumber⟩ := h.exists_issued n hn
    exact ⟨v, hlater.issued hv, hnumber⟩

/-- Members that differ have different numbers, so the list is in ascending order. -/
theorem ascending (h : SameSet r s S N) (hr : r.Extends .empty) :
    s.toList.Pairwise fun v w => v.number < w.number := by
  apply s.sorted.imp_of_mem
  intro v w hv hw
  have hissued := fun u hu => h.issued u ((h.mem_iff u).mp hu)
  exact ((hissued v hv).lt_iff_number_lt (hissued w hw) hr).mp

theorem mem_numbers_iff (h : SameSet r s S N) {n : Nat} :
    n ∈ N ↔ ∃ v ∈ S, v.number = n := by
  constructor
  · intro hn
    obtain ⟨v, hv, rfl⟩ := h.exists_issued n hn
    exact ⟨v, (h.number_mem_iff v hv).mp hn, rfl⟩
  · rintro ⟨v, hv, rfl⟩
    exact (h.number_mem_iff v (h.issued v hv)).mpr hv

/-- The numbers in ascending order are those of the list. -/
theorem sort_eq_map_number (h : SameSet r s S N) (hr : r.Extends .empty) :
    N.sort (· ≤ ·) = s.toList.map Variable.number := by
  have hascending : (s.toList.map Variable.number).Pairwise (· < ·) :=
    List.pairwise_map.mpr (h.ascending hr)
  have hmem : ∀ n, n ∈ N.sort (· ≤ ·) ↔ n ∈ s.toList.map Variable.number := by
    intro n
    rw [Finset.mem_sort, h.mem_numbers_iff, List.mem_map]
    simp only [VariableSet.mem_toList, h.mem_iff]
  have hperm : (N.sort (· ≤ ·)).Perm (s.toList.map Variable.number) :=
    (List.perm_ext_iff_of_nodup (N.sort_nodup _) (hascending.imp Nat.ne_of_lt)).mpr hmem
  exact hperm.eq_of_pairwise (fun m n _ _ hmn hnm => Nat.le_antisymm hmn hnm)
    (N.pairwise_sort _) (hascending.imp Nat.le_of_lt)

theorem ncard_eq (h : SameSet r s S N) : S.ncard = s.size := by
  have hset : S = (s.toList.toFinset : Set Variable) := by
    ext v
    rw [Finset.mem_coe, List.mem_toFinset, VariableSet.mem_toList, h.mem_iff]
  rw [hset, Set.ncard_coe_finset, List.toFinset_card_of_nodup s.nodup_toList]
  rfl

theorem isEmpty_iff (h : SameSet r s S N) :
    (s.isEmpty = true ↔ S = ∅) ∧ (N = ∅ ↔ S = ∅) := by
  rw [VariableSet.isEmpty_iff, Set.eq_empty_iff_forall_notMem,
    Finset.eq_empty_iff_forall_notMem]
  refine ⟨forall_congr' fun v => not_congr (h.mem_iff v), ?_⟩
  simp only [h.mem_numbers_iff]
  exact ⟨fun hnone v hv => hnone v.number ⟨v, hv, rfl⟩, fun hnone n ⟨v, hv, _⟩ => hnone v hv⟩

theorem subset_iff (hs : SameSet r s S N) (ht : SameSet r t T M) :
    (s ⊆ t ↔ S ⊆ T) ∧ (N ⊆ M ↔ S ⊆ T) := by
  constructor
  · rw [VariableSet.subset_iff]
    simp only [hs.mem_iff, ht.mem_iff]
    rfl
  · constructor
    · intro hsub v hv
      have hissued := hs.issued v hv
      exact (ht.number_mem_iff v hissued).mp (hsub ((hs.number_mem_iff v hissued).mpr hv))
    · intro hsub n hn
      obtain ⟨v, hv, hnumber⟩ := hs.mem_numbers_iff.mp hn
      exact ht.mem_numbers_iff.mpr ⟨v, hsub hv, hnumber⟩

theorem eq_iff (hs : SameSet r s S N) (ht : SameSet r t T M) :
    (s = t ↔ S = T) ∧ (N = M ↔ S = T) := by
  have hst := hs.subset_iff ht
  have hts := ht.subset_iff hs
  constructor
  · rw [VariableSet.ext_iff, Set.ext_iff]
    simp only [hs.mem_iff, ht.mem_iff]
  · rw [Finset.Subset.antisymm_iff, Set.Subset.antisymm_iff, hst.2, hts.2]

end SameSet

/-- The variables found by looking up numbers in ascending order; a number of no variable
is passed over. -/
def Registry.lookUpAll (r : Registry) (N : Finset Nat) : List Variable :=
  (N.sort (· ≤ ·)).filterMap r.variableAt?

/-- What is seen of one set in its three forms when `later` is the registry. -/
structure SeenAlike (later : Registry) (s : VariableSet) (S : Set Variable) (N : Finset Nat) :
    Prop where
  mem_toList_iff : ∀ v, v ∈ s.toList ↔ v ∈ S
  /-- Each member is listed once, in ascending order of numbers. -/
  ascending : s.toList.Pairwise fun v w => v.number < w.number
  lookUpAll_eq : later.lookUpAll N = s.toList
  /-- No number is passed over. -/
  isSome_variableAt? : ∀ n ∈ N, (later.variableAt? n).isSome = true
  size_eq : s.size = S.ncard ∧ N.card = S.ncard
  isEmpty_iff : (s.isEmpty = true ↔ S = ∅) ∧ (N = ∅ ↔ S = ∅)
  contains_iff : ∀ v, later.Issued v → (v ∈ s ↔ v ∈ S) ∧ (v.number ∈ N ↔ v ∈ S)

theorem SameSet.seenAlike {r : Registry} {s : VariableSet} {S : Set Variable} {N : Finset Nat}
    (h : SameSet r s S N) (hr : r.Extends .empty) : SeenAlike r s S N := by
  have hfound : ∀ v ∈ S, r.variableAt? v.number = some v :=
    fun v hv => hr.consistent.variableAt?_number (h.issued v hv)
  have hsort := h.sort_eq_map_number hr
  exact {
    mem_toList_iff := h.mem_iff
    ascending := h.ascending hr
    lookUpAll_eq := by
      have hlist : s.toList.filterMap (r.variableAt? ∘ Variable.number) =
          s.toList.filterMap some :=
        List.filterMap_congr fun v hv => hfound v ((h.mem_iff v).mp hv)
      rw [Registry.lookUpAll, hsort, List.filterMap_map, hlist, List.filterMap_some]
    isSome_variableAt? := by
      intro n hn
      obtain ⟨v, hv, rfl⟩ := h.mem_numbers_iff.mp hn
      rw [hfound v hv]
      rfl
    size_eq := by
      refine ⟨h.ncard_eq.symm, ?_⟩
      rw [h.ncard_eq, ← Finset.length_sort (· ≤ ·), hsort, List.length_map]
      rfl
    isEmpty_iff := h.isEmpty_iff
    contains_iff := fun v hv => ⟨h.mem_iff v, h.number_mem_iff v hv⟩ }

section Run

variable [DecidableEq ι] {slots : ι → VariableSet} {sets : ι → Set Variable}
  {numbers : ι → Finset Nat} {r : Registry}

/-- A change of one slot to the same set in all three forms. -/
theorem sameSet_update {i : ι} {s : VariableSet} {S : Set Variable} {N : Finset Nat}
    (h : ∀ j, SameSet r (slots j) (sets j) (numbers j)) (hi : SameSet r s S N) (j : ι) :
    SameSet r (Function.update slots i s j) (Function.update sets i S j)
      (Function.update numbers i N j) := by
  by_cases hj : j = i
  · subst hj
    simpa using hi
  · simpa [hj] using h j

/-- Every action keeps the three forms of each set the same. -/
theorem sameSet_act {a : SetAction ι} (h : ∀ i, SameSet r (slots i) (sets i) (numbers i))
    (hr : r.Extends .empty) (ha : ∀ v ∈ a.mentioned, r.Issued v) (i : ι) :
    SameSet r (SetForm.listed.act slots a i) (SetForm.mathematical.act sets a i)
      (SetForm.numbered.act numbers a i) := by
  cases a with
  | read x => exact h i
  | insert j v =>
      exact sameSet_update h ((h j).insert hr (ha v (List.mem_singleton_self v))) i
  | remove j v =>
      exact sameSet_update h ((h j).remove hr (ha v (List.mem_singleton_self v))) i
  | extend j vs => exact sameSet_update h ((h j).extend hr ha) i
  | collect j vs =>
      have hcollect := (SameSet.empty r).extend hr ha
      rw [Set.empty_union] at hcollect
      exact sameSet_update h hcollect i
  | unite j k => exact sameSet_update h ((h j).unite (h k)) i
  | intersect j k => exact sameSet_update h ((h j).intersect (h k)) i
  | subtract j k => exact sameSet_update h ((h j).subtract (h k)) i

/-- So do actions one after the other, as long as they name variables that were obtained
before. -/
theorem sameSet_run {actions : List (SetAction ι)} (h : NamesObtained actions) (i : ι) :
    SameSet (sessionOf actions).registry (SetForm.listed.run actions i)
      (SetForm.mathematical.run actions i) (SetForm.numbered.run actions i) := by
  induction actions using List.reverseRecOn generalizing i with
  | nil => exact .empty _
  | append_singleton actions a ih =>
      have hbefore : NamesObtained actions := by
        rintro before b after rfl v hv
        exact h before b (after ++ [a]) (by simp) v hv
      have ha : ∀ v ∈ a.mentioned, (sessionOf actions).registry.Issued v :=
        fun v hv => (h actions a [] rfl v hv).issued
      have hstep := sameSet_act (ih hbefore) (sessionOf actions).extends_empty ha i
      simp only [SetForm.run, List.foldl_append, List.foldl_cons, List.foldl_nil] at hstep ⊢
      have hsession : sessionOf (actions ++ [a]) = sessionOf actions ++ a.readings := by
        simp [sessionOf]
      rw [hsession]
      exact hstep.of_extends (Session.registry_append _ _) (sessionOf actions).extends_empty

/-- Whatever a session does to sets of variables that it has obtained, in whatever order
with its readings, each set is the mathematical set that the same actions give: to list it,
to count it, to ask it for a variable and to compare it with another, at this time or any
later one, by its members or by their numbers alone. -/
theorem sets_stand_for_mathematical_sets {actions : List (SetAction ι)}
    (h : NamesObtained actions) (more : Session) :
    let later := (sessionOf actions ++ more).registry
    let s := SetForm.listed.run actions
    let S := SetForm.mathematical.run actions
    let N := SetForm.numbered.run actions
    (∀ i, SeenAlike later (s i) (S i) (N i)) ∧
      (∀ i j, (s i ⊆ s j ↔ S i ⊆ S j) ∧ (N i ⊆ N j ↔ S i ⊆ S j)) ∧
      ∀ i j, (s i = s j ↔ S i = S j) ∧ (N i = N j ↔ S i = S j) := by
  intro later s S N
  have hsame : ∀ i, SameSet later (s i) (S i) (N i) := fun i =>
    (sameSet_run h i).of_extends (Session.registry_append _ _) (sessionOf actions).extends_empty
  refine ⟨fun i => ?_, fun i j => ?_, fun i j => ?_⟩
  · exact (hsame i).seenAlike (Session.extends_empty _)
  · exact (hsame i).subset_iff (hsame j)
  · exact (hsame i).eq_iff (hsame j)

/-- Two sets are changed while three texts are read, one of which is not read to its end;
after a fourth the numbers left in the first set are found. -/
theorem sets_of_interleaved_readings :
    let actions : List (SetAction Bool) :=
      [.read (.sentence "é|(b"), .insert true ⟨'b', 98⟩, .read (.character 'ж'),
        .collect false [⟨'ж', 129⟩, ⟨'é', 128⟩, ⟨'ж', 129⟩], .unite true false,
        .read (.assignment "~ñ"), .extend false [⟨'ñ', 130⟩, ⟨'b', 98⟩],
        .remove true ⟨'b', 98⟩, .intersect false true]
    let later := (sessionOf actions ++ [Reading.name "ø"]).registry
    let N := SetForm.numbered.run actions
    NamesObtained actions ∧ later.lookUpAll (N true) = [⟨'é', 128⟩, ⟨'ж', 129⟩] ∧
      N false = N true ∧ (SetForm.mathematical.run actions false).ncard = 2 := by
  intro actions later N
  have hobtained : NamesObtained actions := by decide +kernel
  obtain ⟨hseen, _, heq⟩ := sets_stand_for_mathematical_sets hobtained [.name "ø"]
  have hlist : (SetForm.listed.run actions true).toList = [⟨'é', 128⟩, ⟨'ж', 129⟩] := by
    decide +kernel
  have hsame : SetForm.listed.run actions false = SetForm.listed.run actions true := by
    decide +kernel
  have hsize : (SetForm.listed.run actions false).size = 2 := by decide +kernel
  refine ⟨hobtained, (hseen true).lookUpAll_eq.trans hlist, ?_, ?_⟩
  · exact (heq false true).2.mpr ((heq false true).1.mp hsame)
  · exact (hseen false).size_eq.1.symm.trans hsize

end Run

end Sentential
