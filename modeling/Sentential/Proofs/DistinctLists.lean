/-
Distinct lists by number.  A list of distinct variables may be kept as the variables in
order together with the set of their numbers; whether a variable is there is asked of the
numbers, while the length and the order are those of the variables.  Whatever is done to a
list of variables that a session has obtained, the two stay in step, because no two such
variables share a number.  What is collected from a text is listed in the order in which
the text first shows it.
-/
import Sentential.Proofs.Malformed
import Sentential.Proofs.NumberedSets
import Sentential.Proofs.Transcription

namespace Sentential

/-- The numbers of the members. -/
def VariableSet.numbers (s : VariableSet) : Finset Nat :=
  (s.toList.map Variable.number).toFinset

/-- The numbers tell the members from other variables given out. -/
theorem VariableSet.number_mem_numbers_iff {r : Registry} {s : VariableSet} {v : Variable}
    (hr : r.Extends .empty) (hs : ∀ w ∈ s, r.Issued w) (hv : r.Issued v) :
    v.number ∈ s.numbers ↔ v ∈ s := by
  rw [numbers, List.mem_toFinset, List.mem_map]
  constructor
  · rintro ⟨w, hw, hnumber⟩
    exact (hs w hw).eq_of_number_eq hv hr hnumber ▸ hw
  · exact fun hmem => ⟨v, hmem, rfl⟩

/-- Variables in order, and the set of their numbers. -/
structure NumberedList where
  order : List Variable
  numbers : Finset Nat
deriving DecidableEq

namespace NumberedList

/-- The list of no variable. -/
def empty : NumberedList := ⟨[], ∅⟩

/-- Puts a variable at the end unless its number is in use, and tells whether it did. -/
def insert (k : NumberedList) (v : Variable) : Bool × NumberedList :=
  if v.number ∈ k.numbers then (false, k)
  else (true, ⟨k.order ++ [v], Insert.insert v.number k.numbers⟩)

/-- The list built again from the variables whose numbers are not in a set. -/
def without (k : NumberedList) (N : Finset Nat) : NumberedList :=
  (k.order.filter (·.number ∉ N)).foldl (fun k v => (k.insert v).2) empty

end NumberedList

/-- What is done to a list of distinct variables. -/
inductive ListAction where
  | insert (v : Variable)
  | gather (vs : List Variable)
  | without (s : VariableSet)
  | collect (p : Proposition)
deriving DecidableEq

/-- The variables that an action names. -/
def ListAction.mentioned : ListAction → List Variable
  | insert v => [v]
  | gather vs => vs
  | without s => s.toList
  | collect p => p.symbols.filterMap Symbol.atom?

/-- A way to keep lists of distinct variables. -/
structure ListForm (κ : Type) where
  empty : κ
  insert : κ → Variable → κ
  without : κ → VariableSet → κ

namespace ListForm

variable {κ : Type}

/-- Lists as vocabularies. -/
def vocabulary : ListForm Vocabulary where
  empty := ∅
  insert := .insert
  without := .without

/-- Lists with the set of their numbers. -/
def numbered : ListForm NumberedList where
  empty := .empty
  insert k v := (k.insert v).2
  without k s := k.without s.numbers

/-- The list after an action.  To gather variables is to begin again. -/
def act (form : ListForm κ) (l : κ) : ListAction → κ
  | .insert v => form.insert l v
  | .gather vs => vs.foldl form.insert form.empty
  | .without s => form.without l s
  | .collect p => (p.symbols.filterMap Symbol.atom?).foldl form.insert l

/-- The list after actions, being empty at first. -/
def run (form : ListForm κ) (actions : List ListAction) : κ := actions.foldl form.act form.empty

end ListForm

/-- The two forms of one list of variables given out. -/
structure SameList (r : Registry) (l : Vocabulary) (k : NumberedList) : Prop where
  order_eq : k.order = l.toList
  sameSet : SameSet r l.toSet {v | v ∈ l} k.numbers

namespace SameList

variable {r : Registry} {l m : Vocabulary} {k j : NumberedList} {v : Variable}
  {vs : List Variable} {s : VariableSet}

theorem empty (r : Registry) : SameList r ∅ .empty := by
  have hset : {v | v ∈ (∅ : Vocabulary)} = (∅ : Set Variable) := by
    ext v
    simp
  exact ⟨rfl, hset ▸ SameSet.empty r⟩

theorem number_mem_iff (h : SameList r l k) (hv : r.Issued v) : v.number ∈ k.numbers ↔ v ∈ l :=
  h.sameSet.number_mem_iff v hv

/-- The numbers tell whether a variable is new. -/
theorem insert_fst (h : SameList r l k) (hv : r.Issued v) :
    (k.insert v).1 = (l.insertNew? v).isSome := by
  rw [NumberedList.insert]
  split
  · rename_i hnumber
    rw [Vocabulary.insertNew?_eq_none_iff.mpr ((h.number_mem_iff hv).mp hnumber)]
    rfl
  · rename_i hnumber
    have hnew := mt (fun hnone => (h.number_mem_iff hv).mpr
      (Vocabulary.insertNew?_eq_none_iff.mp hnone)) hnumber
    exact (Option.isSome_iff_ne_none.mpr hnew).symm

theorem insert (h : SameList r l k) (hr : r.Extends .empty) (hv : r.Issued v) :
    SameList r (l.insert v) (k.insert v).2 := by
  rw [NumberedList.insert]
  split
  · rename_i hnumber
    rw [Vocabulary.insert_of_mem ((h.number_mem_iff hv).mp hnumber)]
    exact h
  · rename_i hnumber
    have hnew : v ∉ l := mt (h.number_mem_iff hv).mpr hnumber
    refine ⟨?_, ?_⟩
    · rw [Vocabulary.toList_insert, if_neg hnew, h.order_eq]
    · have hset : {u | u ∈ l.insert v} = {u | u ∈ l} ∪ {v} := by
        ext u
        exact Vocabulary.mem_insert
      rw [Vocabulary.toSet_insert, hset]
      exact h.sameSet.insert hr hv

theorem insertAll (h : SameList r l k) (hr : r.Extends .empty) (hvs : ∀ v ∈ vs, r.Issued v) :
    SameList r (vs.foldl Vocabulary.insert l) (vs.foldl (fun k v => (k.insert v).2) k) := by
  induction vs generalizing l k with
  | nil => exact h
  | cons v rest ih =>
      have hstep := h.insert hr (hvs v List.mem_cons_self)
      exact ih hstep fun u hu => hvs u (List.mem_cons_of_mem v hu)

/-- What is left is the same list, and to build it again changes nothing. -/
theorem without (h : SameList r l k) (hr : r.Extends .empty) (hs : ∀ v ∈ s, r.Issued v) :
    SameList r (l.without s) (k.without s.numbers) := by
  have hissued : ∀ v ∈ l, r.Issued v := h.sameSet.issued
  have hleft : k.order.filter (·.number ∉ s.numbers) = (l.without s).toList := by
    rw [h.order_eq]
    refine List.filter_congr fun v hv => decide_eq_decide.mpr (not_congr ?_)
    exact VariableSet.number_mem_numbers_iff hr hs (hissued v hv)
  have hkept : ∀ v ∈ (l.without s).toList, r.Issued v :=
    fun v hv => hissued v (Vocabulary.mem_without.mp hv).1
  have hbuilt := (SameList.empty r).insertAll hr hkept
  have hagain : (l.without s).toList.foldl Vocabulary.insert ∅ = l.without s :=
    (l.without s).ofList_toList
  rw [NumberedList.without, hleft]
  rwa [hagain] at hbuilt

/-- Lists are the same in one form just when they are in the other. -/
theorem eq_iff (h : SameList r l k) (h' : SameList r m j) : k = j ↔ l = m := by
  constructor
  · intro hkj
    apply Vocabulary.toList_injective
    rw [← h.order_eq, ← h'.order_eq, hkj]
  · rintro rfl
    have horder : k.order = j.order := h.order_eq.trans h'.order_eq.symm
    have hnumbers : k.numbers = j.numbers := (h.sameSet.eq_iff h'.sameSet).2.mpr rfl
    cases k
    cases j
    cases horder
    cases hnumbers
    rfl

end SameList

/-- Every action keeps the two forms the same list. -/
theorem sameList_act {r : Registry} {l : Vocabulary} {k : NumberedList} {a : ListAction}
    (h : SameList r l k) (hr : r.Extends .empty) (ha : ∀ v ∈ a.mentioned, r.Issued v) :
    SameList r (ListForm.vocabulary.act l a) (ListForm.numbered.act k a) := by
  cases a with
  | insert v => exact h.insert hr (ha v (List.mem_singleton_self v))
  | gather vs => exact (SameList.empty r).insertAll hr ha
  | without s => exact h.without hr ha
  | collect p => exact h.insertAll hr ha

/-- So do actions one after the other. -/
theorem sameList_run {r : Registry} {actions : List ListAction} (hr : r.Extends .empty)
    (h : ∀ a ∈ actions, ∀ v ∈ a.mentioned, r.Issued v) :
    SameList r (ListForm.vocabulary.run actions) (ListForm.numbered.run actions) := by
  induction actions using List.reverseRecOn with
  | nil => exact .empty r
  | append_singleton actions a ih =>
      have hbefore := ih fun b hb => h b (List.mem_append_left [a] hb)
      have hstep := sameList_act hbefore hr (h a (by simp))
      simpa only [ListForm.run, List.foldl_append, List.foldl_cons, List.foldl_nil] using hstep

/-- What is seen of a list in its two forms when `session` has been read. -/
structure ListedAlike (session : Session) (l : Vocabulary) (k : NumberedList) : Prop where
  order_eq : k.order = l.toList
  nodup : k.order.Nodup
  mem_numbers_iff : ∀ n, n ∈ k.numbers ↔ ∃ v ∈ k.order, v.number = n
  contains_iff : ∀ v, session.Obtains v → (v.number ∈ k.numbers ↔ v ∈ l)
  /-- The numbers are those of the set of the variables. -/
  toSet_eq : session.registry.lookUpAll k.numbers = l.toSet.toList
  size_eq : l.size = k.order.length ∧ l.toSet.size = k.order.length ∧
    k.numbers.card = k.order.length
  /-- A variable is added, and said to be, just when it is new. -/
  insert_eq : ∀ v, session.Obtains v →
    (k.insert v).1 = decide (v ∉ l) ∧ (l.insertNew? v).isSome = decide (v ∉ l) ∧
      (k.insert v).2.order = (l.insert v).toList ∧
      (l.insert v).toList = if v ∈ l then l.toList else l.toList ++ [v]
  /-- What is left stands in the same order. -/
  without_eq : ∀ s : VariableSet, (∀ v ∈ s, session.Obtains v) →
    (k.without s.numbers).order = (l.without s).toList ∧
      (l.without s).toList = l.toList.filter (· ∉ s)

theorem SameList.card_numbers {r : Registry} {l : Vocabulary} {k : NumberedList}
    (h : SameList r l k) (hr : r.Extends .empty) : k.numbers.card = l.size := by
  obtain ⟨hsize, hcard⟩ := (h.sameSet.seenAlike hr).size_eq
  rw [hcard, ← hsize, l.size_toSet]

theorem SameList.listedAlike {session : Session} {l : Vocabulary} {k : NumberedList}
    (h : SameList session.registry l k) : ListedAlike session l k := by
  have hr := session.extends_empty
  exact {
    order_eq := h.order_eq
    nodup := h.order_eq ▸ l.nodup
    mem_numbers_iff := by
      intro n
      rw [h.order_eq]
      exact h.sameSet.mem_numbers_iff
    contains_iff := fun v hv => h.number_mem_iff hv.issued
    toSet_eq := (h.sameSet.seenAlike hr).lookUpAll_eq
    size_eq := by
      rw [h.card_numbers hr, l.size_toSet, h.order_eq]
      exact ⟨rfl, rfl, rfl⟩
    insert_eq := by
      intro v hv
      have hadded : (l.insertNew? v).isSome = decide (v ∉ l) := by
        rw [Bool.eq_iff_iff, decide_eq_true_iff, Option.isSome_iff_ne_none, ne_eq,
          Vocabulary.insertNew?_eq_none_iff]
      exact ⟨(h.insert_fst hv.issued).trans hadded, hadded, (h.insert hr hv.issued).order_eq,
        Vocabulary.toList_insert⟩
    without_eq := fun s hs => ⟨(h.without hr fun v hv => (hs v hv).issued).order_eq, rfl⟩ }

/-- The vocabulary of a text lists the names in it. -/
theorem Registry.toList_vocabulary_of_parse {r : Registry} {text : String} {s : Sentence}
    (h : (r.parse text).1 = .ok s) :
    s.vocabulary.toList = (namesOf text.toList).map (r.parse text).2.variableOf := by
  rw [Sentence.vocabulary, Vocabulary.toList_ofList, occurrences_eq_of_parse h,
    eraseDups_map_of_injective (r.parse text).2.variableOf_injective]
  rfl

/-- What is collected from a text that a session reads is the vocabulary of its sentence. -/
theorem Session.sameList_of_parse {session : Session} {text : String} {s : Sentence}
    (h : (session.registry.parse text).1 = .ok s) :
    SameList (registry (session ++ [.sentence text])) s.vocabulary
      (ListForm.numbered.run [.collect (.sentence s)]) := by
  have hissued : ∀ v ∈ ListAction.mentioned (.collect (.sentence s)),
      (registry (session ++ [.sentence text])).Issued v := by
    intro v hv
    have hgiven : v ∈ session.registry.given (.sentence text) :=
      List.mem_flatMap.mpr ⟨s, mem_toList_toOption.mpr h, hv⟩
    exact (obtains_of_mem_given hgiven).issued
  exact sameList_act (.empty _) (extends_empty _) hissued

/-- Whatever is done to a list of variables that a session has obtained, the variables in
order and the set of their numbers are of one list of distinct variables, in which each
stands where it was first put; and the list of a sentence, well formed or not, has each name
in its text once, in the order in which the names first appear there. -/
theorem lists_keep_first_occurrences {session : Session} {actions : List ListAction}
    (h : ∀ a ∈ actions, ∀ v ∈ a.mentioned, session.Obtains v) :
    let l := ListForm.vocabulary.run actions
    let k := ListForm.numbered.run actions
    ListedAlike session l k ∧
      (∀ others : List ListAction, (∀ a ∈ others, ∀ v ∈ a.mentioned, session.Obtains v) →
        (k = ListForm.numbered.run others ↔ l = ListForm.vocabulary.run others)) ∧
      ∀ (text : String) (s : Sentence), (session.registry.parse text).1 = .ok s →
        let collected := ListForm.numbered.run [.collect (.sentence s)]
        let names := collected.order.map Variable.name
        collected.order = s.vocabulary.toList ∧ names.Nodup ∧
          (∀ c, c ∈ names ↔ c ∈ text.toList ∧ ¬ Reserved c) ∧
          names.Pairwise (fun c d => text.toList.idxOf c < text.toList.idxOf d) ∧
          s.vocabulary.size = collected.numbers.card ∧
          s.vocabulary.size = s.vocabulary.toSet.size := by
  intro l k
  have hsame : ∀ actions : List ListAction,
      (∀ a ∈ actions, ∀ v ∈ a.mentioned, session.Obtains v) →
        SameList session.registry (ListForm.vocabulary.run actions)
          (ListForm.numbered.run actions) :=
    fun actions h => sameList_run session.extends_empty fun a ha v hv => (h a ha v hv).issued
  refine ⟨(hsame actions h).listedAlike, fun others hothers => ?_, fun text s hread => ?_⟩
  · exact (hsame actions h).eq_iff (hsame others hothers)
  · intro collected names
    have hcollected := Session.sameList_of_parse hread
    have hnames : names = namesOf text.toList := by
      have horder := hcollected.order_eq.trans (Registry.toList_vocabulary_of_parse hread)
      exact (congrArg (List.map Variable.name) horder).trans
        ((List.map_map ..).trans (List.map_id _))
    have hpairwise := pairwise_idxOf_namesOf text.toList
    rw [← hnames] at hpairwise
    refine ⟨hcollected.order_eq, ?_, fun c => ?_, hpairwise, ?_, s.vocabulary.size_toSet.symm⟩
    · exact hpairwise.imp fun hlt heq => by simp [heq] at hlt
    · rw [hnames, mem_namesOf]
    · exact (hcollected.card_numbers (Session.extends_empty _)).symm

/-- A variable is put in, two more are collected, one of these is taken out and comes back
last.  The text that named two of them first was not read to its end. -/
theorem lists_of_unfinished_reading :
    let b : Variable := ⟨'b', 98⟩
    let ñ : Variable := ⟨'ñ', 128⟩
    let é : Variable := ⟨'é', 129⟩
    let session : Session := [.sentence "(ñ|b", .character 'é']
    let collected : Sentence := ⟨[.atom b, .atom é, .connective .conjunction, .atom ñ]⟩
    let actions : List ListAction := [.insert é, .collect (.sentence collected),
      .without (.ofList [b]), .insert ñ, .insert b]
    let k := ListForm.numbered.run actions
    (∀ a ∈ actions, ∀ v ∈ a.mentioned, session.Obtains v) ∧ k.order = [é, ñ, b] ∧
      k.numbers.card = 3 ∧ (k.insert ñ).1 = false ∧
      session.registry.lookUpAll k.numbers = [b, ñ, é] ∧
      ∃ s : Sentence, (session.registry.parse "é&&b ~é").1 = .ok s ∧
        (ListForm.numbered.run [.collect (.sentence s)]).order = [é, b] ∧
        s.vocabulary.toSet.toList = [b, é] := by
  intro b ñ é session collected actions k
  have hobtained : ∀ a ∈ actions, ∀ v ∈ a.mentioned, session.Obtains v := by decide +kernel
  obtain ⟨halike, _, htext⟩ := lists_keep_first_occurrences hobtained
  have hlist : (ListForm.vocabulary.run actions).toList = [é, ñ, b] := by decide +kernel
  have hset : (ListForm.vocabulary.run actions).toSet.toList = [b, ñ, é] := by decide +kernel
  have hmem : ñ ∈ ListForm.vocabulary.run actions := by decide +kernel
  have horder : k.order = [é, ñ, b] := halike.order_eq.trans hlist
  have hissued : session.Obtains ñ := by decide +kernel
  obtain ⟨hadded, _⟩ := halike.insert_eq ñ hissued
  let s : Sentence := ⟨[.atom é, .connective .conjunction, .atom b, .atom é,
    .connective .negation, .connective .conjunction]⟩
  have hread : (session.registry.parse "é&&b ~é").1 = .ok s := by decide +kernel
  obtain ⟨hcollected, _⟩ := htext _ s hread
  refine ⟨hobtained, horder, ?_, ?_, halike.toSet_eq.trans hset, s, hread, ?_, by decide +kernel⟩
  · rw [halike.size_eq.2.2, horder]
    rfl
  · rw [hadded, decide_eq_false (not_not.mpr hmem)]
  · exact hcollected.trans (by decide +kernel)

end Sentential
