/-
Operands and connectives in turn.  In the tokens of an expression the end of an operand
and the start of one always have a connective between them.  Reordering does not look for
it: it also takes tokens in which operands stand next to each other, and then a connective
from elsewhere in the text may join them.  Where no operand stands next to another, the
symbols list a formula only if the tokens derive it.
-/
import Mathlib.Data.List.Chain
import Sentential.Proofs.Conservation
import Sentential.Proofs.Fragments
import Sentential.Proofs.Precedence

namespace Sentential

variable {α : Type}

namespace Token

/-- Whether an operand can start with a token. -/
def startsOperand : Token α → Bool
  | symbol (.atom _) | symbol (.connective .negation) | opening => true
  | symbol (.connective _) | closing => false

/-- Whether an operand can end with a token. -/
def endsOperand : Token α → Bool
  | symbol (.atom _) | closing => true
  | symbol (.connective _) | opening => false

/-- One token ends an operand and the next one starts another. -/
def Juxtaposed (t u : Token α) : Prop := t.endsOperand = true ∧ u.startsOperand = true

/-- An operand starts with the second token if none ends with the first, and only then. -/
def InTurn (t u : Token α) : Prop := u.startsOperand = !t.endsOperand

instance (t u : Token α) : Decidable (t.Juxtaposed u) :=
  inferInstanceAs (Decidable (_ ∧ _))

variable {t u : Token α}

theorem inTurn_of_start (ht : t.endsOperand = false) (hu : u.startsOperand = true) :
    t.InTurn u := by
  rw [InTurn, ht, hu]
  rfl

theorem inTurn_of_end (ht : t.endsOperand = true) (hu : u.startsOperand = false) :
    t.InTurn u := by
  rw [InTurn, ht, hu]
  rfl

theorem InTurn.not_juxtaposed (h : t.InTurn u) : ¬ t.Juxtaposed u := by
  rintro ⟨hends, hstarts⟩
  rw [InTurn, hstarts, hends] at h
  cases h

/-- Of tokens that are not juxtaposed, those in turn are those that owe no connective. -/
theorem toNat_startsOperand_le (h : ¬ t.Juxtaposed u) :
    u.startsOperand.toNat ≤ (!t.endsOperand).toNat ∧
      (u.startsOperand.toNat = (!t.endsOperand).toNat → t.InTurn u) := by
  rw [Juxtaposed] at h
  rw [InTurn]
  cases hends : t.endsOperand <;> cases hstarts : u.startsOperand <;> simp_all

end Token

/-- No operand stands next to another. -/
def Separated (tokens : List (Token α)) : Prop :=
  tokens.IsChain fun t u => ¬ t.Juxtaposed u

instance (tokens : List (Token α)) : Decidable (Separated tokens) :=
  inferInstanceAs (Decidable (List.IsChain _ _))

/-- Operands and connectives alternate, with an operand first and last. -/
def Alternating (tokens : List (Token α)) : Prop := (enclose tokens).IsChain Token.InTurn

theorem Alternating.separated {tokens : List (Token α)} (h : Alternating tokens) :
    Separated tokens := by
  have hinner : tokens.IsChain Token.InTurn := h.infix ⟨[.opening], [.closing], rfl⟩
  exact hinner.imp fun _ _ hturn => hturn.not_juxtaposed

namespace Derives

variable {phrase : Phrase} {w : List (Token α)} {f : Formula α}

/-- The tokens of a phrase alternate, from a token that ends no operand to one that
starts none. -/
theorem isChain_inTurn (h : Derives phrase w f) {t u : Token α}
    (ht : t.endsOperand = false) (hu : u.startsOperand = false) :
    (t :: (w ++ [u])).IsChain Token.InTurn := by
  induction h generalizing t u with
  | atom a =>
      rw [List.singleton_append, List.isChain_cons_cons, List.isChain_pair]
      exact ⟨Token.inTurn_of_start ht rfl, Token.inTurn_of_end rfl hu⟩
  | negation _ ih =>
      exact List.isChain_cons_cons.mpr ⟨Token.inTurn_of_start ht rfl, ih rfl hu⟩
  | @enclosed w f _ ih =>
      change (t :: .opening :: (w ++ [.closing] ++ [u])).IsChain Token.InTurn
      rw [List.isChain_cons_cons, List.append_assoc, List.singleton_append,
        List.isChain_cons_split, List.isChain_pair]
      exact ⟨Token.inTurn_of_start ht rfl, ih rfl rfl, Token.inTurn_of_end rfl hu⟩
  | factor _ ih => exact ih ht hu
  | conjunction _ _ ihl ihr =>
      rw [List.append_assoc, List.cons_append, List.isChain_cons_split]
      exact ⟨ihl ht rfl, ihr rfl hu⟩
  | term _ ih => exact ih ht hu
  | disjunction _ _ ihl ihr =>
      rw [List.append_assoc, List.cons_append, List.isChain_cons_split]
      exact ⟨ihl ht rfl, ihr rfl hu⟩

theorem alternating (h : Derives phrase w f) : Alternating w := h.isChain_inTurn rfl rfl

end Derives

/-- The number of atoms among tokens. -/
def atomCount (tokens : List (Token α)) : Nat :=
  (tokens.filterMap Token.symbol?).countP Symbol.isAtom

/-- The number of binary connectives among tokens. -/
def binaryCount (tokens : List (Token α)) : Nat :=
  (tokens.filterMap Token.symbol?).countP Symbol.isBinary

section Counting

variable {tokens : List (Token α)} {t : Token α}

theorem atomCount_cons (t : Token α) (tokens : List (Token α)) :
    atomCount (t :: tokens) = atomCount [t] + atomCount tokens := by
  rw [← List.singleton_append, atomCount, List.filterMap_append, List.countP_append]
  rfl

theorem binaryCount_cons (t : Token α) (tokens : List (Token α)) :
    binaryCount (t :: tokens) = binaryCount [t] + binaryCount tokens := by
  rw [← List.singleton_append, binaryCount, List.filterMap_append, List.countP_append]
  rfl

/-- A token that starts an operand is an atom or still waits for one. -/
theorem atomCount_singleton (t : Token α) :
    atomCount [t] + (!t.endsOperand).toNat = binaryCount [t] + t.startsOperand.toNat := by
  rcases t with (a | c) | _ | _
  · rfl
  · cases c <;> rfl
  · rfl
  · rfl

/-- Where no operand stands next to another, there is at most one atom more than there are
binary connectives, and one more only if everything is in turn. -/
theorem atomCount_le_and_isChain_inTurn
    (h : (t :: tokens).IsChain fun t u => ¬ t.Juxtaposed u) :
    atomCount tokens ≤ binaryCount tokens + (!t.endsOperand).toNat ∧
      (atomCount tokens = binaryCount tokens + (!t.endsOperand).toNat →
        (t :: (tokens ++ [.closing])).IsChain Token.InTurn) := by
  induction tokens generalizing t with
  | nil =>
      refine ⟨Nat.zero_le _, fun hnone => List.isChain_pair.mpr ?_⟩
      have hends : (!t.endsOperand).toNat = 0 := by simpa [atomCount, binaryCount] using hnone.symm
      exact Token.inTurn_of_end (by simpa using hends) rfl
  | cons u rest ih =>
      obtain ⟨hseparate, hrest⟩ := List.isChain_cons_cons.mp h
      obtain ⟨hle, hchain⟩ := ih hrest
      obtain ⟨hstarts, hturn⟩ := Token.toNat_startsOperand_le hseparate
      have hbalance := atomCount_singleton u
      rw [atomCount_cons, binaryCount_cons]
      refine ⟨by omega, fun hequal => ?_⟩
      exact List.isChain_cons_cons.mpr ⟨hturn (by omega), hchain (by omega)⟩

/-- Tokens whose symbols list a formula have nothing out of turn unless two operands stand
next to each other. -/
theorem Separated.alternating {f : Formula α} (h : Separated tokens)
    (hrow : toPostfix tokens = .ok f.symbols) : Alternating tokens := by
  have hperm := perm_of_toPostfix hrow
  have hcount : atomCount tokens = binaryCount tokens + 1 := by
    rw [atomCount, binaryCount, ← hperm.countP_eq, ← hperm.countP_eq]
    exact f.countP_isAtom_symbols
  have hchain : (.opening :: tokens).IsChain fun t u => ¬ Token.Juxtaposed t u :=
    List.isChain_cons.mpr ⟨fun u _ hu => Bool.false_ne_true hu.1, h⟩
  exact (atomCount_le_and_isChain_inTurn hchain).2 hcount

end Counting

/-- Tokens of an expression, with its last term apart: a connective that comes next joins
the term or the expression. -/
def Whole (tokens : List (Token α)) : Prop :=
  ∃ lead last, tokens = lead ++ last ∧ (∃ f, Derives .term last f) ∧
    (lead = [] ∨ ∃ w f, Derives .expression w f ∧
      lead = w ++ [.symbol (.connective .disjunction)])

/-- Tokens that any factor completes. -/
def AwaitsFactor (tokens : List (Token α)) : Prop :=
  ∀ w f, Derives .factor w f → Whole (tokens ++ w)

/-- Tokens up to a parenthesis that is still open, at a depth of open parentheses: before
each of these stand tokens that await a factor. -/
inductive Encloses : Nat → List (Token α) → Prop where
  | outermost : Encloses 0 []
  | opening {depth : Nat} {outer inner : List (Token α)} :
      Encloses depth outer → AwaitsFactor inner →
        Encloses (depth + 1) (outer ++ inner ++ [.opening])

/-- Tokens, the last of them `t`, that can be continued to those of an expression. -/
def Continuable (depth : Nat) (t : Token α) (tokens : List (Token α)) : Prop :=
  ∃ outer inner, tokens = outer ++ inner ∧ Encloses depth outer ∧
    if t.endsOperand then Whole inner else AwaitsFactor inner

section Recovery

variable {tokens rest : List (Token α)} {t u : Token α} {state next after : Reordering α}

theorem Whole.expression (h : Whole tokens) : ∃ f, Derives .expression tokens f := by
  obtain ⟨lead, last, rfl, ⟨r, hlast⟩, rfl | ⟨w, l, hw, rfl⟩⟩ := h
  · exact ⟨r, .term hlast⟩
  · refine ⟨.disj l r, ?_⟩
    rw [List.append_assoc]
    exact .disjunction hw hlast

theorem Whole.conjunction (h : Whole tokens) :
    AwaitsFactor (tokens ++ [.symbol (.connective .conjunction)]) := by
  intro w r hw
  obtain ⟨lead, last, rfl, ⟨l, hlast⟩, hlead⟩ := h
  refine ⟨lead, last ++ .symbol (.connective .conjunction) :: w, ?_,
    ⟨.conj l r, .conjunction hlast hw⟩, hlead⟩
  simp only [List.append_assoc, List.singleton_append]

theorem Whole.disjunction (h : Whole tokens) :
    AwaitsFactor (tokens ++ [.symbol (.connective .disjunction)]) := by
  intro w r hw
  obtain ⟨l, htokens⟩ := h.expression
  exact ⟨_, w, rfl, ⟨r, .factor hw⟩, Or.inr ⟨tokens, l, htokens, rfl⟩⟩

theorem awaitsFactor_nil : AwaitsFactor ([] : List (Token α)) :=
  fun w f hw => ⟨[], w, rfl, ⟨f, .factor hw⟩, Or.inl rfl⟩

theorem AwaitsFactor.negation (h : AwaitsFactor tokens) :
    AwaitsFactor (tokens ++ [.symbol (.connective .negation)]) := by
  intro w f hw
  rw [List.append_assoc]
  exact h _ _ (.negation hw)

/-- A token in turn keeps the tokens continuable, at the depth that reading it leaves. -/
theorem Continuable.step (h : Continuable state.enclosing.length t tokens)
    (hturn : t.InTurn u) (hstep : state.step u = .ok next) :
    Continuable next.enclosing.length u (tokens ++ [u]) := by
  obtain ⟨outer, inner, rfl, houter, hinner⟩ := h
  have hawaits : u.startsOperand = true → AwaitsFactor inner := by
    intro hu
    have ht : t.endsOperand = false := by simpa [Token.InTurn, hu] using hturn
    simpa [ht] using hinner
  have hwhole : u.startsOperand = false → Whole inner := by
    intro hu
    have ht : t.endsOperand = true := by simpa [Token.InTurn, hu] using hturn
    simpa [ht] using hinner
  rw [List.append_assoc]
  obtain ⟨a, rfl, rfl⟩ | ⟨c, rfl, rfl⟩ | ⟨rfl, rfl⟩ | ⟨pending, below, rfl, hopen, rfl⟩ :=
    Reordering.cases_of_step hstep
  · exact ⟨outer, _, rfl, houter, hawaits rfl _ _ (.atom a)⟩
  · refine ⟨outer, _, rfl, houter, ?_⟩
    rcases c with _ | _ | _
    · exact (hawaits rfl).negation
    · exact (hwhole rfl).conjunction
    · exact (hwhole rfl).disjunction
  · refine ⟨outer ++ inner ++ [.opening], [], by simp, .opening houter (hawaits rfl), ?_⟩
    exact awaitsFactor_nil
  · rw [hopen, List.length_cons] at houter
    obtain ⟨f, hf⟩ := (hwhole rfl).expression
    rcases houter with _ | ⟨hbelow, hbefore⟩
    rename_i outer before
    refine ⟨outer, before ++ enclose inner, by simp [enclose], hbelow, ?_⟩
    exact hbefore _ _ (.enclosed hf)

/-- So do tokens in turn, and the last of them ends an operand. -/
theorem Continuable.run (h : Continuable state.enclosing.length t tokens)
    (hturn : (t :: (rest ++ [.closing])).IsChain Token.InTurn)
    (hrun : state.run rest = .ok after) :
    ∃ u, u.endsOperand = true ∧ Continuable after.enclosing.length u (tokens ++ rest) := by
  induction rest generalizing state t tokens with
  | nil =>
      cases hrun
      have hlast : t.InTurn .closing := List.isChain_pair.mp hturn
      exact ⟨t, by simpa [Token.InTurn, Token.startsOperand] using hlast, by simpa using h⟩
  | cons u rest ih =>
      obtain ⟨hfirst, hrest⟩ := List.isChain_cons_cons.mp hturn
      rw [Reordering.run_cons] at hrun
      obtain ⟨next, hstep, hrun⟩ := bind_eq_ok_iff.mp hrun
      obtain ⟨last, hends, hlast⟩ := ih (h.step hfirst hstep) hrest hrun
      exact ⟨last, hends, by simpa using hlast⟩

/-- Tokens in turn whose parentheses match are those of an expression. -/
theorem Alternating.exists_derives {row : List (Symbol α)} (h : Alternating tokens)
    (hrow : toPostfix tokens = .ok row) : ∃ f, Derives .expression tokens f := by
  obtain ⟨after, hrun, hfinish⟩ := bind_eq_ok_iff.mp hrow
  obtain ⟨hclosed, _⟩ := Reordering.finish_eq_ok_iff.mp hfinish
  have hstart : Continuable ({} : Reordering α).enclosing.length
      (.opening : Token α) [] :=
    ⟨[], [], rfl, .outermost, awaitsFactor_nil⟩
  obtain ⟨u, hends, outer, inner, htokens, houter, hinner⟩ := hstart.run h hrun
  rw [hclosed] at houter
  rcases houter with _ | _
  rw [if_pos hends] at hinner
  rw [List.nil_append, List.nil_append] at htokens
  rw [htokens]
  exact hinner.expression

end Recovery

/-- Of the tokens that are reordered into the symbols of a formula, those of an expression
are the ones in which no operand stands next to another. -/
theorem derives_iff_separated {tokens : List (Token α)} {f : Formula α}
    (hrow : toPostfix tokens = .ok f.symbols) :
    Derives .expression tokens f ↔ Separated tokens := by
  constructor
  · exact fun h => h.alternating.separated
  · intro h
    obtain ⟨g, hg⟩ := (h.alternating hrow).exists_derives hrow
    have hsame : g.symbols = f.symbols := Except.ok.inj (hg.toPostfix_eq.symm.trans hrow)
    exact Formula.symbols_injective hsame ▸ hg

/-- A text that is read and evaluated without an error is an expression, and the sentence
has the symbols of its formula, as long as no operand stands next to another; otherwise the
text is no expression at all. -/
theorem derives_of_evaluated_text (r : Registry) {text : String} {s : Sentence}
    {a : Assignment} {b : Bool} (hread : (r.parse text).1 = .ok s)
    (hvalue : s.evaluate a = .ok b) :
    (Separated (r.tokenize text).1 →
        ∃ f, f.symbols = s.symbols ∧ Derives .expression (r.tokenize text).1 f) ∧
      (¬ Separated (r.tokenize text).1 →
        ¬ ∃ f, Derives .expression (r.tokenize text).1 f) := by
  obtain ⟨f, hf, _⟩ := (s.evaluate_eq_ok_iff a b).1.mp hvalue
  have hrow : toPostfix (r.tokenize text).1 = .ok f.symbols :=
    hf ▸ Registry.toPostfix_of_parse hread
  constructor
  · exact fun hseparated => ⟨f, hf, (derives_iff_separated hrow).mpr hseparated⟩
  · rintro hjuxtaposed ⟨g, hg⟩
    exact hjuxtaposed hg.alternating.separated

/-- The text has a connective between any two operands. -/
theorem derives_of_negated_disjunction :
    let s : Sentence := ⟨[.atom ⟨'é', 128⟩, .atom ⟨'b', 98⟩, .connective .disjunction,
      .connective .negation, .atom ⟨'é', 128⟩, .connective .conjunction]⟩
    let values : Assignment := .ofPairs [(⟨'é', 128⟩, true), (⟨'b', 98⟩, false)]
    (Registry.empty.parse "~(é|b)&é").1 = .ok s ∧ s.evaluate values = .ok false ∧
      Separated (Registry.empty.tokenize "~(é|b)&é").1 ∧
      ∃ f, f.symbols = s.symbols ∧
        Derives .expression (Registry.empty.tokenize "~(é|b)&é").1 f := by
  intro s values
  have hread : (Registry.empty.parse "~(é|b)&é").1 = .ok s := by decide +kernel
  have hvalue : s.evaluate values = .ok false := by decide +kernel
  have hseparated : Separated (Registry.empty.tokenize "~(é|b)&é").1 := by decide +kernel
  exact ⟨hread, hvalue, hseparated,
    (derives_of_evaluated_text .empty hread hvalue).1 hseparated⟩

/-- Two operands with no connective between them are joined by the one after them, and no
error is reported. -/
theorem evaluated_text_without_derivation :
    let a : Variable := ⟨'a', 97⟩
    let b : Variable := ⟨'b', 98⟩
    let s : Sentence := ⟨[.atom a, .atom b, .connective .conjunction]⟩
    let values : Assignment := .ofPairs [(a, true), (b, true)]
    (Registry.empty.parse "a b&").1 = .ok s ∧ values.Over s.vocabulary ∧
      s.evaluate values = .ok true ∧
      ¬ ∃ f, Derives .expression (Registry.empty.tokenize "a b&").1 f := by
  intro a b s values
  refine ⟨by decide +kernel, ?_, by decide +kernel, ?_⟩
  · rw [Assignment.over_iff_domain_eq]
    decide
  · rintro ⟨f, hf⟩
    have hjuxtaposed : ¬ Separated (Registry.empty.tokenize "a b&").1 := by decide +kernel
    exact hjuxtaposed hf.alternating.separated

end Sentential
