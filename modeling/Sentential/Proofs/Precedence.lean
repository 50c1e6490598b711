/-
Reordering follows the grammar.  Reading the tokens of a phrase appends the
symbols of its formula to those already emitted, up to connectives that still
wait, and none of these binds looser than the phrase; so an expression read from
the start gives the symbols of its formula in postfix order.
-/
import Sentential.Grammar
import Sentential.Proofs.Operands
import Sentential.Proofs.Spelling

namespace Sentential

variable {α β : Type}

/-- The loosest connective that a phrase can have outside parentheses. -/
def Phrase.connective : Phrase → Connective
  | .factor => .negation
  | .term => .conjunction
  | .expression => .disjunction

namespace Derives

theorem map (g : α → β) {phrase : Phrase} {w : List (Token α)} {f : Formula α}
    (h : Derives phrase w f) :
    Derives phrase (w.map (Token.map g)) (f.map g) := by
  induction h with
  | atom a => exact .atom (g a)
  | negation _ ih => exact .negation ih
  | enclosed _ ih =>
      rw [map_enclose]
      exact .enclosed ih
  | factor _ ih => exact .factor ih
  | conjunction _ _ ihl ihr =>
      rw [List.map_append, List.map_cons]
      exact .conjunction ihl ihr
  | term _ ih => exact .term ih
  | disjunction _ _ ihl ihr =>
      rw [List.map_append, List.map_cons]
      exact .disjunction ihl ihr

/-- A phrase names the atoms of its formula from left to right. -/
theorem filterMap_atom? {phrase : Phrase} {w : List (Token α)} {f : Formula α}
    (h : Derives phrase w f) : w.filterMap Token.atom? = f.atoms := by
  induction h with
  | atom a => rfl
  | negation _ ih => simpa [List.filterMap_cons, Formula.atoms] using ih
  | enclosed _ ih => simpa [List.filterMap_cons, enclose] using ih
  | factor _ ih => exact ih
  | conjunction _ _ ihl ihr =>
      simp [List.filterMap_cons, Formula.atoms, ihl, ihr]
  | term _ ih => exact ih
  | disjunction _ _ ihl ihr =>
      simp [List.filterMap_cons, Formula.atoms, ihl, ihr]

end Derives

/-- No connective that waits next to a phrase would take its first operand. -/
def Phrase.Fits (phrase : Phrase) (pending : List Connective) : Prop :=
  ∀ c ∈ pending.head?, phrase.connective.yieldsTo c = false

theorem Phrase.fits_factor (pending : List Connective) : Phrase.factor.Fits pending := by
  intro c _
  cases c <;> rfl

theorem Phrase.Fits.term {pending : List Connective}
    (h : Phrase.expression.Fits pending) : Phrase.term.Fits pending := by
  intro c hc
  have hnone := h c hc
  cases c <;> simp_all [Phrase.connective, Connective.yieldsTo, Connective.associativity,
    Connective.rank]

namespace Reordering

theorem emit_append (emitted : List (Symbol α)) (first second : List Connective) :
    emit emitted (first ++ second) = emit (emit emitted first) second := by
  simp [emit]

/-- A connective emits those that yield to it up to one that does not. -/
theorem step_connective {c : Connective} (waiting : List Connective)
    {pending : List Connective} (hwaiting : ∀ d ∈ waiting, c.yieldsTo d = true)
    (hpending : ∀ d ∈ pending.head?, c.yieldsTo d = false)
    (emitted : List (Symbol α)) (enclosing : List (List Connective)) :
    step ⟨emitted, waiting ++ pending, enclosing⟩ (.symbol (.connective c)) =
      .ok ⟨emit emitted waiting, c :: pending, enclosing⟩ := by
  have hstop : pending.takeWhile c.yieldsTo = [] ∧ pending.dropWhile c.yieldsTo = pending := by
    cases pending with
    | nil => exact ⟨rfl, rfl⟩
    | cons d rest =>
        have hd := hpending d rfl
        simp [hd]
  simp only [step, List.takeWhile_append_of_pos hwaiting, List.dropWhile_append_of_pos hwaiting,
    hstop, List.append_nil]

/-- What reading a phrase does to a state: the connectives in `waiting` are put
before those that waited already, and emitting them completes the symbols of the
formula. -/
structure Completes (phrase : Phrase) (f : Formula α) (before after : Reordering α)
    (waiting : List Connective) : Prop where
  pending : after.pending = waiting ++ before.pending
  enclosing : after.enclosing = before.enclosing
  emitted : emit after.emitted waiting = f.symbols.reverse ++ before.emitted
  rank_le : ∀ c ∈ waiting, c.rank ≤ phrase.connective.rank

/-- Tokens that complete a formula wherever the phrase fits. -/
def Reads (phrase : Phrase) (w : List (Token α)) (f : Formula α) : Prop :=
  ∀ before : Reordering α, phrase.Fits before.pending →
    ∃ after waiting, before.run w = .ok after ∧ Completes phrase f before after waiting

variable {w u v : List (Token α)} {f l r : Formula α}

/-- An operand leaves no connective waiting, so its symbols are a formula's wherever it
stands. -/
theorem reads_of_operand (h : Operand w f.symbols) : Reads .factor w f :=
  fun before _ => ⟨_, [], h before, ⟨rfl, rfl, rfl, by simp⟩⟩

theorem Reads.negation (h : Reads .factor w f) :
    Reads .factor (.symbol (.connective .negation) :: w) (.neg f) := by
  intro before hbefore
  let inner : Reordering α := { before with pending := .negation :: before.pending }
  have hstep : before.step (.symbol (.connective .negation)) = .ok inner :=
    step_connective [] (by simp) hbefore before.emitted before.enclosing
  obtain ⟨after, waiting, hrun, hafter⟩ := h inner (Phrase.fits_factor _)
  refine ⟨after, waiting ++ [.negation], ?_, ?_, hafter.enclosing, ?_, ?_⟩
  · rw [run_cons, hstep]
    exact hrun
  · simpa using hafter.pending
  · rw [emit_append, hafter.emitted]
    simp [emit, Formula.symbols, inner]
  · intro c hc
    rcases List.mem_append.mp hc with hc | hc
    · exact hafter.rank_le c hc
    · exact Nat.le_of_eq (congrArg Connective.rank (List.mem_singleton.mp hc))

/-- An expression by itself is reordered into the symbols of its formula. -/
theorem Reads.toPostfix_eq (h : Reads .expression w f) : toPostfix w = .ok f.symbols := by
  obtain ⟨after, waiting, hrun, hafter⟩ := h {} (by simp [Phrase.Fits])
  have hpending : after.pending = waiting := by
    rw [hafter.pending, List.append_nil]
  rw [toPostfix, hrun]
  change after.finish = _
  rw [finish, hafter.enclosing, hpending, hafter.emitted]
  simp

/-- A phrase may bind looser than its connectives require. -/
theorem Reads.mono {tight loose : Phrase}
    (hrank : tight.connective.rank ≤ loose.connective.rank)
    (hfits : ∀ pending, loose.Fits pending → tight.Fits pending)
    (h : Reads tight w f) : Reads loose w f := by
  intro before hbefore
  obtain ⟨after, waiting, hrun, hafter⟩ := h before (hfits _ hbefore)
  exact ⟨after, waiting, hrun, hafter.pending, hafter.enclosing, hafter.emitted,
    fun c hc => Nat.le_trans (hafter.rank_le c hc) hrank⟩

/-- Two phrases around a binary connective.  It makes everything that waits in the
left phrase yield, and it waits itself while the right phrase is read. -/
theorem Reads.binary {c : Connective} {phrase operand : Phrase}
    (hc : phrase.connective = c) (hassoc : c.associativity = .left)
    (hrank : operand.connective.rank ≤ c.rank)
    (hfits : ∀ pending, operand.Fits (c :: pending))
    (hf : f.symbols = l.symbols ++ r.symbols ++ [.connective c])
    (hl : Reads phrase u l) (hr : Reads operand v r) :
    Reads phrase (u ++ .symbol (.connective c) :: v) f := by
  intro before hbefore
  obtain ⟨middle, lwaiting, hlrun, hmiddle⟩ := hl before hbefore
  let inner : Reordering α :=
    ⟨l.symbols.reverse ++ before.emitted, c :: before.pending, before.enclosing⟩
  obtain ⟨after, rwaiting, hrrun, hafter⟩ := hr inner (hfits _)
  have hyields : ∀ d ∈ lwaiting, c.yieldsTo d = true := by
    intro d hd
    have hle : d.rank ≤ c.rank := hc ▸ hmiddle.rank_le d hd
    simpa [Connective.yieldsTo, hassoc] using hle
  have hstep : middle.step (.symbol (.connective c)) = .ok inner := by
    have hmid : middle = ⟨middle.emitted, lwaiting ++ before.pending, before.enclosing⟩ := by
      rw [← hmiddle.pending, ← hmiddle.enclosing]
    rw [hmid, step_connective lwaiting hyields (hc ▸ hbefore), hmiddle.emitted]
  refine ⟨after, rwaiting ++ [c], ?_, ?_, hafter.enclosing, ?_, ?_⟩
  · rw [run_append, hlrun]
    change middle.run (.symbol (.connective c) :: v) = _
    rw [run_cons, hstep]
    exact hrrun
  · simpa using hafter.pending
  · rw [emit_append, hafter.emitted, hf]
    simp [emit, inner]
  · intro d hd
    rw [hc]
    rcases List.mem_append.mp hd with hd | hd
    · exact Nat.le_trans (hafter.rank_le d hd) hrank
    · exact Nat.le_of_eq (congrArg Connective.rank (List.mem_singleton.mp hd))

end Reordering

open Reordering in
/-- Reading the tokens of a phrase completes its formula. -/
theorem Derives.reads {phrase : Phrase} {w : List (Token α)} {f : Formula α}
    (h : Derives phrase w f) : Reads phrase w f := by
  induction h with
  | atom a => exact reads_of_operand (operand_atom a)
  | negation _ ih => exact ih.negation
  | enclosed _ ih => exact reads_of_operand (operand_enclose ih.toPostfix_eq)
  | factor _ ih => exact ih.mono (by decide) fun pending _ => Phrase.fits_factor pending
  | conjunction _ _ ihl ihr =>
      exact Reads.binary rfl rfl (by decide) (fun _ => Phrase.fits_factor _) rfl ihl ihr
  | term _ ih => exact ih.mono (by decide) fun _ hpending => hpending.term
  | disjunction _ _ ihl ihr =>
      refine Reads.binary rfl rfl (by decide) ?_ rfl ihl ihr
      intro pending c hc
      cases hc
      rfl

theorem Derives.toPostfix_eq {w : List (Token α)} {f : Formula α}
    (h : Derives .expression w f) : toPostfix w = .ok f.symbols :=
  h.reads.toPostfix_eq

/-- A text that spells an expression is read as the symbols of its formula over the
variables that its names have once they are enrolled. -/
theorem Registry.parse_of_expression (r : Registry) {text : String}
    {w : List (Token Char)} {f : Formula Char} (hw : Derives .expression w f)
    (htext : Spells text.toList w) :
    r.parse text =
      (.ok ⟨(f.map (r.enrollAll f.atoms).variableOf).symbols⟩, r.enrollAll f.atoms) := by
  have hsymbols := (hw.map (r.enrollAll f.atoms).variableOf).toPostfix_eq
  rw [r.parse_of_spells htext, hw.filterMap_atom?]
  simp only [hsymbols]
  rfl

/-- Over variables given out, the symbols are those of the formula itself, and the
registry stays as it is. -/
theorem Registry.parse_of_issued_expression {r : Registry} {text : String}
    {w : List (Token Variable)} {f : Formula Variable} (hr : ∀ v ∈ f.atoms, r.Issued v)
    (hw : Derives .expression w f)
    (htext : Spells text.toList (w.map (Token.map Variable.name))) :
    r.parse text = (.ok ⟨f.symbols⟩, r) := by
  have hparse := r.parse_of_expression (hw.map Variable.name) htext
  have hsame : f.map (r.variableOf ∘ Variable.name) = f :=
    Formula.map_eq_self fun v hv => (hr v hv).variableOf_name
  simpa only [Formula.atoms_map, Registry.enrollAll_eq_self hr, Formula.map_map, hsame]
    using hparse

/-- The tokens of an expression are reordered into the symbols of its formula, and
any text that spells them is read as the sentence with these symbols.  Reading
enrolls names, so the variables of the sentence are those of the later registry;
they are the variables of the tokens if the registry has given these out. -/
theorem toPostfix_and_parse_of_expression (r : Registry) {w : List (Token Variable)}
    {f : Formula Variable} (hw : Derives .expression w f) :
    toPostfix w = .ok f.symbols ∧
      ∀ text : String, Spells text.toList (w.map (Token.map Variable.name)) →
        let later := r.enrollAll (f.atoms.map Variable.name)
        r.parse text = (.ok ⟨(f.map fun v => later.variableOf v.name).symbols⟩, later) ∧
          ((∀ v ∈ f.atoms, r.Issued v) → r.parse text = (.ok ⟨f.symbols⟩, r)) := by
  refine ⟨hw.toPostfix_eq, ?_⟩
  intro text htext later
  constructor
  · have hparse := r.parse_of_expression (hw.map Variable.name) htext
    rw [Formula.atoms_map, Formula.map_map] at hparse
    exact hparse
  · intro hissued
    exact Registry.parse_of_issued_expression hissued hw htext

/-- Parentheses, both binary connectives and a name that has to be enrolled. -/
theorem parse_of_enclosed_disjunction :
    let accented : Variable := ⟨'é', 128⟩
    let plain : Variable := ⟨'b', 98⟩
    let r : Registry := Registry.empty.enroll 'é'
    let w : List (Token Variable) :=
      [.symbol (.connective .negation), .symbol (.atom accented),
        .symbol (.connective .disjunction), .opening, .symbol (.atom plain),
        .symbol (.connective .disjunction), .symbol (.atom accented), .closing,
        .symbol (.connective .conjunction), .symbol (.atom plain)]
    let f : Formula Variable :=
      .disj (.neg (.atom accented))
        (.conj (.disj (.atom plain) (.atom accented)) (.atom plain))
    Derives .expression w f ∧
      Spells " ~é | (b|é) &b".toList (w.map (Token.map Variable.name)) ∧
      (∀ v ∈ f.atoms, r.Issued v) ∧ toPostfix w = .ok f.symbols ∧
      r.parse " ~é | (b|é) &b" = (.ok ⟨f.symbols⟩, r) := by
  intro accented plain r w f
  have hw : Derives .expression w f :=
    .disjunction (.term (.factor (.negation (.atom accented))))
      (.conjunction
        (.factor (.enclosed
          (.disjunction (.term (.factor (.atom plain))) (.factor (.atom accented)))))
        (.atom plain))
  have htext : Spells " ~é | (b|é) &b".toList (w.map (Token.map Variable.name)) := by
    rw [← lex_eq_iff_spells]
    decide +kernel
  have hissued : ∀ v ∈ f.atoms, r.Issued v := by
    have haccented : r.Issued accented := Registry.empty.issued_enroll_self (by decide)
    have hplain : r.Issued plain := ⟨by decide, Or.inl (by decide), rfl⟩
    intro v hv
    rcases List.mem_append.mp hv with hv | hv
    · exact List.mem_singleton.mp hv ▸ haccented
    · simp only [Formula.atoms, List.mem_append, List.mem_singleton] at hv
      rcases hv with (rfl | rfl) | rfl
      · exact hplain
      · exact haccented
      · exact hplain
  obtain ⟨hsymbols, hparse⟩ := toPostfix_and_parse_of_expression r hw
  exact ⟨hw, htext, hissued, hsymbols, (hparse " ~é | (b|é) &b" htext).2 hissued⟩

end Sentential
