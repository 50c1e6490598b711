/-
Texts inside texts.  A text between parentheses is read, wherever it stands, as a
name in its place would be, with the symbols of the text for the name; so sentences
are put together by putting their texts together.
-/
import Sentential.Proofs.Occurrences
import Sentential.Proofs.Operands

namespace Sentential

namespace Registry

section Tokens

variable (r : Registry) (left inner right : String) {x : Char}

theorem tokensOf_append :
    r.tokensOf (left ++ right) = r.tokensOf left ++ r.tokensOf right := by
  simp [tokensOf]

theorem tokensOf_embedded :
    r.tokensOf (left ++ "(" ++ inner ++ ")" ++ right) =
      r.tokensOf left ++ enclose (r.tokensOf inner) ++ r.tokensOf right := by
  have hopening : r.tokensOf "(" = [.opening] := rfl
  have hclosing : r.tokensOf ")" = [.closing] := rfl
  simp only [tokensOf_append, hopening, hclosing, enclose, List.append_assoc,
    List.cons_append, List.nil_append]

theorem tokensOf_name (hx : ¬ Reserved x) :
    r.tokensOf x.toString = [.symbol (.atom (r.variableOf x))] := by
  simp [tokensOf, Token.lex, Token.ofChar?_of_not_reserved hx, Token.map, Symbol.map]

theorem tokensOf_pattern (hx : ¬ Reserved x) :
    r.tokensOf (left ++ x.toString ++ right) =
      r.tokensOf left ++ [.symbol (.atom (r.variableOf x))] ++ r.tokensOf right := by
  rw [tokensOf_append, tokensOf_append, tokensOf_name r hx]

/-- The atoms of a text are the variables of the names in it. -/
theorem filterMap_atom?_tokensOf :
    (r.tokensOf left).filterMap Token.atom? =
      (left.toList.filter fun c => ¬ Reserved c).map r.variableOf := by
  rw [(Spells.of_lex left.toList).filter_eq, tokensOf, List.filterMap_map,
    List.map_filterMap]
  congr 1
  funext t
  cases t with
  | symbol s => exact Symbol.atom?_map _ s
  | opening => rfl
  | closing => rfl

theorem not_mem_atoms_tokensOf (hx : x ∉ left.toList) :
    r.variableOf x ∉ (r.tokensOf left).filterMap Token.atom? := by
  rw [filterMap_atom?_tokensOf, List.mem_map_of_injective r.variableOf_injective]
  exact fun h => hx (List.mem_of_mem_filter h)

/-- A text between two parentheses, a connective, and another text between two. -/
theorem tokensOf_joined {between : String} {c : Connective}
    (hbetween : r.tokensOf between = [.closing, .symbol (.connective c), .opening]) :
    r.tokensOf ("(" ++ left ++ between ++ right ++ ")") =
      enclose (r.tokensOf left) ++
        .symbol (.connective c) :: enclose (r.tokensOf right) := by
  have hopening : r.tokensOf "(" = [.opening] := rfl
  have hclosing : r.tokensOf ")" = [.closing] := rfl
  simp only [tokensOf_append, hopening, hclosing, hbetween, enclose, List.append_assoc,
    List.cons_append, List.nil_append]

end Tokens

namespace HasRead

variable {later : Registry} {inner other left right : String} {s t : Sentence}
  {result pattern : Except ReadError Sentence}

theorem toPostfix_eq_ok (h : later.HasRead inner (.ok s)) :
    toPostfix (later.tokensOf inner) = .ok s.symbols := by
  obtain ⟨row, hrow, rfl⟩ := map_eq_ok_iff.mp h.eq_toPostfix.symm
  exact hrow

/-- The symbols of a text between parentheses stand where those of a name would. -/
theorem embedded (hinner : later.HasRead inner (.ok s))
    (h : later.HasRead (left ++ "(" ++ inner ++ ")" ++ right) result) :
    result = (surroundings (later.tokensOf left) (later.tokensOf right)).map fun around =>
      ⟨around.1 ++ s.symbols ++ around.2⟩ := by
  rw [h.eq_toPostfix, tokensOf_embedded, (operand_enclose hinner.toPostfix_eq_ok).toPostfix_eq]
  cases surroundings (later.tokensOf left) (later.tokensOf right) <;> rfl

theorem named {x : Char} (hx : ¬ Reserved x)
    (h : later.HasRead (left ++ x.toString ++ right) result) :
    result = (surroundings (later.tokensOf left) (later.tokensOf right)).map fun around =>
      ⟨around.1 ++ [.atom (later.variableOf x)] ++ around.2⟩ := by
  rw [h.eq_toPostfix, tokensOf_pattern _ _ _ hx, (operand_atom _).toPostfix_eq]
  cases surroundings (later.tokensOf left) (later.tokensOf right) <;> rfl

theorem negated (hinner : later.HasRead inner (.ok s))
    (h : later.HasRead ("~(" ++ inner ++ ")") result) :
    result = .ok ⟨s.symbols ++ [.connective .negation]⟩ := by
  have htokens : later.tokensOf ("~(" ++ inner ++ ")") =
      .symbol (.connective .negation) :: enclose (later.tokensOf inner) := by
    simp only [tokensOf_append]
    rfl
  rw [h.eq_toPostfix, htokens, toPostfix_connective_enclose hinner.toPostfix_eq_ok]
  rfl

theorem joined (hinner : later.HasRead inner (.ok s)) (hother : later.HasRead other (.ok t))
    {between : String} {c : Connective}
    (hbetween : later.tokensOf between = [.closing, .symbol (.connective c), .opening])
    (h : later.HasRead ("(" ++ inner ++ between ++ other ++ ")") result) :
    result = .ok ⟨s.symbols ++ t.symbols ++ [.connective c]⟩ := by
  rw [h.eq_toPostfix, tokensOf_joined _ _ _ hbetween,
    toPostfix_enclose_connective_enclose hinner.toPostfix_eq_ok hother.toPostfix_eq_ok]
  rfl

end HasRead

/-- A name that a text does not show is the atom of no symbol that reordering the text
could give. -/
theorem not_mem_of_filterMap_atom?_eq {r : Registry} {text : String} {x : Char}
    (hx : x ∉ text.toList) {row : List (Symbol Variable)}
    (hrow : row.filterMap Symbol.atom? = (r.tokensOf text).filterMap Token.atom?) :
    .atom (r.variableOf x) ∉ row := by
  intro hmem
  apply r.not_mem_atoms_tokensOf text hx
  rw [← hrow]
  exact List.mem_filterMap.mpr ⟨_, hmem, rfl⟩

end Registry

open Registry in
/-- Whatever is read as a sentence, well formed or not, can stand between parentheses
in any text for a name that the text has nowhere else: the one text is read just when
the other is, and the symbols of the sentence then take the place of the name.  So a
connective before or between parentheses comes after the symbols they enclose. -/
theorem read_of_embedded_text {later : Registry} {inner : String} {s : Sentence}
    (hinner : later.HasRead inner (.ok s)) :
    (∀ (left right : String) (x : Char) (whole pattern : Except ReadError Sentence),
      ¬ Reserved x → x ∉ left.toList → x ∉ right.toList →
      later.HasRead (left ++ "(" ++ inner ++ ")" ++ right) whole →
      later.HasRead (left ++ x.toString ++ right) pattern →
        ((∃ p, whole = .ok p) ↔ ∃ q, pattern = .ok q) ∧
          ∀ p q, whole = .ok p → pattern = .ok q →
            ∃ before after,
              .atom (later.variableOf x) ∉ before ∧ .atom (later.variableOf x) ∉ after ∧
                q.symbols = before ++ [.atom (later.variableOf x)] ++ after ∧
                p.symbols = before ++ s.symbols ++ after) ∧
      (∀ negated, later.HasRead ("~(" ++ inner ++ ")") negated →
        negated = .ok ⟨s.symbols ++ [.connective .negation]⟩) ∧
      ∀ (other : String) (t : Sentence), later.HasRead other (.ok t) →
        (∀ joined, later.HasRead ("(" ++ inner ++ ")&(" ++ other ++ ")") joined →
          joined = .ok ⟨s.symbols ++ t.symbols ++ [.connective .conjunction]⟩) ∧
          ∀ joined, later.HasRead ("(" ++ inner ++ ")|(" ++ other ++ ")") joined →
            joined = .ok ⟨s.symbols ++ t.symbols ++ [.connective .disjunction]⟩ := by
  refine ⟨?_, fun negated h => hinner.negated h, fun other t hother =>
    ⟨fun joined h => hinner.joined hother rfl h, fun joined h => hinner.joined hother rfl h⟩⟩
  intro left right x whole pattern hx hleft hright hwhole hpattern
  obtain rfl := hinner.embedded hwhole
  obtain rfl := hpattern.named hx
  cases haround : surroundings (later.tokensOf left) (later.tokensOf right) with
  | error e => exact ⟨⟨nofun, nofun⟩, nofun⟩
  | ok around =>
      refine ⟨⟨fun _ => ⟨_, rfl⟩, fun _ => ⟨_, rfl⟩⟩, ?_⟩
      intro p q hp hq
      cases hp
      cases hq
      obtain ⟨hbefore, hafter⟩ := filterMap_atom?_of_surroundings haround
      exact ⟨around.1, around.2, not_mem_of_filterMap_atom?_eq hleft hbefore,
        not_mem_of_filterMap_atom?_eq hright hafter, rfl, rfl⟩

/-- A connective without operands stays between the parentheses.  The session reads the
text by itself, then in its place, then the name there, and last the text twice. -/
theorem read_of_embedded_dangling_connective :
    let first := (Registry.empty.parse "é|~").2
    let second := (first.parse "~a&(é|~)|c").2
    let third := (second.parse "~a&x|c").2
    let s : Sentence := ⟨[.atom ⟨'é', 128⟩, .connective .negation, .connective .disjunction]⟩
    let pattern : Sentence := ⟨[.atom ⟨'a', 97⟩, .connective .negation, .atom ⟨'x', 120⟩,
      .connective .conjunction, .atom ⟨'c', 99⟩, .connective .disjunction]⟩
    (Registry.empty.parse "é|~").1 = .ok s ∧ (second.parse "~a&x|c").1 = .ok pattern ∧
      (∃ whole, (first.parse "~a&(é|~)|c").1 = .ok whole) ∧
      (third.parse "(é|~)&(é|~)").1 =
        .ok ⟨s.symbols ++ s.symbols ++ [.connective .conjunction]⟩ := by
  intro first second third s pattern
  have hs : (Registry.empty.parse "é|~").1 = .ok s := by decide +kernel
  have hpattern : (second.parse "~a&x|c").1 = .ok pattern := by decide +kernel
  let later := (third.parse "(é|~)&(é|~)").2
  have hthird : later.Extends third := third.extends_parse "(é|~)&(é|~)"
  have hsecond : later.Extends second := hthird.trans (second.extends_parse "~a&x|c")
  have hfirst : later.Extends first := hsecond.trans (first.extends_parse "~a&(é|~)|c")
  have hinner : later.HasRead "é|~" (.ok s) := by
    rw [← hs]
    exact (Registry.empty.hasRead_parse "é|~").of_extends hfirst
  obtain ⟨hplaces, _, hjoined⟩ := read_of_embedded_text hinner
  obtain ⟨hiff, _⟩ := hplaces "~a&" "|c" 'x' _ _ (by decide) (by decide +kernel)
    (by decide +kernel) ((first.hasRead_parse "~a&(é|~)|c").of_extends hsecond)
    ((second.hasRead_parse "~a&x|c").of_extends hthird)
  exact ⟨hs, hpattern, hiff.mpr ⟨_, hpattern⟩,
    (hjoined "é|~" s hinner).1 _ (third.hasRead_parse "(é|~)&(é|~)")⟩

end Sentential
