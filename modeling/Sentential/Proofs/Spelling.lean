/-
Texts and the tokens they spell.  A text spells a row of tokens if it holds the
signs of the tokens in order, with spaces anywhere between them; lexing reads
back just the row that is spelled.
-/
import Sentential.Proofs.Enrolment

namespace Sentential

namespace Token

/-- The character that a token is written with. -/
def sign : Token Char → Char
  | symbol (.atom name) => name
  | symbol (.connective c) => c.sign
  | opening => '('
  | closing => ')'

/-- A token whose atom, if it is one, has a name that a text can show. -/
def Writable (t : Token Char) : Prop := ∀ name ∈ t.atom?, ¬ Reserved name

theorem ofChar?_sign {t : Token Char} (ht : t.Writable) : ofChar? t.sign = some t := by
  cases t with
  | symbol s =>
      cases s with
      | atom name => exact ofChar?_of_not_reserved (ht name rfl)
      | connective c => cases c <;> rfl
  | opening => rfl
  | closing => rfl

theorem ofChar?_eq_none_iff {c : Char} : ofChar? c = none ↔ c = ' ' := by
  unfold ofChar?
  split
  · simp [*]
  · repeat' split
    all_goals simp [*]

/-- The character that a token is read from is the sign of the token. -/
theorem writable_and_sign_of_ofChar? {c : Char} {t : Token Char}
    (hc : ofChar? c = some t) : t.Writable ∧ t.sign = c := by
  unfold ofChar? at hc
  split at hc
  · cases hc
  · rename_i hspace
    split at hc
    · rename_i hopen
      cases hc
      exact ⟨by simp [Writable], hopen.symm⟩
    · rename_i hopen
      split at hc
      · rename_i hclose
        cases hc
        exact ⟨by simp [Writable], hclose.symm⟩
      · rename_i hclose
        split at hc
        · rename_i connective hsign
          cases hc
          exact ⟨by simp [Writable],
            Connective.ofSign?_eq_some_iff.mp hsign⟩
        · rename_i hsign
          cases hc
          refine ⟨?_, rfl⟩
          intro name hname
          have heq : c = name := by simpa using hname
          subst heq
          simp only [Reserved, reservedCharacters, List.mem_cons, List.not_mem_nil,
            or_false, not_or]
          refine ⟨hspace, ?_, ?_, ?_, hopen, hclose⟩
          · rintro rfl
            cases hsign
          · rintro rfl
            cases hsign
          · rintro rfl
            cases hsign

end Token

/-- A text holds the signs of a row of tokens, with spaces anywhere. -/
inductive Spells : List Char → List (Token Char) → Prop where
  | nil : Spells [] []
  | space {text : List Char} {tokens : List (Token Char)} :
      Spells text tokens → Spells (' ' :: text) tokens
  | token {t : Token Char} {text : List Char} {tokens : List (Token Char)} :
      t.Writable → Spells text tokens → Spells (t.sign :: text) (t :: tokens)

namespace Spells

variable {text left right : List Char} {tokens ltokens rtokens : List (Token Char)}

theorem append (hleft : Spells left ltokens) (hright : Spells right rtokens) :
    Spells (left ++ right) (ltokens ++ rtokens) := by
  induction hleft with
  | nil => exact hright
  | space _ ih => exact .space ih
  | token ht _ ih => exact .token ht ih

theorem lex_eq (h : Spells text tokens) : Token.lex text = tokens := by
  induction h with
  | nil => rfl
  | space _ ih =>
      have hspace : Token.ofChar? ' ' = none := Token.ofChar?_eq_none_iff.mpr rfl
      simpa [Token.lex, hspace] using ih
  | token ht _ ih =>
      have hsign := Token.ofChar?_sign ht
      simpa [Token.lex, hsign] using ih

/-- Only writable tokens are spelled. -/
theorem writable (h : Spells text tokens) : ∀ t ∈ tokens, t.Writable := by
  induction h with
  | nil => simp
  | space _ ih => exact ih
  | token ht _ ih => exact List.forall_mem_cons.mpr ⟨ht, ih⟩

theorem of_lex (text : List Char) : Spells text (Token.lex text) := by
  induction text with
  | nil => exact .nil
  | cons c rest ih =>
      cases hc : Token.ofChar? c with
      | none =>
          have hspace : c = ' ' := Token.ofChar?_eq_none_iff.mp hc
          have hlex : Token.lex (c :: rest) = Token.lex rest := by
            simp [Token.lex, hc]
          rw [hlex, hspace]
          exact .space ih
      | some t =>
          obtain ⟨ht, hsign⟩ := Token.writable_and_sign_of_ofChar? hc
          have hlex : Token.lex (c :: rest) = t :: Token.lex rest := by
            simp [Token.lex, hc]
          rw [hlex, ← hsign]
          exact .token ht ih

end Spells

/-- Lexing a text gives the one row of tokens that the text spells. -/
theorem lex_eq_iff_spells {text : List Char} {tokens : List (Token Char)} :
    Token.lex text = tokens ↔ Spells text tokens := by
  constructor
  · rintro rfl
    exact Spells.of_lex text
  · exact Spells.lex_eq

namespace Registry

/-- Reading a text enrolls the names it spells, in order, and reorders its tokens
over the variables so named. -/
theorem parse_of_spells (r : Registry) {text : String} {tokens : List (Token Char)}
    (htext : Spells text.toList tokens) :
    r.parse text =
      ((toPostfix (tokens.map (Token.map
          (r.enrollAll (tokens.filterMap Token.atom?)).variableOf))).map Sentence.mk,
        r.enrollAll (tokens.filterMap Token.atom?)) := by
  rw [parse, tokenize, htext.lex_eq]

/-- The atoms of a text are read as variables given out. -/
theorem issued_of_mem_tokenize {r : Registry} {text : String} {v : Variable}
    (h : .symbol (.atom v) ∈ (r.tokenize text).1) : (r.tokenize text).2.Issued v := by
  obtain ⟨t, ht, hv⟩ := List.mem_map.mp h
  cases t with
  | symbol s =>
      cases s with
      | atom name =>
          cases hv
          have hname : name ∈ (Token.lex text.toList).filterMap Token.atom? :=
            List.mem_filterMap.mpr ⟨_, ht, rfl⟩
          have hwritable := (Spells.of_lex text.toList).writable _ ht
          exact issued_enrollAll hname (hwritable name rfl)
      | connective c => cases hv
  | opening => cases hv
  | closing => cases hv

/-- What is read as a sentence is the reordered tokens of the text. -/
theorem toPostfix_of_parse {r : Registry} {text : String} {s : Sentence}
    (h : (r.parse text).1 = .ok s) : toPostfix (r.tokenize text).1 = .ok s.symbols := by
  obtain ⟨row, hrow, rfl⟩ := map_eq_ok_iff.mp h
  exact hrow

/-- The tokens of a text over the variables of a registry. -/
def tokensOf (r : Registry) (text : String) : List (Token Variable) :=
  (Token.lex text.toList).map (Token.map r.variableOf)

/-- A text read in a session is read over the variables of the registry at the end. -/
theorem parse_eq_of_extends {later r : Registry} {text : String}
    (h : later.Extends (r.parse text).2) :
    (r.parse text).1 = (toPostfix (later.tokensOf text)).map Sentence.mk := by
  have htext := Spells.of_lex text.toList
  rw [r.parse_of_spells htext] at h ⊢
  have hsame : ∀ t ∈ Token.lex text.toList, t.map later.variableOf = t.map
      (r.enrollAll ((Token.lex text.toList).filterMap Token.atom?)).variableOf := by
    intro t ht
    cases t with
    | symbol s =>
        cases s with
        | atom name =>
            have hname : name ∈ (Token.lex text.toList).filterMap Token.atom? :=
              List.mem_filterMap.mpr ⟨_, ht, rfl⟩
            have hissued := issued_enrollAll (r := r) hname (htext.writable _ ht name rfl)
            simp only [Token.map, Symbol.map, h.variableOf_eq hissued]
        | connective c => rfl
    | opening => rfl
    | closing => rfl
  rw [tokensOf, List.map_congr_left hsame]

/-- In a session that has come to the registry `later`, a text was read with a
result. -/
def HasRead (later : Registry) (text : String) (result : Except ReadError Sentence) : Prop :=
  ∃ r : Registry, (r.parse text).1 = result ∧ later.Extends (r.parse text).2

theorem extends_parse (r : Registry) (text : String) : (r.parse text).2.Extends r :=
  ⟨_, congrArg Prod.snd (r.parse_of_spells (Spells.of_lex text.toList))⟩

theorem hasRead_parse (r : Registry) (text : String) :
    (r.parse text).2.HasRead text (r.parse text).1 :=
  ⟨r, rfl, .refl _⟩

/-- What was read stays read as the session goes on. -/
theorem HasRead.of_extends {last later : Registry} {text : String}
    {result : Except ReadError Sentence} (h : later.HasRead text result)
    (hlast : last.Extends later) : last.HasRead text result := by
  obtain ⟨r, hresult, hlater⟩ := h
  exact ⟨r, hresult, hlast.trans hlater⟩

theorem HasRead.eq_toPostfix {later : Registry} {text : String}
    {result : Except ReadError Sentence} (h : later.HasRead text result) :
    result = (toPostfix (later.tokensOf text)).map Sentence.mk := by
  obtain ⟨r, rfl, hlater⟩ := h
  exact parse_eq_of_extends hlater

end Registry

end Sentential
