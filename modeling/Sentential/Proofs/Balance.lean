/-
Parentheses that match.  Each token leaves as many frames open as the parentheses read so
far are deep, so a closing parenthesis finds no frame just where more are closed than
opened, and frames are left at the end just where more are opened than closed.  Nothing
else stops reordering, nor the reading of a text.
-/
import Mathlib.Data.List.Basic
import Sentential.Grammar
import Sentential.Proofs.SingleStack
import Sentential.Proofs.Spelling

namespace Sentential

variable {α β : Type}

section Counting

variable (t : Token α) (left right tokens : List (Token α))

@[simp] theorem openings_append :
    openings (left ++ right) = openings left + openings right :=
  List.countP_append

@[simp] theorem closings_append :
    closings (left ++ right) = closings left + closings right :=
  List.countP_append

theorem openings_cons : openings (t :: tokens) = openings [t] + openings tokens :=
  openings_append [t] tokens

theorem closings_cons : closings (t :: tokens) = closings [t] + closings tokens :=
  closings_append [t] tokens

theorem openings_enclose : openings (enclose tokens) = openings tokens + 1 := by
  rw [enclose, List.cons_append, openings_cons, openings_append]
  exact Nat.add_comm _ _

theorem closings_enclose : closings (enclose tokens) = closings tokens + 1 := by
  rw [enclose, List.cons_append, closings_cons, closings_append]
  exact Nat.zero_add _

@[simp] theorem openings_map (f : α → β) :
    openings (tokens.map (Token.map f)) = openings tokens := by
  rw [openings, List.countP_map]
  congr 1
  funext t
  cases t <;> rfl

@[simp] theorem closings_map (f : α → β) :
    closings (tokens.map (Token.map f)) = closings tokens := by
  rw [closings, List.countP_map]
  congr 1
  funext t
  cases t <;> rfl

end Counting

/-- Renaming atoms leaves the parentheses as they are. -/
theorem balanced_map_iff {f : α → β} {tokens : List (Token α)} :
    Balanced (tokens.map (Token.map f)) ↔ Balanced tokens := by
  rw [Balanced, Balanced, openings_map, closings_map]
  refine and_congr_left fun _ => ⟨?_, ?_⟩
  · intro h head hhead
    simpa using h (head.map (Token.map f)) (hhead.map _)
  · intro h head hhead
    obtain ⟨original, horiginal, rfl⟩ := List.prefix_map_iff.mp hhead
    simpa using h original horiginal

namespace Reordering

variable {state next after : Reordering α} {t : Token α} {tokens : List (Token α)}
  {e : ReadError}

/-- A token opens or closes as many frames as parentheses. -/
theorem length_enclosing_of_step (h : state.step t = .ok next) :
    next.enclosing.length + closings [t] = state.enclosing.length + openings [t] := by
  obtain ⟨a, rfl, rfl⟩ | ⟨c, rfl, rfl⟩ | ⟨rfl, rfl⟩ | ⟨outer, rest, rfl, hopen, rfl⟩ :=
    cases_of_step h
  · rfl
  · rfl
  · rfl
  · rw [hopen]
    rfl

theorem length_enclosing_of_run (h : state.run tokens = .ok after) :
    after.enclosing.length + closings tokens =
      state.enclosing.length + openings tokens := by
  induction tokens generalizing state with
  | nil =>
      cases h
      rfl
  | cons t rest ih =>
      rw [run_cons] at h
      obtain ⟨next, hstep, hrest⟩ := bind_eq_ok_iff.mp h
      have hone := length_enclosing_of_step hstep
      have hmore := ih hrest
      rw [openings_cons, closings_cons]
      omega

/-- Reading stops where more parentheses are closed than were open. -/
theorem run_eq_error_iff :
    state.run tokens = .error e ↔
      (∃ head, head <+: tokens ∧ state.enclosing.length + openings head < closings head) ∧
        e = .mismatchedParenthesis := by
  induction tokens generalizing state with
  | nil =>
      refine ⟨nofun, ?_⟩
      rintro ⟨⟨head, hhead, hexcess⟩, _⟩
      rw [List.prefix_nil.mp hhead] at hexcess
      exact absurd hexcess (Nat.not_lt_zero _)
  | cons t rest ih =>
      rw [run_cons]
      cases hstep : state.step t with
      | error failure =>
          obtain ⟨rfl, hclosed, rfl⟩ := step_eq_error_iff.mp hstep
          have hexcess : state.enclosing.length + openings [(.closing : Token α)] <
              closings [(.closing : Token α)] := by
            rw [hclosed]
            exact Nat.zero_lt_one
          constructor
          · intro h
            cases h
            exact ⟨⟨[.closing], ⟨rest, rfl⟩, hexcess⟩, rfl⟩
          · rintro ⟨_, rfl⟩
            rfl
      -- a prefix that closes too much for `state` is `t` and one that does for `next`
      | ok next =>
          have hone := length_enclosing_of_step hstep
          change next.run rest = _ ↔ _
          rw [ih]
          refine and_congr_left fun _ => ⟨?_, ?_⟩
          · rintro ⟨head, hhead, hexcess⟩
            refine ⟨t :: head, List.cons_prefix_cons.mpr ⟨rfl, hhead⟩, ?_⟩
            rw [openings_cons, closings_cons]
            omega
          · rintro ⟨head, hhead, hexcess⟩
            obtain rfl | ⟨shorter, rfl, hshorter⟩ := List.prefix_cons_iff.mp hhead
            · exact absurd hexcess (Nat.not_lt_zero _)
            · refine ⟨shorter, hshorter, ?_⟩
              rw [openings_cons, closings_cons] at hexcess
              omega

theorem finish_eq_error_iff :
    state.finish = .error e ↔ state.enclosing ≠ [] ∧ e = .mismatchedParenthesis := by
  obtain ⟨emitted, pending, enclosing⟩ := state
  rcases enclosing with _ | ⟨frame, below⟩ <;> simp [finish, eq_comm]

end Reordering

/-- Only parentheses that do not match keep tokens from being reordered. -/
theorem toPostfix_eq_error_iff {tokens : List (Token α)} {e : ReadError} :
    toPostfix tokens = .error e ↔ ¬ Balanced tokens ∧ e = .mismatchedParenthesis := by
  have hexcess : (∃ head, head <+: tokens ∧
      ({} : Reordering α).enclosing.length + openings head < closings head) ↔
        ¬ ∀ head, head <+: tokens → closings head ≤ openings head := by
    simp
  rw [toPostfix]
  cases hrun : Reordering.run {} tokens with
  | error failure =>
      obtain ⟨hhead, rfl⟩ := Reordering.run_eq_error_iff.mp hrun
      have hunbalanced : ¬ Balanced tokens := fun h => hexcess.mp hhead h.1
      constructor
      · intro h
        cases h
        exact ⟨hunbalanced, rfl⟩
      · rintro ⟨_, rfl⟩
        rfl
  | ok after =>
      have hdepth := Reordering.length_enclosing_of_run hrun
      have hnever : ∀ head, head <+: tokens → closings head ≤ openings head := by
        by_contra hsome
        have herror := Reordering.run_eq_error_iff.mpr ⟨hexcess.mpr hsome, rfl⟩
        rw [hrun] at herror
        cases herror
      change after.finish = _ ↔ _
      rw [Reordering.finish_eq_error_iff]
      refine and_congr_left fun _ => not_congr ?_
      rw [Balanced, ← List.length_eq_zero_iff]
      constructor
      · intro hclosed
        refine ⟨hnever, ?_⟩
        simpa [hclosed] using hdepth
      · rintro ⟨_, hequal⟩
        simpa [hequal] using hdepth

theorem exists_toPostfix_iff {tokens : List (Token α)} :
    (∃ row, toPostfix tokens = .ok row) ↔ Balanced tokens := by
  cases hrow : toPostfix tokens with
  | ok row =>
      refine ⟨fun _ => ?_, fun _ => ⟨row, rfl⟩⟩
      by_contra hunbalanced
      have herror := toPostfix_eq_error_iff.mpr ⟨hunbalanced, rfl⟩
      rw [hrow] at herror
      cases herror
  | error e =>
      exact ⟨nofun, fun h => absurd h (toPostfix_eq_error_iff.mp hrow).1⟩

/-- The parentheses of a text match: nowhere are more of them closed so far than opened,
and as many are closed as opened in the end. -/
def Matched (text : List Char) : Prop :=
  (∀ head, head <+: text → head.count ')' ≤ head.count '(') ∧
    text.count ')' = text.count '('

/-- A token is a parenthesis just when its sign is. -/
theorem Token.Writable.counts_sign {t : Token Char} (ht : t.Writable) :
    openings [t] = [t.sign].count '(' ∧ closings [t] = [t.sign].count ')' := by
  rcases t with (name | c) | _ | _
  · have hname : ¬ Reserved name := ht name rfl
    have hopening : name ≠ '(' := fun h => hname (h ▸ by decide)
    have hclosing : name ≠ ')' := fun h => hname (h ▸ by decide)
    constructor
    · exact (List.count_eq_zero_of_not_mem (by simpa [Token.sign] using hopening.symm)).symm
    · exact (List.count_eq_zero_of_not_mem (by simpa [Token.sign] using hclosing.symm)).symm
  · rcases c with _ | _ | _ <;> exact ⟨rfl, rfl⟩
  · exact ⟨rfl, rfl⟩
  · exact ⟨rfl, rfl⟩

/-- A text has the parentheses of the tokens it spells. -/
theorem Spells.counts {text : List Char} {tokens : List (Token Char)} (h : Spells text tokens) :
    openings tokens = text.count '(' ∧ closings tokens = text.count ')' := by
  induction h with
  | nil => exact ⟨rfl, rfl⟩
  | space _ ih => simpa using ih
  | @token t text tokens ht _ ih =>
      obtain ⟨hopening, hclosing⟩ := ht.counts_sign
      rw [openings_cons, closings_cons, hopening, hclosing, ih.1, ih.2,
        ← List.count_append, ← List.count_append]
      exact ⟨rfl, rfl⟩

section Text

variable {text : List Char}

theorem openings_lex (text : List Char) : openings (Token.lex text) = text.count '(' :=
  (Spells.of_lex text).counts.1

theorem closings_lex (text : List Char) : closings (Token.lex text) = text.count ')' :=
  (Spells.of_lex text).counts.2

/-- The parentheses of a text match just when those of its tokens do. -/
theorem balanced_lex_iff : Balanced (Token.lex text) ↔ Matched text := by
  rw [Balanced, Matched, openings_lex, closings_lex]
  refine and_congr_left fun _ => ⟨?_, ?_⟩
  · rintro h head ⟨rest, rfl⟩
    rw [← openings_lex, ← closings_lex]
    apply h
    rw [Token.lex_append]
    exact List.prefix_append _ _
  · rintro h head ⟨rest, hsplit⟩
    obtain ⟨front, back, rfl, rfl, _⟩ := List.filterMap_eq_append_iff.mp hsplit.symm
    have hfront := h front (List.prefix_append _ _)
    rw [← openings_lex, ← closings_lex] at hfront
    exact hfront

end Text

/-- So they do just when those of its tokens over variables do. -/
theorem Registry.balanced_tokensOf_iff (r : Registry) {text : String} :
    Balanced (r.tokensOf text) ↔ Matched text.toList :=
  balanced_map_iff.trans balanced_lex_iff

/-- Tokens cannot be reordered, and a text cannot be read, just when their parentheses do
not match, and there is no other cause.  A single stack in place of the frames tells the
same, and as many parentheses wait on it as are open. -/
theorem mismatched_iff_unbalanced (tokens : List (Token α)) (r : Registry) (text : String) :
    (∀ e, toPostfix tokens = .error e ↔ ¬ Balanced tokens ∧ e = .mismatchedParenthesis) ∧
      (∀ e, (r.parse text).1 = .error e ↔
        ¬ Matched text.toList ∧ e = .mismatchedParenthesis) ∧
      SingleStack.toPostfix tokens = toPostfix tokens ∧
      ∀ state, SingleStack.run {} tokens = .ok state →
        state.waiting.count .parenthesis + closings tokens = openings tokens := by
  refine ⟨fun e => toPostfix_eq_error_iff, fun e => ?_, SingleStack.toPostfix_eq tokens, ?_⟩
  · rw [Registry.parse_eq_of_extends (.refl _), map_eq_error_iff, toPostfix_eq_error_iff,
      Registry.balanced_tokensOf_iff]
  · intro state hstate
    have hrun := SingleStack.run_toSingleStack ({} : Reordering α) tokens
    obtain ⟨frames, hframes, rfl⟩ := map_eq_ok_iff.mp (hrun.symm.trans hstate)
    have hdepth := Reordering.length_enclosing_of_run hframes
    change frames.waiting.count .parenthesis + _ = _
    rw [frames.count_parenthesis_waiting, hdepth]
    exact Nat.zero_add _

/-- The text has as many closing as opening parentheses, but closes one too early. -/
example : (Registry.empty.parse ")a(").1 = .error .mismatchedParenthesis := by
  decide +kernel

end Sentential
