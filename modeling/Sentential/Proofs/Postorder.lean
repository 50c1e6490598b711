/-
Rows of symbols and the formulas they list.  Building formulas over a stack loses
no symbol and changes no order, so a row of symbols reduces to a formula only if
it is the row that the formula lists.
-/
import Mathlib.Data.List.Basic
import Sentential.Reduction

namespace Sentential

namespace Formula

variable {α : Type}

/-- One step of construction lists one more symbol. -/
theorem flatMap_symbols_of_step {stack next : List (Formula α)} {s : Symbol α}
    (h : construction.step stack s = .ok next) :
    next.reverse.flatMap symbols = stack.reverse.flatMap symbols ++ [s] := by
  obtain ⟨a, f, rfl, hf, rfl⟩ | ⟨f, rest, rfl, rfl, rfl⟩ | ⟨l, r, rest, rfl, rfl, rfl⟩ |
    ⟨l, r, rest, rfl, rfl, rfl⟩ := Interpretation.cases_of_step h
  · cases hf
    simp [symbols]
  · simp [symbols, construction]
  · simp [symbols, construction]
  · simp [symbols, construction]

/-- The formulas on the stack list all symbols read so far. -/
theorem flatMap_symbols_of_run {stack last : List (Formula α)} {row : List (Symbol α)}
    (h : construction.run stack row = .ok last) :
    last.reverse.flatMap symbols = stack.reverse.flatMap symbols ++ row := by
  induction row generalizing stack with
  | nil =>
      cases h
      simp
  | cons s rest ih =>
      rw [Interpretation.run_cons] at h
      obtain ⟨next, hstep, hrest⟩ := bind_eq_ok_iff.mp h
      rw [ih hrest, flatMap_symbols_of_step hstep]
      simp

theorem ofSymbols_eq_ok_iff {row : List (Symbol α)} {f : Formula α} :
    ofSymbols row = .ok f ↔ row = f.symbols := by
  constructor
  · intro h
    have hlisted := flatMap_symbols_of_run (Interpretation.value_eq_ok_iff_run.mp h)
    simpa using hlisted.symm
  · rintro rfl
    exact ofSymbols_symbols f

theorem mapM_symbol?_eq_some_iff {tokens : List (Token α)} {row : List (Symbol α)} :
    tokens.mapM Token.symbol? = some row ↔ tokens = row.map Token.symbol := by
  induction tokens generalizing row with
  | nil => simp
  | cons t rest ih =>
      cases t with
      | symbol s =>
          cases row with
          | nil => simp [Token.symbol?, Option.bind_eq_some_iff]
          | cons head tail => simp [Token.symbol?, Option.bind_eq_some_iff, ih, and_comm]
      | opening => cases row <;> simp [Token.symbol?]
      | closing => cases row <;> simp [Token.symbol?]

theorem map_symbol_injective : Function.Injective (List.map (Token.symbol (α := α))) :=
  List.map_injective_iff.mpr fun _ _ h => Token.symbol.inj h

theorem ofPostfix_map_symbol (row : List (Symbol α)) :
    ofPostfix (row.map Token.symbol) = ofSymbols row := by
  rw [ofPostfix, mapM_symbol?_eq_some_iff.mpr rfl]

theorem ofPostfix_eq_ok_iff {tokens : List (Token α)} {f : Formula α} :
    ofPostfix tokens = .ok f ↔ tokens = f.symbols.map Token.symbol := by
  constructor
  · intro h
    cases hrow : tokens.mapM Token.symbol? with
    | none =>
        rw [ofPostfix, hrow] at h
        cases h
    | some row =>
        have htokens := mapM_symbol?_eq_some_iff.mp hrow
        rw [htokens, ofPostfix_map_symbol] at h
        rw [htokens, ofSymbols_eq_ok_iff.mp h]
  · rintro rfl
    rw [ofPostfix_map_symbol]
    exact ofSymbols_symbols f

end Formula

end Sentential
