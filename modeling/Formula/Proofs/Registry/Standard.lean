import Formula.Registry.Standard
import Mathlib.Tactic.Common

/-!
# What is registered

A registry holds the symbols that it was built from and no others, so a statement about all standard
symbols is checked on their list.
-/

namespace Formula

namespace Registry

theorem mem_of_foldlM_register {symbols : List Symbol} {r r' : Registry}
    (h : symbols.foldlM register r = .ok r') {s : Symbol} :
    s ∈ r'.symbols ↔ s ∈ symbols ∨ s ∈ r.symbols := by
  induction symbols generalizing r with
  | nil =>
    cases h
    simp
  | cons t symbols ih =>
    rw [List.foldlM_cons] at h
    cases ht : r.register t with
    | error e => rw [ht] at h; cases h
    | ok r'' =>
      rw [ht] at h
      rw [ih h, (symbols_register ht).2.2, mem_insertByKey, List.mem_cons]
      tauto

/-- **A registry holds the symbols that it was built from.** -/
theorem mem_ofSymbols {symbols : List Symbol} {r : Registry} (h : ofSymbols symbols = .ok r)
    {s : Symbol} : s ∈ r.symbols ↔ s ∈ symbols := by
  simpa [empty] using mem_of_foldlM_register h

theorem mem_standard {s : Symbol} : s ∈ standard.symbols ↔ s ∈ standardSymbols :=
  mem_ofSymbols ofSymbols_standardSymbols

theorem multiplication?_standard : standard.multiplication? ≠ none := by
  have h : standard.multiplication?.isSome = true := by decide +kernel
  intro hnone
  rw [hnone] at h
  cases h

end Registry

/-- Whether all default values of a symbol are numbers. -/
def Symbol.hasReadableDefaults (s : Symbol) : Bool :=
  s.operation?.all fun f =>
    f.signature.parameters.all fun p => p.parameter.default?.all fun l => (constantValue l).isOk

/-- Whether the required parameters of a function come first. -/
def Symbol.isOrdered : Symbol → Bool
  | .function f => f.signature.parameters.Pairwise fun p q =>
      (!q.parameter.isRequired || p.parameter.isRequired) = true
  | _ => true

theorem hasReadableDefaults_of_mem_standardSymbols :
    ∀ s ∈ standardSymbols, s.hasReadableDefaults = true := by
  have h : standardSymbols.all Symbol.hasReadableDefaults = true := by decide +kernel
  simpa using h

theorem isOrdered_of_mem_standardSymbols : ∀ s ∈ standardSymbols, s.isOrdered = true := by
  have h : standardSymbols.all Symbol.isOrdered = true := by decide +kernel
  simpa using h

theorem mem_standardOperators {op : Operator} (h : .operator op ∈ Registry.standard.symbols) :
    op ∈ standardOperators := by
  rw [Registry.mem_standard] at h
  simpa [standardSymbols, standardFunctions, Symbol.named] using h

/-- The standard signs bind alike. -/
theorem signPrecedence_of_mem_standard {op : Operator}
    (h : .operator op ∈ Registry.standard.symbols) (hleft : op.leftOptional = true) :
    op.signPrecedence = 25 := by
  have hall : standardOperators.all (fun op => !op.leftOptional || op.signPrecedence == 25) = true :=
    by decide +kernel
  have hop := List.all_eq_true.1 hall op (mem_standardOperators h)
  simpa [hleft] using hop

/-- A power needs its right operand and binds more tightly than a sign. -/
theorem power_of_mem_standard {op : Operator} (h : .operator op ∈ Registry.standard.symbols)
    (hliteral : op.literal = ['^']) : op.rightOptional = false ∧ op.precedence = 30 := by
  have hall : standardOperators.all (fun op =>
      op.literal != ['^'] || (!op.rightOptional && op.precedence == 30)) = true := by decide +kernel
  have hop := List.all_eq_true.1 hall op (mem_standardOperators h)
  simpa [hliteral] using hop

/-- All other operators bind less tightly than a sign. -/
theorem precedence_lt_of_mem_standard {op : Operator}
    (h : .operator op ∈ Registry.standard.symbols) (hliteral : op.literal ≠ ['^']) :
    op.precedence < 25 := by
  have hall : standardOperators.all (fun op => op.literal == ['^'] || op.precedence < 25) = true := by
    decide +kernel
  have hop := List.all_eq_true.1 hall op (mem_standardOperators h)
  simpa [hliteral] using hop

end Formula
