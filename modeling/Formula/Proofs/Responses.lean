import Formula.Request
import Formula.Proofs.Compilation
import Formula.Proofs.Evaluation

/-!
# What is answered to a formula

A session answers to a formula in one of three ways: it reports why the formula cannot be compiled,
it writes the value, or it writes the compiled formula and the variables that have no value.  The
command that evaluates a formula does the same, but for the last case, where it reports the first
variable without a value.
-/

namespace Formula

variable {t : Text} {f : CompiledFormula} {err : CompileError}

/-- Errors of reading are the only ones of a formula that is not clean. -/
theorem diagnostic?_of_not_clean {p : Parse} (h : compile p = .error err)
    (hclean : p.isClean = false) (t : Text) : err.diagnostic? t = none := by
  rw [compile, if_neg (by simpa [Parse.isClean] using hclean)] at h
  cases h
  rfl

theorem error?_of_compile (h : compile (parse .standard t) = .error err) :
    (Evaluator.ofParse (parse .standard t)).error? = some err := by
  rw [Evaluator.error?, Evaluator.ofParse, h]

theorem formulaResponse_of_error (h : compile (parse .standard t) = .error err) (b : Bindings) :
    formulaResponse b t =
      ⟨[], (parse .standard t).diagnostics ++ (err.diagnostic? t).toList⟩ := by
  cases hclean : (parse .standard t).isClean with
  | false =>
    rw [diagnostic?_of_not_clean h hclean]
    simp [formulaResponse, hclean]
  | true => simp [formulaResponse, hclean, error?_of_compile h]

theorem withEvaluator_of_error (h : compile (parse .standard t) = .error err)
    (use : Evaluator → Except EvalError Text) :
    withEvaluator t use =
      ⟨.failure, [], (parse .standard t).diagnostics ++ (err.diagnostic? t).toList⟩ := by
  cases hclean : (parse .standard t).isClean with
  | false =>
    rw [diagnostic?_of_not_clean h hclean]
    simp [withEvaluator, hclean]
  | true => simp [withEvaluator, hclean, error?_of_compile h]

/-- The variables without a value, in order. -/
def unboundNames (value? : Text → Option Float) (names : List Text) : List Text :=
  names.filter fun name => (value? name).isNone

theorem unboundNames_eq_nil_iff {value? : Text → Option Float} {names : List Text} :
    unboundNames value? names = [] ↔ ∀ name ∈ names, value? name ≠ none := by
  simp [unboundNames, List.filter_eq_nil_iff]

/-- The first of the variables without a value is reported. -/
theorem evaluateBy_of_unboundNames {e : Evaluator} {value? : Text → Option Float} {name : Text}
    {rest : List Text} (h : e.compiled = .ok f)
    (hnames : unboundNames value? f.names = name :: rest) :
    e.evaluateBy value? = .error (.unbound name) := by
  obtain ⟨before, after, hsplit, hbefore, hname, -⟩ := List.filter_eq_cons_iff.1 hnames
  refine Evaluator.evaluateBy_of_unbound h hsplit (fun m hm hnone => ?_) (by simpa using hname)
  exact hbefore m hm (by rw [hnone]; rfl)

section Compiled

variable (h : compile (parse .standard t) = .ok f)

include h

theorem error?_eq_none_of_compile : (Evaluator.ofParse (parse .standard t)).error? = none := by
  rw [Evaluator.error?, Evaluator.ofParse, h]

/-- The answer to a formula with values for all of its variables. -/
theorem formulaResponse_of_bound {b : Bindings} (hbound : ∀ name ∈ f.names, b.get? name ≠ none) :
    ∃ value, (Evaluator.ofParse (parse .standard t)).evaluateBy b.get? = .ok value ∧
      formulaResponse b t = ⟨(Numeral.write value).line, (parse .standard t).diagnostics⟩ := by
  have hcompiled := (Evaluator.compiled_ofParse (parse .standard t)).trans h
  obtain ⟨value, hvalue⟩ := Evaluator.exists_evaluateBy hcompiled hbound
  have hclean := (builds_of_compile h).1
  have hnone : f.names.filter (fun name => (b.get? name).isNone) = [] :=
    unboundNames_eq_nil_iff.2 hbound
  refine ⟨value, hvalue, ?_⟩
  simp only [formulaResponse, hclean, error?_eq_none_of_compile h,
    Evaluator.names_of_compiled hcompiled, hnone, hvalue]
  rfl

/-- The answer to a formula with variables that have no value. -/
theorem formulaResponse_of_unbound {b : Bindings} (hunbound : unboundNames b.get? f.names ≠ []) :
    formulaResponse b t = ⟨f.display.line ++
      Text.line ("Unbound variable(s): ".toList ++
        Text.joinWith ", ".toList (unboundNames b.get? f.names)),
      (parse .standard t).diagnostics⟩ := by
  have hcompiled := (Evaluator.compiled_ofParse (parse .standard t)).trans h
  have hclean := (builds_of_compile h).1
  have hdisplay : (Evaluator.ofParse (parse .standard t)).display = f.display := by
    rw [Evaluator.display, Evaluator.ofParse, h]
  rw [unboundNames] at hunbound ⊢
  simp only [formulaResponse, hclean, error?_eq_none_of_compile h,
    Evaluator.names_of_compiled hcompiled, if_neg hunbound, hdisplay]
  rfl

theorem withEvaluator_of_value {use : Evaluator → Except EvalError Text} {output : Text}
    (huse : use (.ofParse (parse .standard t)) = .ok output) :
    withEvaluator t use = ⟨.success, output, (parse .standard t).diagnostics⟩ := by
  have hclean := (builds_of_compile h).1
  simp only [withEvaluator, hclean, error?_eq_none_of_compile h, huse]
  rfl

theorem withEvaluator_of_failure {use : Evaluator → Except EvalError Text} {e : EvalError}
    (huse : use (.ofParse (parse .standard t)) = .error e) :
    withEvaluator t use =
      ⟨.failure, [], (parse .standard t).diagnostics ++ [e.diagnostic]⟩ := by
  have hclean := (builds_of_compile h).1
  simp only [withEvaluator, hclean, error?_eq_none_of_compile h, huse]
  rfl

end Compiled

theorem code_ne_of_mem_diagnostics {p : Parse} {d : Diagnostic} (h : d ∈ p.diagnostics) :
    d.code ≠ "EVAL".toList := by
  rcases List.mem_append.1 h with h | h
  · obtain ⟨e, -, rfl⟩ := List.mem_map.1 h
    simp only [ParseError.diagnostic]
    cases e.cause.category <;> decide
  · obtain ⟨e, -, rfl⟩ := List.mem_map.1 h
    simp only [Hint.diagnostic]
    decide

theorem code_ne_of_mem_diagnostic? {d : Diagnostic} (h : d ∈ (err.diagnostic? t).toList) :
    d.code ≠ "EVAL".toList := by
  have hne : "COMPILE".toList ≠ "EVAL".toList := by decide
  rw [Option.mem_toList] at h
  cases err with
  | parseErrors => cases h
  | emptyExpression | missingOperand | missingArgument | invalidLiteral | missingMultiplication =>
    cases h
    exact hne

/-- **A session never reports that a variable has no value.** -/
theorem code_ne_of_mem_formulaResponse {b : Bindings} {d : Diagnostic}
    (h : d ∈ (formulaResponse b t).diagnostics) : d.code ≠ "EVAL".toList := by
  cases hc : compile (parse .standard t) with
  | error err =>
    rw [formulaResponse_of_error hc] at h
    exact (List.mem_append.1 h).elim code_ne_of_mem_diagnostics code_ne_of_mem_diagnostic?
  | ok f =>
    by_cases hunbound : unboundNames b.get? f.names = []
    · obtain ⟨value, -, hresponse⟩ :=
        formulaResponse_of_bound hc (unboundNames_eq_nil_iff.1 hunbound)
      rw [hresponse] at h
      exact code_ne_of_mem_diagnostics h
    · rw [formulaResponse_of_unbound hc hunbound] at h
      exact code_ne_of_mem_diagnostics h

end Formula
