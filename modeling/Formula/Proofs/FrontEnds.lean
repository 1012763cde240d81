import Formula.Proofs.Lines
import Formula.Proofs.Responses
import Formula.Proofs.Spacing

/-!
# The command line and sessions

A formula may be evaluated by a command, with assignments as options, or in a session in which lines
with the same assignments come before it.  The answers are the same: the same reports, but for the
places that they point to, and the same value.  If variables have no value, the session writes the
compiled formula and their names, and the command reports the first one.

The command reads the formula as it is given and the session without its outer blanks.  Such blanks
matter for places only, so the two formulas are read alike and compiled to the same.
-/

namespace Formula

section Blanks

variable {s t u : Text}

theorem alike_blanks_append (r : Registry) (hs : ∀ c ∈ s, isBlank c = true) (t : Text) :
    (parse r (s ++ t)).Alike (parse r t) := by
  induction s with
  | nil => exact .refl _
  | cons c s ih =>
    obtain ⟨hc, hs⟩ := List.forall_mem_cons.1 hs
    have hdrop : (parse r ([] ++ c :: (s ++ t))).Alike (parse r ([] ++ ([] ++ (s ++ t)))) :=
      alike_respaced r hc (by simp) fun _ => .inl rfl
    exact hdrop.trans (ih hs)

theorem alike_append_blanks (r : Registry) (hu : ∀ c ∈ u, isBlank c = true) (t : Text) :
    (parse r (t ++ u)).Alike (parse r t) := by
  induction u with
  | nil => rw [List.append_nil]; exact .refl _
  | cons c u ih =>
    obtain ⟨hc, hu⟩ := List.forall_mem_cons.1 hu
    have hends : endsWord u = true := by
      cases u with
      | nil => rfl
      | cons d u => exact isDelimiter_of_isBlank (hu d List.mem_cons_self)
    have hdrop : (parse r (t ++ c :: u)).Alike (parse r (t ++ ([] ++ u))) :=
      alike_respaced r hc (by simp) fun _ => .inr hends
    exact hdrop.trans (ih hu)

/-- **Outer blanks do not matter.** -/
theorem alike_trim (r : Registry) (t : Text) : (parse r t).Alike (parse r t.trim) := by
  obtain ⟨s, u, ht, hs, hu⟩ := Text.exists_trim t
  have halike := (alike_blanks_append r hs (t.trim ++ u)).trans (alike_append_blanks r hu t.trim)
  rwa [← ht] at halike

end Blanks

namespace Parse.Alike

variable {p q : Parse} {f : CompiledFormula} {err : CompileError}

/-- Formulas that are read alike have the same reports, but for places. -/
theorem map_header_diagnostics (h : p.Alike q) :
    p.diagnostics.map Diagnostic.header = q.diagnostics.map Diagnostic.header := by
  -- The header of an error is said by its cause, and the header of a hint by its identifier.
  have herrors := congrArg
    (List.map fun c => (ParseError.diagnostic [] ⟨c, 0, 0⟩).header) h.errors
  have hhints := congrArg (List.map fun i => (Hint.diagnostic [] ⟨i, 0⟩).header) h.hints
  rw [List.map_map, List.map_map] at herrors hhints
  rw [diagnostics, diagnostics, List.map_append, List.map_append, List.map_map, List.map_map,
    List.map_map, List.map_map]
  exact congrArg₂ _ herrors hhints

theorem compile_eq_ok (h : p.Alike q) (hp : compile p = .ok f) : compile q = .ok f := by
  have hcompiled := h.compiled
  rw [hp] at hcompiled
  cases hq : compile q with
  | ok g =>
    rw [hq] at hcompiled
    exact hcompiled.symm
  | error e =>
    rw [hq] at hcompiled
    cases hcompiled

/-- If one of the formulas cannot be compiled, the other one cannot for the same reason. -/
theorem compile_eq_error (h : p.Alike q) (hp : compile p = .error err) (t u : Text) :
    ∃ err', compile q = .error err' ∧
      (err.diagnostic? t).toList.map Diagnostic.header =
        (err'.diagnostic? u).toList.map Diagnostic.header := by
  have hheader (e : CompileError) (t : Text) : (e.diagnostic? t).toList.map Diagnostic.header =
      ((e.move fun _ => 0).diagnostic? []).toList.map Diagnostic.header := by
    cases e <;> rfl
  have hcompiled := h.compiled
  rw [hp] at hcompiled
  cases hq : compile q with
  | ok g =>
    rw [hq] at hcompiled
    cases hcompiled
  | error err' =>
    rw [hq] at hcompiled
    refine ⟨err', rfl, ?_⟩
    rw [hheader err, hheader err', Except.error.inj hcompiled]

end Parse.Alike

/-- The answer of a session to a formula is like the outcome of the command that evaluates it, where
the variables have the same values. -/
structure AnswersAlike (t : Text) (value? : Text → Option Float) (response : Response)
    (outcome : Outcome) : Prop where
  /-- If the formula cannot be compiled, both report why and nothing else. -/
  failed : ∀ err, compile (parse .standard t) = .error err →
    outcome = ⟨.failure, [], (parse .standard t).diagnostics ++ (err.diagnostic? t).toList⟩ ∧
      response.output = [] ∧
      response.diagnostics.map Diagnostic.header = outcome.diagnostics.map Diagnostic.header
  /-- If all variables have values, both write the value and report nothing but hints. -/
  value : ∀ f, compile (parse .standard t) = .ok f → (∀ name ∈ f.names, value? name ≠ none) →
    ∃ value, (Evaluator.ofParse (parse .standard t)).evaluateBy value? = .ok value ∧
      outcome = ⟨.success, (Numeral.write value).line, (parse .standard t).diagnostics⟩ ∧
      response.output = (Numeral.write value).line ∧
      response.diagnostics.map Diagnostic.header = outcome.diagnostics.map Diagnostic.header
  /-- Otherwise the session writes the compiled formula and the variables without a value in order,
  and the command reports the first one. -/
  unbound : ∀ f name rest, compile (parse .standard t) = .ok f →
    unboundNames value? f.names = name :: rest →
      outcome = ⟨.failure, [],
        (parse .standard t).diagnostics ++ [(EvalError.unbound name).diagnostic]⟩ ∧
      response.output = f.display.line ++
        Text.line ("Unbound variable(s): ".toList ++ Text.joinWith ", ".toList (name :: rest)) ∧
      response.diagnostics.map Diagnostic.header =
        (parse .standard t).diagnostics.map Diagnostic.header

/-- The command and a session with the same bindings. -/
theorem answersAlike_of_bindings (t : Text) (b : Bindings) :
    AnswersAlike t b.get? (formulaResponse b t.trim)
      (withEvaluator t fun e => (fun value => Text.line (Numeral.write value)) <$>
        e.evaluateBy b.get?) where
  failed err herr := by
    obtain ⟨err', herr', hheader⟩ := (alike_trim .standard t).compile_eq_error herr t t.trim
    refine ⟨withEvaluator_of_error herr _, ?_, ?_⟩
    · rw [formulaResponse_of_error herr']
    · rw [formulaResponse_of_error herr', withEvaluator_of_error herr, List.map_append,
        List.map_append, hheader, (alike_trim .standard t).map_header_diagnostics]
  value f hf hbound := by
    have hf' := (alike_trim .standard t).compile_eq_ok hf
    have hsame : (Evaluator.ofParse (parse .standard t)).evaluateBy b.get? =
        (Evaluator.ofParse (parse .standard t.trim)).evaluateBy b.get? := by
      rw [Evaluator.evaluateBy_of_compiled ((Evaluator.compiled_ofParse _).trans hf),
        Evaluator.evaluateBy_of_compiled ((Evaluator.compiled_ofParse _).trans hf')]
    obtain ⟨value, hvalue, hresponse⟩ := formulaResponse_of_bound hf' hbound
    rw [← hsame] at hvalue
    have houtcome : (withEvaluator t fun e => (fun value => Text.line (Numeral.write value)) <$>
        e.evaluateBy b.get?) =
          ⟨.success, (Numeral.write value).line, (parse .standard t).diagnostics⟩ :=
      withEvaluator_of_value hf (map_eq_ok_iff.2 ⟨value, hvalue, rfl⟩)
    refine ⟨value, hvalue, houtcome, by rw [hresponse], ?_⟩
    rw [hresponse, houtcome, (alike_trim .standard t).map_header_diagnostics]
  unbound f name rest hf hunbound := by
    have hf' := (alike_trim .standard t).compile_eq_ok hf
    have hresponse := formulaResponse_of_unbound hf' (b := b) (by rw [hunbound]; simp)
    rw [hunbound] at hresponse
    have hvalue := evaluateBy_of_unboundNames ((Evaluator.compiled_ofParse _).trans hf) hunbound
    refine ⟨withEvaluator_of_failure hf (map_eq_error_iff.2 hvalue), by rw [hresponse], ?_⟩
    rw [hresponse, (alike_trim .standard t).map_header_diagnostics]

/-- **The command and a session answer alike.**  The assignments are options of the command, and
lines of the session before the formula, to which nothing is answered.  The last assignment of a
name counts. -/
theorem answersAlike_eval (input t : Text) {written : List Text} {assignments : List Assignment}
    (hwritten : List.Forall₂ (fun w a => Assignment.ofText w = .ok a) written assignments)
    (hne : t.trim ≠ []) (hcommand : isCommand t.trim = false) :
    ∃ response,
      (Session.start.run (written.map Session.setLine ++ [t])).map (·.2) =
        written.map (fun _ => .silent) ++ [response] ∧
      AnswersAlike t
        (fun name => firstValue? name (assignments.map fun a => (a.name, a.value)).reverse)
        response ((Command.eval (some t) assignments).run input) := by
  have hbindings := Session.bindings_after_sets hwritten
  generalize hb : Bindings.ofList (assignments.map fun a => (a.name, a.value)) = b at hbindings
  have hget : b.get? =
      fun name => firstValue? name (assignments.map fun a => (a.name, a.value)).reverse := by
    rw [← hb]
    exact funext (Bindings.get?_ofList _)
  refine ⟨formulaResponse b t.trim, ?_, ?_⟩
  · rw [Session.run_append, List.map_append, Session.responses_sets hwritten, Session.run,
      Session.handle_of_reads (.formula hne hcommand), Session.step, hbindings]
    rfl
  · have houtcome : (Command.eval (some t) assignments).run input =
        withEvaluator t fun e => (fun value => Text.line (Numeral.write value)) <$>
          e.evaluateBy b.get? := by
      rw [← hb]
      rfl
    rw [houtcome, ← hget]
    exact answersAlike_of_bindings t b

/-- A variable with two values, of which the last one counts. -/
theorem answersAlike_eval_double :
    (Session.start.run [".set x=1".toList, ".set  x = 3 ".toList, " 2x+1\t".toList]).map
        (·.2.output) = [[], [], "7\n".toList] ∧
      ((Command.eval (some " 2x+1\t".toList) [⟨"x".toList, 1⟩, ⟨"x".toList, 3⟩]).run []).output =
        "7\n".toList := by
  have hwritten : List.Forall₂ (fun w a => Assignment.ofText w = .ok a)
      ["x=1".toList, " x = 3 ".toList] [⟨"x".toList, 1⟩, ⟨"x".toList, 3⟩] := by
    refine .cons ?_ (.cons ?_ .nil)
    · exact Assignment.ofText_eq_ok_iff.2 ⟨"x".toList, "1".toList, by decide, by decide, by decide,
        by decide, by decide +kernel⟩
    · exact Assignment.ofText_eq_ok_iff.2 ⟨" x ".toList, " 3 ".toList, by decide, by decide,
        by decide, by decide, by decide +kernel⟩
  obtain ⟨response, hresponses, hanswers⟩ :=
    answersAlike_eval [] " 2x+1\t".toList hwritten (by decide) (by decide)
  have hok : (compile (parse .standard " 2x+1\t".toList)).isOk = true := by decide +kernel
  obtain ⟨f, hf⟩ := exists_of_isOk hok
  have hnames : (Evaluator.ofParse (parse .standard " 2x+1\t".toList)).names = ["x".toList] := by
    decide +kernel
  rw [Evaluator.names_of_compiled ((Evaluator.compiled_ofParse _).trans hf)] at hnames
  obtain ⟨value, hvalue, houtcome, hresponse, -⟩ := hanswers.value f hf (by rw [hnames]; decide)
  have hseven : ((Evaluator.ofParse (parse .standard " 2x+1\t".toList)).evaluateBy fun name =>
      firstValue? name [("x".toList, 3), ("x".toList, 1)]).toOption = some 7 := by decide +kernel
  have hsame : value = 7 := by
    have hoption := congrArg Except.toOption hvalue
    exact Option.some.inj (hoption.symm.trans hseven)
  have hline : (Numeral.write 7).line = "7\n".toList := by decide +kernel
  rw [hsame, hline] at hresponse houtcome
  constructor
  · have houtputs := congrArg (List.map Response.output) hresponses
    rw [List.map_map, List.map_append, List.map_singleton, hresponse] at houtputs
    exact houtputs
  · rw [houtcome]

end Formula
