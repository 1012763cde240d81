import Formula.Proofs.Compilation

/-!
# Arguments that calls leave out

A call that supplies fewer arguments than its function has parameters is filled up from the first
parameter on that has got no argument.  Whether a call is accepted depends on the number of its
arguments only, which is compared with the number of required parameters.  So an accepted call can
be filled up if the required parameters come first, but not always otherwise: of a function with a
default value for its first parameter only, a call with one argument is accepted, and then lacks the
second one.
-/

namespace Formula

/-- Whether an argument that is left out is replaced by its default value. -/
def Parameter.isFilled (p : Parameter) : Bool := p.isOptional && !p.absorbing

theorem Parameter.isFilled_of_default? {p : Parameter} {literal : Text}
    (hdefault : p.default? = some literal) (habsorbing : ¬ p.absorbing = true) :
    p.isFilled = true := by
  simp [isFilled, isOptional, hdefault, habsorbing]

/-- Whether a call with `n` arguments lacks the argument at index `k`: the parameter is required, and
the arguments before it are supplied or have default values. -/
structure Signature.Lacks (s : Signature) (n k : Nat) : Prop where
  /-- The argument is left out. -/
  omitted : n ≤ k
  /-- A call has to supply it. -/
  required : s.parameters[k]?.any (·.parameter.isRequired) = true
  /-- The arguments that are left out before it can be filled in. -/
  filled : ∀ i, n ≤ i → i < k → s.parameters[i]?.any (·.parameter.isFilled) = true

section Filling

variable {f : Text} {start index : Nat} {ps : List PlacedParameter}

theorem defaultArguments_eq_missingArgument {name : Text} {k pos : Nat}
    (h : defaultArguments f start index ps = .error (.missingArgument name k pos)) :
    name = f ∧ pos = start ∧ ∃ j, k = index + j ∧ ps[j]?.any (·.parameter.isRequired) = true ∧
      ∀ i < j, ps[i]?.any (·.parameter.isFilled) = true := by
  induction ps generalizing index with
  | nil => cases h
  | cons p ps ih =>
    simp only [defaultArguments] at h
    split at h
    · cases h
    · rename_i habsorbing
      split at h
      · rename_i hnone
        cases h
        refine ⟨rfl, rfl, 0, rfl, ?_, by simp⟩
        simp [Parameter.isRequired, Parameter.isOptional, hnone, habsorbing]
      · rename_i literal hdefault
        rcases bind_eq_error_iff.1 h with h | ⟨value, -, h⟩
        · cases (invalidLiteral_of_readLiteral h).1
        · obtain ⟨rfl, rfl, j, rfl, hrequired, hfilled⟩ := ih (bind_pure_eq_error_iff.1 h)
          refine ⟨rfl, rfl, j + 1, by omega, by simpa using hrequired, ?_⟩
          intro i hi
          cases i with
          | zero => simpa using Parameter.isFilled_of_default? hdefault habsorbing
          | succ i => simpa using hfilled i (by omega)

/-- No argument is lacking if all that are left out are filled in. -/
theorem exists_not_filled_of_defaultArguments {values : List Expr}
    (h : defaultArguments f start index ps = .ok values) {j : Nat}
    (hrequired : ps[j]?.any (·.parameter.isRequired) = true) :
    ∃ i < j, ps[i]?.any (·.parameter.isFilled) = false := by
  induction ps generalizing index values j with
  | nil => simp at hrequired
  | cons p ps ih =>
    simp only [defaultArguments] at h
    split at h
    · rename_i habsorbing
      cases j with
      | zero => simp [Parameter.isRequired, habsorbing] at hrequired
      | succ j => exact ⟨0, by omega, by simp [Parameter.isFilled, habsorbing]⟩
    · split at h
      · cases h
      · rename_i literal hdefault
        obtain ⟨value, -, h⟩ := bind_eq_ok_iff.1 h
        obtain ⟨rest, hrest, -⟩ := bind_eq_ok_iff.1 h
        cases j with
        | zero => simp [Parameter.isRequired, Parameter.isOptional, hdefault] at hrequired
        | succ j =>
          obtain ⟨i, hi, hfilled⟩ := ih hrest (by simpa using hrequired)
          exact ⟨i + 1, by omega, by simpa using hfilled⟩

end Filling

section Calls

variable {f : Operation} {start n : Nat}

/-- An argument that is reported as missing is lacking. -/
theorem missingArguments_eq_missingArgument {name : Text} {k pos : Nat}
    (h : missingArguments f start n = .error (.missingArgument name k pos)) :
    name = f.literal ∧ pos = start ∧ f.signature.Lacks n k := by
  obtain ⟨rfl, rfl, j, rfl, hrequired, hfilled⟩ := defaultArguments_eq_missingArgument h
  refine ⟨rfl, rfl, ⟨by omega, by simpa using hrequired, ?_⟩⟩
  intro i hle hlt
  obtain ⟨i, rfl⟩ := Nat.exists_eq_add_of_le hle
  simpa using hfilled i (by omega)

/-- A call that can be filled up lacks no argument. -/
theorem not_lacks_of_missingArguments {values : List Expr}
    (h : missingArguments f start n = .ok values) (k : Nat) : ¬ f.signature.Lacks n k := by
  rintro ⟨hle, hrequired, hfilled⟩
  obtain ⟨j, rfl⟩ := Nat.exists_eq_add_of_le hle
  obtain ⟨i, hi, hnot⟩ := exists_not_filled_of_defaultArguments h (j := j) (by simpa using hrequired)
  have hfilled := hfilled (n + i) (by omega) (by omega)
  rw [List.getElem?_drop] at hnot
  rw [hfilled] at hnot
  cases hnot

/-- A call that lacks no argument can be filled up if the default values are numbers. -/
theorem exists_missingArguments (hlacks : ∀ k, ¬ f.signature.Lacks n k)
    (hreadable : ∀ p ∈ f.signature.parameters, ∀ literal, p.parameter.default? = some literal →
      ∀ cause, constantValue literal ≠ .error cause) :
    ∃ values, missingArguments f start n = .ok values := by
  cases h : missingArguments f start n with
  | ok values => exact ⟨values, rfl⟩
  | error e =>
    rcases defaultArguments_eq_error h with ⟨k, rfl, -⟩ | ⟨literal, -, ⟨p, hp, hdefault⟩, cause, hcause⟩
    · exact absurd (missingArguments_eq_missingArgument h).2.2 (hlacks k)
    · exact absurd hcause (hreadable p (List.mem_of_mem_drop hp) literal hdefault cause)

end Calls

/-! ## Accepted calls -/

/-- Where a list has its last element with a property. -/
theorem exists_last {α : Type} {P : α → Bool} {l : List α} (h : ∃ a ∈ l, P a = true) :
    ∃ before a after, l = before ++ a :: after ∧ P a = true ∧ ∀ b ∈ after, P b = false := by
  obtain ⟨a, ha⟩ : ∃ a, l.reverse.find? P = some a :=
    Option.isSome_iff_exists.1 (by simpa [List.find?_isSome] using h)
  obtain ⟨hPa, after, before, hl, hafter⟩ := List.find?_eq_some_iff_append.1 ha
  refine ⟨before.reverse, a, after.reverse, ?_, hPa, by simpa using hafter⟩
  rw [← l.reverse_reverse, hl]
  simp

namespace Signature

variable {s : Signature}

/-- An accepted call lacks an argument only if the parameters are misordered. -/
theorem Lacks.misordered {n k : Nat} (h : s.Lacks n k) (haccepts : s.accepts n = true) :
    s.Misordered := by
  obtain ⟨hle, hrequired, -⟩ := h
  obtain ⟨q, hq, hrequired⟩ := (Option.any_eq_true _ _).1 hrequired
  simp only [accepts, Bool.and_eq_true, decide_eq_true_eq] at haccepts
  refine misordered_of_mem_drop haccepts.1 (List.mem_iff_getElem?.2 ⟨k - n, ?_⟩) hrequired
  rw [List.getElem?_drop, Nat.add_sub_cancel' hle]
  exact hq

/-- A call may leave out the last required parameter and what comes after it, if there are others
before it that it supplies all the same. -/
theorem exists_lacks_of_misordered (h : s.Misordered) :
    ∃ n, s.accepts n = true ∧ s.Lacks n n := by
  obtain ⟨i, j, p, q, hij, hi, hj, hp, hq⟩ := h
  obtain ⟨before, last, after, hs, hlast, hafter⟩ :=
    exists_last (P := fun p => p.parameter.isRequired) ⟨q, List.mem_of_getElem? hj, hq⟩
  have hle : j ≤ before.length := by
    by_contra hlt
    rw [hs, List.getElem?_append_right (by omega), List.getElem?_cons] at hj
    rw [if_neg (by omega)] at hj
    rw [hafter q (List.mem_of_getElem? hj)] at hq
    cases hq
  -- not all of the parameters before the last required one are required
  have hcount : before.countP (·.parameter.isRequired) < before.length := by
    refine Nat.lt_of_le_of_ne List.countP_le_length ?_
    intro hall
    rw [hs, List.getElem?_append_left (by omega)] at hi
    have hp' := List.countP_eq_length.1 hall p (List.mem_of_getElem? hi)
    rw [hp] at hp'
    cases hp'
  have hrequired : s.required ≤ before.length := by
    have hnone : after.countP (·.parameter.isRequired) = 0 := by
      rw [List.countP_eq_zero]
      intro b hb
      simp [hafter b hb]
    rw [required, hs, List.countP_append, List.countP_cons, hnone, if_pos hlast]
    omega
  have hlength : before.length ≤ s.parameters.length := by simp [hs]
  refine ⟨before.length, ?_, ⟨Nat.le_refl _, ?_, by omega⟩⟩
  · rw [accepts, maximum?]
    split <;> simp [hrequired, hlength]
  · simp [hs, hlast]

/-- **An accepted call may lack an argument just if a required parameter comes after one that is
not.** -/
theorem misordered_iff : s.Misordered ↔ ∃ n k, s.accepts n = true ∧ s.Lacks n k := by
  constructor
  · intro h
    obtain ⟨n, haccepts, hlacks⟩ := exists_lacks_of_misordered h
    exact ⟨n, n, haccepts, hlacks⟩
  · rintro ⟨n, k, haccepts, hlacks⟩
    exact hlacks.misordered haccepts

end Signature

/-! ## Formulas -/

/-- **Which calls cannot be filled up.**  If the compilation of a formula that has been read without
errors reports a missing argument, then a call at that position lacks it.  A call that lacks an
argument is one of a function whose required parameters do not come first, and a formula with such a
call is not compiled.  All other calls can be filled up if all default values are numbers. -/
theorem lacks_of_compile (r : Registry) (text : Text) (hclean : (parse r text).isClean = true) :
    (∀ name k start, compile (parse r text) = .error (.missingArgument name k start) →
      ∃ f e slots, .call f e slots ∈ walkAll (parse r text).items ∧ f.literal = name ∧
        e.start = start ∧ f.signature.Lacks (suppliedArguments slots) k) ∧
    ∀ f e slots, .call f e slots ∈ walkAll (parse r text).items →
      .function f ∈ r.symbols ∧ f.signature.accepts (suppliedArguments slots) = true ∧
      (∀ k, f.signature.Lacks (suppliedArguments slots) k →
        f.signature.Misordered ∧ ∀ c, compile (parse r text) ≠ .ok c) ∧
      ((∀ k, ¬ f.signature.Lacks (suppliedArguments slots) k) →
        (∀ literal, ¬ r.UnreadableDefault literal) →
        ∃ values, missingArguments f e.start (suppliedArguments slots) = .ok values) := by
  constructor
  · intro name k start h
    -- only a call reports a missing argument
    refine error_of_compile (P := fun e => e = .missingArgument name k start →
      ∃ f written slots, .call f written slots ∈ walkAll (parse r text).items ∧ f.literal = name ∧
        written.start = start ∧ f.signature.Lacks (suppliedArguments slots) k)
      hclean (by simp) (by simp) (by simp) ?_ h rfl
    rintro f written slots hcall e he rfl
    obtain ⟨rfl, rfl, hlacks⟩ := missingArguments_eq_missingArgument he
    exact ⟨f, written, slots, hcall, rfl, rfl, hlacks⟩
  · intro f e slots hcall
    obtain ⟨hsound, hasLeft, hasRight, haccepts, -⟩ := sound_of_mem_walkAll hclean hcall
    refine ⟨hsound.call.1, haccepts, ?_, ?_⟩
    · intro k hlacks
      refine ⟨Signature.misordered_iff.2 ⟨_, k, haccepts, hlacks⟩, ?_⟩
      intro c hc
      obtain ⟨-, tree, htree, -⟩ := builds_of_compile hc
      obtain ⟨value, hvalue⟩ := exists_compile_of_mem_walkAll htree hcall rfl
      obtain ⟨-, missing, -, hmissing, -⟩ := compile_call_eq_ok hvalue
      exact not_lacks_of_missingArguments hmissing k hlacks
    · intro hlacks hreadable
      refine exists_missingArguments hlacks ?_
      intro p hp literal hdefault cause hcause
      exact hreadable literal
        ⟨⟨.function f, hsound.call.1, f, rfl, p, hp, hdefault⟩, cause, hcause⟩

/-- The standard functions declare their required parameters first. -/
theorem lacks_of_compile_log :
    (parse .standard "log(8)".toList).isClean = true ∧
      ∀ name k start, compile (parse .standard "log(8)".toList) ≠
        .error (.missingArgument name k start) := by
  have hclean : (parse .standard "log(8)".toList).isClean = true := by decide +kernel
  refine ⟨hclean, ?_⟩
  intro name k start h
  obtain ⟨horigin, hcalls⟩ := lacks_of_compile .standard "log(8)".toList hclean
  obtain ⟨f, e, slots, hcall, -, -, hlacks⟩ := horigin name k start h
  obtain ⟨hf, -, hmisordered, -⟩ := hcalls f e slots hcall
  exact not_misorderedFunction_standard f.literal ⟨f, hf, rfl, (hmisordered k hlacks).1⟩

/-- A power with a default value for its base, which comes first, but none for its exponent. -/
def powerOfTwo : Symbol :=
  .named "pow" "Power" .pow [.required, ⟨.optional "2".toList, some 0⟩]

/-- **An accepted call may lack an argument.** -/
theorem not_forall_ne_missingArgument :
    ¬ ∀ (symbols : List Symbol) (r : Registry) (text : Text), Registry.ofSymbols symbols = .ok r →
      (parse r text).isClean = true →
        ∀ name k start, compile (parse r text) ≠ .error (.missingArgument name k start) := by
  intro hall
  have hbuilt : (Registry.ofSymbols [powerOfTwo]).isOk = true := by decide +kernel
  have hpow : (Registry.ofSymbols [powerOfTwo]).toOption.all (fun r =>
      (parse r "pow(3)".toList).isClean && match compile (parse r "pow(3)".toList) with
        | .error e => e = .missingArgument "pow".toList 1 0
        | .ok _ => false) = true := by decide +kernel
  obtain ⟨r, hr⟩ := exists_of_isOk hbuilt
  rw [hr] at hpow
  obtain ⟨hclean, hcompile⟩ := Bool.and_eq_true_iff.1 hpow
  cases h : compile (parse r "pow(3)".toList) with
  | ok f =>
    rw [h] at hcompile
    cases hcompile
  | error e =>
    rw [h] at hcompile
    obtain rfl : e = .missingArgument "pow".toList 1 0 := of_decide_eq_true hcompile
    exact hall _ r _ hr hclean _ _ _ h

end Formula
