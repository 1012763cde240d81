import Formula.Evaluator
import Formula.Proofs.Bindings
import Formula.Proofs.Reduction
import Formula.Registry.Standard

/-!
# Ways to evaluate a formula

A formula is evaluated for a list of values, for values by name, or at the points of a grid.  The
three ways agree: values by name are looked up in the order of the variables, and what is sampled
are the values for lists of at most one value.

Values by name come from a list of pairs or from a map.  Which of these it is does not matter, since
only the values of the variables are looked up.
-/

namespace Formula

section LookUp

open Evaluator (lookUp)

variable {value? value?' : Text → Option Float} {names : List Text} {values : List Float}

theorem lookUp_eq_ok_iff :
    lookUp value? names = .ok values ↔ names.map value? = values.map some := by
  induction names generalizing values with
  | nil => cases values <;> simp [lookUp]
  | cons name names ih =>
    cases hname : value? name with
    | none => cases values <;> simp [lookUp, hname]
    | some value =>
      rw [lookUp, hname, map_eq_ok_iff]
      cases values with
      | nil => simp
      | cons first rest => simp [ih, hname, and_comm]

/-- The first variable without a value is reported. -/
theorem lookUp_eq_error {before after : List Text} {name : Text}
    (hbefore : ∀ m ∈ before, value? m ≠ none) (hname : value? name = none) :
    lookUp value? (before ++ name :: after) = .error (.unbound name) := by
  induction before with
  | nil => rw [List.nil_append, lookUp, hname]
  | cons m before ih =>
    obtain ⟨hm, hbefore⟩ := List.forall_mem_cons.1 hbefore
    obtain ⟨value, hvalue⟩ := Option.ne_none_iff_exists'.1 hm
    rw [List.cons_append, lookUp, hvalue, ih hbefore]
    rfl

/-- Only the names that are looked up matter. -/
theorem lookUp_congr (h : ∀ name ∈ names, value? name = value?' name) :
    lookUp value? names = lookUp value?' names := by
  induction names with
  | nil => rfl
  | cons name names ih =>
    obtain ⟨hname, hnames⟩ := List.forall_mem_cons.1 h
    rw [lookUp, lookUp, hname, ih hnames]

theorem exists_lookUp (h : ∀ name ∈ names, value? name ≠ none) :
    ∃ values, lookUp value? names = .ok values := by
  induction names with
  | nil => exact ⟨[], rfl⟩
  | cons name names ih =>
    obtain ⟨hname, hnames⟩ := List.forall_mem_cons.1 h
    obtain ⟨value, hvalue⟩ := Option.ne_none_iff_exists'.1 hname
    obtain ⟨values, hvalues⟩ := ih hnames
    exact ⟨value :: values, by rw [lookUp, hvalue, hvalues]; rfl⟩

/-- The value at the index of a variable is the value that it is bound to. -/
theorem getElem?_of_lookUp (h : lookUp value? names = .ok values) (name : Text) :
    values[names.idxOf name]? = if name ∈ names then value? name else none := by
  have hvalues : (values.map some)[names.idxOf name]? = (names.map value?)[names.idxOf name]? := by
    rw [lookUp_eq_ok_iff.1 h]
  rw [List.getElem?_map, List.getElem?_map] at hvalues
  split
  · rename_i hname
    rw [List.getElem?_idxOf hname] at hvalues
    obtain ⟨value, hget, hvalue⟩ := Option.map_eq_some_iff.1 hvalues
    rw [hget, hvalue]
  · rename_i hname
    rw [List.idxOf_eq_length hname, List.getElem?_length] at hvalues
    simpa [List.idxOf_eq_length hname] using hvalues

end LookUp

namespace Evaluator

variable {e : Evaluator} {f : CompiledFormula}

theorem compiled_ofParse (p : Parse) : (ofParse p).compiled = compile p := rfl

theorem formula_eq_ok_iff : e.formula = .ok f ↔ e.compiled = .ok f := by
  rw [formula]
  cases e.compiled <;> simp [Except.mapError]

theorem names_of_compiled (h : e.compiled = .ok f) : e.names = f.names := by
  rw [names, h]

theorem evaluateBy_of_compiled (h : e.compiled = .ok f) (value? : Text → Option Float) :
    e.evaluateBy value? = f.eval <$> lookUp value? f.names := by
  rw [evaluateBy, formula_eq_ok_iff.2 h]
  rfl

theorem exists_evaluateBy (h : e.compiled = .ok f) {value? : Text → Option Float}
    (hbound : ∀ name ∈ f.names, value? name ≠ none) :
    ∃ value, e.evaluateBy value? = .ok value := by
  obtain ⟨values, hvalues⟩ := exists_lookUp hbound
  exact ⟨f.eval values, by rw [evaluateBy_of_compiled h, hvalues]; rfl⟩

/-- The first variable without a value is reported. -/
theorem evaluateBy_of_unbound (h : e.compiled = .ok f) {value? : Text → Option Float}
    {before after : List Text} {name : Text} (hnames : f.names = before ++ name :: after)
    (hbefore : ∀ m ∈ before, value? m ≠ none) (hname : value? name = none) :
    e.evaluateBy value? = .error (.unbound name) := by
  rw [evaluateBy_of_compiled h, hnames, lookUp_eq_error hbefore hname]
  rfl

theorem evaluate_of_compiled (h : e.compiled = .ok f) {values : List Float}
    (hlength : values.length = f.names.length) : e.evaluate values = .ok (f.eval values) := by
  rw [evaluate, formula_eq_ok_iff.2 h]
  exact if_pos hlength

theorem formula_of_not_compiled {err : CompileError} (h : e.compiled = .error err) :
    e.formula = .error .notCompiled := by
  rw [formula, h]
  rfl

/-- **The points of a sample** are the values of a formula with one variable at most. -/
theorem sample_eq_ok {first last step : Float} {points : List (Float × Float)}
    (h : e.sample first last step = .ok points) :
    ∃ f, e.compiled = .ok f ∧ f.names.length ≤ 1 ∧
      ∀ p ∈ points, p.2 = f.eval ([p.1].take f.names.length) := by
  simp only [sample] at h
  split at h
  · cases h
  obtain ⟨f, hf, h⟩ := bind_eq_ok_iff.1 h
  split at h
  · cases h
  · rename_i hlength
    refine ⟨f, formula_eq_ok_iff.1 hf, Nat.le_of_not_lt hlength, ?_⟩
    split at h
    · cases h
      simp
    · split at h
      · cases h
      · cases h
        intro p hp
        obtain ⟨x, -, rfl⟩ := List.mem_map.1 hp
        rfl

/-- The ways to evaluate a formula agree with one another. -/
structure Coherent (e : Evaluator) : Prop where
  /-- If every variable has a value, evaluating by name is evaluating with the list of the values in
  the order of the variables, and gives a value. -/
  bound : ∀ f (value? : Text → Option Float) values, e.compiled = .ok f →
    e.names.map value? = values.map some →
      e.evaluateBy value? = e.evaluate values ∧ e.evaluate values = .ok (f.eval values)
  /-- Otherwise the first variable without a value is reported. -/
  unbound : ∀ (value? : Text → Option Float) before name after,
    e.names = before ++ name :: after → (∀ m ∈ before, value? m ≠ none) → value? name = none →
      e.evaluateBy value? = .error (.unbound name)
  /-- Only the values of the variables matter. -/
  congr : ∀ value? value?' : Text → Option Float, (∀ name ∈ e.names, value? name = value?' name) →
    e.evaluateBy value? = e.evaluateBy value?'
  /-- If no name occurs twice in a list of pairs, neither the order of the pairs matters nor whether
  they are looked up in the list, in a hash map or in sorted bindings. -/
  pairs : ∀ l l' : List (Text × Float), (l.map Prod.fst).Nodup → l.Perm l' →
    e.evaluateBy (firstValue? · l') = e.evaluateBy (firstValue? · l) ∧
      e.evaluateBy (fun name => (Std.HashMap.ofList l')[name]?) = e.evaluateBy (firstValue? · l) ∧
      e.evaluateBy (Bindings.ofList l').get? = e.evaluateBy (firstValue? · l)
  /-- A formula that can be sampled has one variable at most, and the points are its values. -/
  sample : ∀ first last step points, e.sample first last step = .ok points →
    (e.names = [] ∧ ∀ x y, (x, y) ∈ points → e.evaluate [] = .ok y) ∨
      ∃ name, e.names = [name] ∧ ∀ x y, (x, y) ∈ points → e.evaluate [x] = .ok y
  /-- What has not been compiled has no values and no points. -/
  notCompiled : ∀ err, e.compiled = .error err →
    (∀ values, e.evaluate values = .error .notCompiled) ∧
      (∀ value?, e.evaluateBy value? = .error .notCompiled) ∧
      ∀ first last step points, e.sample first last step ≠ .ok points

theorem evaluateBy_congr {value? value?' : Text → Option Float}
    (h : ∀ name ∈ e.names, value? name = value?' name) :
    e.evaluateBy value? = e.evaluateBy value?' := by
  cases hc : e.compiled with
  | ok f =>
    rw [names_of_compiled hc] at h
    rw [evaluateBy_of_compiled hc, evaluateBy_of_compiled hc, lookUp_congr h]
  | error err => rw [evaluateBy, evaluateBy, formula_of_not_compiled hc]; rfl

/-- A map with the values of a list gives the same value. -/
theorem evaluateBy_pairs {l l' : List (Text × Float)} (hl : (l.map Prod.fst).Nodup)
    (h : l.Perm l') :
    e.evaluateBy (firstValue? · l') = e.evaluateBy (firstValue? · l) ∧
      e.evaluateBy (fun name => (Std.HashMap.ofList l')[name]?) = e.evaluateBy (firstValue? · l) ∧
      e.evaluateBy (Bindings.ofList l').get? = e.evaluateBy (firstValue? · l) := by
  have hl' : (l'.map Prod.fst).Nodup := (h.map Prod.fst).nodup_iff.1 hl
  have hlist (name : Text) : firstValue? name l' = firstValue? name l :=
    (firstValue?_perm hl h name).symm
  have hreverse (name : Text) : firstValue? name l'.reverse = firstValue? name l := by
    rw [← firstValue?_perm hl' l'.reverse_perm.symm, hlist]
  refine ⟨evaluateBy_congr fun name _ => hlist name, evaluateBy_congr fun name _ => ?_,
    evaluateBy_congr fun name _ => ?_⟩
  · rw [getElem?_hashMap, hreverse]
  · rw [Bindings.get?_ofList, hreverse]

/-- The points of a sample are values for at most one value. -/
theorem evaluate_of_sample {first last step : Float} {points : List (Float × Float)}
    (h : e.sample first last step = .ok points) :
    (e.names = [] ∧ ∀ x y, (x, y) ∈ points → e.evaluate [] = .ok y) ∨
      ∃ name, e.names = [name] ∧ ∀ x y, (x, y) ∈ points → e.evaluate [x] = .ok y := by
  obtain ⟨f, hf, hlength, hpoints⟩ := sample_eq_ok h
  rw [names_of_compiled hf]
  match hnames : f.names with
  | [] =>
    refine .inl ⟨rfl, fun x y hxy => ?_⟩
    have hy : y = f.eval [] := by simpa [hnames] using hpoints (x, y) hxy
    rw [evaluate_of_compiled hf (by simp [hnames]), hy]
  | [name] =>
    refine .inr ⟨name, rfl, fun x y hxy => ?_⟩
    have hy : y = f.eval [x] := by simpa [hnames] using hpoints (x, y) hxy
    rw [evaluate_of_compiled hf (by simp [hnames]), hy]
  | _ :: _ :: _ => simp [hnames] at hlength

/-- **The ways to evaluate a formula agree.** -/
theorem coherent (e : Evaluator) : e.Coherent where
  bound f value? values hf hvalues := by
    have hlookUp := hvalues
    rw [names_of_compiled hf, ← lookUp_eq_ok_iff] at hlookUp
    have hlength : values.length = f.names.length := by
      rw [← names_of_compiled hf, ← List.length_map some, ← hvalues, List.length_map]
    have hvalue : e.evaluate values = .ok (f.eval values) := evaluate_of_compiled hf hlength
    refine ⟨?_, hvalue⟩
    rw [evaluateBy_of_compiled hf, hlookUp, hvalue]
    rfl
  unbound value? before name after hnames hbefore hname := by
    cases hc : e.compiled with
    | ok f =>
      rw [names_of_compiled hc] at hnames
      exact evaluateBy_of_unbound hc hnames hbefore hname
    | error err => simp [names, hc] at hnames
  congr _ _ := evaluateBy_congr
  pairs _ _ := evaluateBy_pairs
  sample _ _ _ _ := evaluate_of_sample
  notCompiled err hc := by
    refine ⟨fun values => ?_, fun value? => ?_, fun first last step points h => ?_⟩
    · rw [evaluate, formula_of_not_compiled hc]
      rfl
    · rw [evaluateBy, formula_of_not_compiled hc]
      rfl
    · obtain ⟨f, hf, -⟩ := sample_eq_ok h
      rw [hf] at hc
      cases hc

/-- A square for a value too many, which comes from a hash map, and for a value too few. -/
theorem coherent_square :
    ∃ f, (ofParse (parse .standard "x^2".toList)).compiled = .ok f ∧
      (ofParse (parse .standard "x^2".toList)).evaluateBy
        (fun name => (Std.HashMap.ofList [("x".toList, (3 : Float)), ("y".toList, 1)])[name]?) =
          .ok (f.eval [3]) ∧
      (ofParse (parse .standard "x^2".toList)).evaluateBy (Bindings.ofList [("y".toList, 1)]).get? =
        .error (.unbound "x".toList) := by
  have h := coherent (ofParse (parse .standard "x^2".toList))
  have hok : (compile (parse .standard "x^2".toList)).isOk = true := by decide +kernel
  have hnames : (ofParse (parse .standard "x^2".toList)).names = ["x".toList] := by decide +kernel
  obtain ⟨f, hf⟩ := exists_of_isOk hok
  have hcompiled := (compiled_ofParse (parse .standard "x^2".toList)).trans hf
  have hpairs := h.pairs [("y".toList, 1), ("x".toList, 3)] [("x".toList, 3), ("y".toList, 1)]
    (by decide) (.swap _ _ _)
  have hbound := h.bound f (firstValue? · [("y".toList, 1), ("x".toList, 3)]) [3] hcompiled
    (by rw [hnames]; decide)
  exact ⟨f, hcompiled, by rw [hpairs.2.1, hbound.1, hbound.2],
    h.unbound _ [] "x".toList [] hnames (by simp) (by decide)⟩

end Evaluator

end Formula
