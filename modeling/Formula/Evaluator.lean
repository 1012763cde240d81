import Formula.Compile

/-!
# Evaluating and sampling a formula

An evaluator holds what a formula has been compiled to, or why it could not be compiled.  It gives
the value of the formula for values of its variables, which are given by position or by name, and
the values on an evenly spaced grid if the formula has one variable at most.

## Main definitions

* `Evaluator` — a formula ready for evaluation, or the error of its compilation.
* `Evaluator.evaluate` — the value for a list of values.
* `Evaluator.evaluateBy` — the value for values by name.
* `Evaluator.sample` — points of the graph.
-/

namespace Formula

/-- Why a formula has no value. -/
inductive EvalError
  /-- The formula could not be compiled. -/
  | notCompiled
  /-- The number of values is not the number of variables. -/
  | valueCount (expected actual : Nat)
  /-- A variable has no value. -/
  | unbound (name : Text)
  /-- The distance between sampled points is not a positive finite number. -/
  | invalidStep (step : Float)
  /-- There would be too many points. -/
  | tooManyPoints (limit : Nat)

namespace EvalError

/-- The wording of an error. -/
def message : EvalError → Text
  | notCompiled => "Equation was not compiled successfully".toList
  | valueCount expected actual =>
    "Equation has ".toList ++ .ofNat expected ++ " free variable(s), but ".toList ++
      .ofNat actual ++ " value(s) were supplied".toList
  | unbound name => "Variable `".toList ++ name ++ "` is not bound".toList
  | invalidStep step =>
    "Sampling step must be a positive finite number, got ".toList ++ Numeral.write step
  | tooManyPoints limit =>
    "Sampling would produce more than ".toList ++ .ofNat limit ++
      " points; increase the step".toList

end EvalError

/-- A formula ready for evaluation, or the error of its compilation. -/
structure Evaluator where
  /-- What the formula has been compiled to. -/
  compiled : Except CompileError CompiledFormula

namespace Evaluator

/-- The evaluator of a formula that has been read. -/
def ofParse (p : Parse) : Evaluator := ⟨compile p⟩

/-- What the formula has been compiled to. -/
def formula (e : Evaluator) : Except EvalError CompiledFormula :=
  e.compiled.mapError fun _ => .notCompiled

/-- Why the formula could not be compiled. -/
def error? (e : Evaluator) : Option CompileError :=
  match e.compiled with
  | .ok _ => none
  | .error err => some err

/-- The free variables; none if the formula could not be compiled. -/
def names (e : Evaluator) : List Text :=
  match e.compiled with
  | .ok f => f.names
  | .error _ => []

/-- The formula as nested calls, or the reason why it could not be compiled. -/
def display (e : Evaluator) : Text :=
  match e.compiled with
  | .ok f => f.display
  | .error err => "<not compiled: ".toList ++ err.message ++ ['>']

/-- The value of the formula for one value per variable. -/
def evaluate (e : Evaluator) (values : List Float) : Except EvalError Float := do
  let f ← e.formula
  if values.length = f.names.length then return f.eval values
  else throw (.valueCount f.names.length values.length)

/-- The values of variables, or the first variable that has none. -/
def lookUp (value? : Text → Option Float) : List Text → Except EvalError (List Float)
  | [] => .ok []
  | name :: names =>
    match value? name with
    | none => .error (.unbound name)
    | some value => (value :: ·) <$> lookUp value? names

/-- The value of the formula for values by name. -/
def evaluateBy (e : Evaluator) (value? : Text → Option Float) : Except EvalError Float := do
  let f ← e.formula
  let values ← lookUp value? f.names
  return f.eval values

/-- The largest number of points of a sample. -/
def sampleLimit : Nat := 1000000

/-- The points of a grid from `first` on, with the given distance, up to the point with an index. -/
def grid (first step : Float) (last : Nat) : List Float :=
  (List.range (last + 1)).map fun i => first + step * Float.ofNat i

/-- The points of the graph at the grid from `first` to `last`.  A formula without variables has
the same value everywhere. -/
def sample (e : Evaluator) (first last step : Float) :
    Except EvalError (List (Float × Float)) := do
  if !step.isFinite || step ≤ 0 then throw (.invalidStep step)
  let f ← e.formula
  if 1 < f.names.length then throw (.valueCount f.names.length 1)
  let steps := ((last - first) / step).floor
  if steps.isNaN || steps < 0 then return []
  if !steps.isFinite || Float.ofNat sampleLimit ≤ steps then throw (.tooManyPoints sampleLimit)
  return (grid first step steps.toUInt64.toNat).map fun x =>
    (x, f.eval ([x].take f.names.length))

end Evaluator

end Formula
