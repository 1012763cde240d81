import Formula.Text
import Formula.Sorting

/-!
# Parameters and signatures

A parameter is required, has a default value, or absorbs all further arguments.  A declaration may
claim a position for it; the others take the lowest positions that nobody claims, in their order,
and a signature keeps its parameters sorted by position.

## Main definitions

* `Parameter` — what a call may leave out.
* `Declaration` — a parameter and the position it claims, if any.
* `PlacedParameter` — a parameter and its position.
* `place` — the positions of a list of declarations.
* `Signature` — literal, name and parameters of an operation.
* `Signature.required`, `Signature.maximum?` — the bounds on the number of arguments.
-/

namespace Formula

/-- A parameter of an operation. -/
structure Parameter where
  /-- The text of the default value, if the argument may be left out. -/
  default? : Option Text
  /-- Whether the parameter absorbs any number of arguments. -/
  absorbing : Bool
  deriving DecidableEq, Repr

namespace Parameter

/-- A parameter that needs an argument. -/
def required : Parameter := ⟨none, false⟩

/-- A parameter with a default value. -/
def optional (value : Text) : Parameter := ⟨some value, false⟩

/-- A parameter that absorbs any number of arguments. -/
def rest : Parameter := ⟨none, true⟩

/-- Whether the argument has a default value. -/
def isOptional (p : Parameter) : Bool := p.default?.isSome

/-- Whether a call has to supply the argument. -/
def isRequired (p : Parameter) : Bool := !p.isOptional && !p.absorbing

end Parameter

/-- A parameter as it is declared. -/
structure Declaration where
  /-- The parameter. -/
  parameter : Parameter
  /-- The position it claims, counted from zero. -/
  position? : Option Nat
  deriving DecidableEq, Repr

namespace Declaration

/-- A required parameter that claims no position. -/
def required : Declaration := ⟨.required, none⟩

/-- A parameter with a default value that claims no position. -/
def optional (value : Text) : Declaration := ⟨.optional value, none⟩

/-- An absorbing parameter that claims no position. -/
def rest : Declaration := ⟨.rest, none⟩

/-- One required parameter. -/
def single : List Declaration := [required]

/-- Two required parameters. -/
def pair : List Declaration := [required, required]

/-- At least one argument. -/
def variadic : List Declaration := [required, rest]

/-- The operands of an operator that stands between two values. -/
def infixOperands : List Declaration := pair

/-- The operands of an operator that may also stand in front of a value: the left one is zero if
it is left out. -/
def signOperands : List Declaration := [optional ['0'], required]

end Declaration

/-- A parameter at its position. -/
structure PlacedParameter where
  /-- The parameter. -/
  parameter : Parameter
  /-- The position, counted from zero. -/
  position : Nat
  deriving DecidableEq, Repr

/-- The lowest position from `n` on that is not claimed.  Of one position more than there are
claims, one is free. -/
def nextFree (claimed : List Nat) (n : Nat) : Nat :=
  (((List.range (claimed.length + 1)).map (n + ·)).find? (· ∉ claimed)).getD n

/-- The positions of declarations: claimed ones are kept, the others are the unclaimed positions
from `n` on, one after the other. -/
def assignPositions (claimed : List Nat) (n : Nat) : List Declaration → List PlacedParameter
  | [] => []
  | ⟨parameter, some position⟩ :: ds => ⟨parameter, position⟩ :: assignPositions claimed n ds
  | ⟨parameter, none⟩ :: ds =>
    let position := nextFree claimed n
    ⟨parameter, position⟩ :: assignPositions claimed (position + 1) ds

/-- The parameters of a list of declarations, sorted by position. -/
def place (ds : List Declaration) : List PlacedParameter :=
  sortByKey PlacedParameter.position (assignPositions (ds.filterMap (·.position?)) 0 ds)

/-- Assigning positions keeps the parameters and their order. -/
@[simp] theorem map_parameter_assignPositions (claimed : List Nat) (n : Nat)
    (ds : List Declaration) :
    (assignPositions claimed n ds).map (·.parameter) = ds.map (·.parameter) := by
  fun_induction assignPositions <;> simp_all

/-- Placing keeps the number of parameters. -/
@[simp] theorem length_place (ds : List Declaration) : (place ds).length = ds.length := by
  rw [place, (perm_sortByKey _ _).length_eq]
  simpa only [List.length_map] using congrArg List.length
    (map_parameter_assignPositions (ds.filterMap (·.position?)) 0 ds)

/-- What can be said of an operation without running it. -/
structure Signature where
  /-- The text that stands for the operation in a formula. -/
  literal : Text
  /-- A name for readers. -/
  name : Text
  /-- The parameters, sorted by position. -/
  parameters : List PlacedParameter
  deriving DecidableEq, Repr

namespace Signature

/-- The signature of an operation with the given declarations. -/
def declare (literal name : Text) (ds : List Declaration) : Signature :=
  ⟨literal, name, place ds⟩

/-- The parameter at an index. -/
def parameter? (s : Signature) (i : Nat) : Option Parameter :=
  s.parameters[i]?.map (·.parameter)

/-- Whether there is a parameter at an index and its argument may be left out. -/
def optionalAt (s : Signature) (i : Nat) : Bool :=
  (s.parameter? i).any (·.isOptional)

/-- The number of arguments that a call has to supply. -/
def required (s : Signature) : Nat :=
  s.parameters.countP (·.parameter.isRequired)

/-- The largest number of arguments that a call may supply, if there is one. -/
def maximum? (s : Signature) : Option Nat :=
  if s.parameters.any (·.parameter.absorbing) then none else some s.parameters.length

/-- Whether a call may supply `n` arguments. -/
def accepts (s : Signature) (n : Nat) : Bool :=
  s.required ≤ n && s.maximum?.all (n ≤ ·)

end Signature

end Formula
