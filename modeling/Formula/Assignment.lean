import Formula.Numeral.Read

/-!
# Assignments

An assignment `NAME=VALUE` gives a value to a variable.  Name and value are separated by the first
equals sign, and blanks around them do not count.
-/

namespace Formula

/-- A name and its value. -/
structure Assignment where
  /-- The name of the variable. -/
  name : Text
  /-- The value of the variable. -/
  value : Float

/-- Why a text is no assignment. -/
inductive AssignmentError
  /-- There is no equals sign. -/
  | noSign (text : Text)
  /-- There is no name. -/
  | emptyName
  /-- The value cannot be read. -/
  | invalidValue (name : Text) (reason : Numeral.ReadError)
  deriving DecidableEq, Repr

/-- The wording of an error. -/
def AssignmentError.message : AssignmentError → Text
  | noSign text => "expected `NAME=VALUE`, got `".toList ++ text ++ ['`']
  | emptyName => "variable name is empty".toList
  | invalidValue name reason =>
    "invalid value for `".toList ++ name ++ "`: ".toList ++ reason.message

namespace Assignment

/-- The assignment that a text writes. -/
def ofText (t : Text) : Except AssignmentError Assignment :=
  match t.cut? '=' with
  | none => .error (.noSign t)
  | some (before, after) =>
    let name := before.trim
    if name = [] then .error .emptyName
    else match Numeral.read after.trim with
      | .error reason => .error (.invalidValue name reason)
      | .ok value => .ok ⟨name, value⟩

end Assignment

end Formula
