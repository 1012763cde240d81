import Formula.Expr.Reduction
import Formula.Parse

/-!
# Compiling a formula

The parts of a sibling list become terms: a number, a constant, a variable, a group or a call is a
value, and a multiplication is put between two values that stand side by side.  The terms are
reduced to a tree of operators, and the tree is the expression of the list.

A call whose only slot is empty supplies no argument; the arguments that a call leaves out are
filled with the default values of the parameters, up to one that absorbs any number of arguments.

Operations and variables are numbered in the order in which they first occur in the formula; the
multiplication comes last if it does not occur.

## Main definitions

* `SymbolTable` — the numbering.
* `compile` — a formula compiled.
-/

namespace Formula

/-- The operations and variables of a formula. -/
structure SymbolTable where
  /-- The operations, without repetition. -/
  operations : List Operation
  /-- The variables, without repetition. -/
  names : List Text
  /-- The operator between values that stand side by side. -/
  multiplication? : Option Operator

namespace SymbolTable

/-- The operations and variables of a formula, in the order of their first occurrence. -/
def ofParse (p : Parse) : SymbolTable :=
  let multiplication? := p.registry.multiplication?
  let used := (walkAll p.items).filterMap Part.operation?
  { operations := distinctBy Operation.literal (used ++ multiplication?.toList.map (·.operation))
    names := p.freeVariables
    multiplication? := multiplication? }

/-- The index of an operation. -/
def operationIndex (t : SymbolTable) (f : Operation) : Nat :=
  t.operations.findIdx (·.literal = f.literal)

/-- The index of a variable. -/
def variableIndex (t : SymbolTable) (name : Text) : Nat :=
  t.names.idxOf name

end SymbolTable

/-- The default values of parameters, of which the first has the given index. -/
def defaultArguments (f : Text) (start index : Nat) :
    List PlacedParameter → Except CompileError (List Expr)
  | [] => .ok []
  | p :: ps =>
    if p.parameter.absorbing then .ok []
    else match p.parameter.default? with
      | none => .error (.missingArgument f index start)
      | some literal => do
        let value ← readLiteral literal start
        let rest ← defaultArguments f start (index + 1) ps
        return .const value :: rest

/-- The default values of the parameters from the given index on. -/
def missingArguments (f : Operation) (start supplied : Nat) : Except CompileError (List Expr) :=
  defaultArguments f.literal start supplied (f.signature.parameters.drop supplied)

/-- The terms between two values at whose border `start` is. -/
def implicitMultiplication (t : SymbolTable) (afterValue : Bool) (start : Nat) :
    Except CompileError (List Term) :=
  if afterValue then
    match t.multiplication? with
    | some op => .ok [.operator op start]
    | none => .error (.missingMultiplication start)
  else .ok []

mutual

/-- The expression of a part.  An operator by itself lacks its operands.  These are all the parts that
a list can hold. -/
def Part.compile (t : SymbolTable) : Part → Except CompileError Expr
  | .number e => .const <$> readLiteral e.text e.start
  | .constant _ expression e => .const <$> readLiteral expression e.start
  | .free name _ => .ok (.var (t.variableIndex name))
  | .operator op e => .error (.missingOperand op.literal e.start)
  | .group e items => do
    let terms ← compileTerms t false items
    let tree ← reduce e.start terms
    return tree.toExpr t.operationIndex
  | .call f e slots => do
    let supplied ← if suppliedArguments slots = 0 then .ok [] else compileSlots t slots
    let missing ← missingArguments f e.start supplied.length
    return .call (t.operationIndex f) (supplied ++ missing)

/-- The expression of a slot. -/
def Slot.compile (t : SymbolTable) : Slot → Except CompileError Expr
  | .mk e items => do
    let terms ← compileTerms t false items
    let tree ← reduce e.start terms
    return tree.toExpr t.operationIndex

/-- The terms of a sibling list, or of the rest of one after a value. -/
def compileTerms (t : SymbolTable) (afterValue : Bool) :
    List Part → Except CompileError (List Term)
  | [] => .ok []
  | .operator op e :: ps => (.operator op e.start :: ·) <$> compileTerms t false ps
  | p :: ps => do
    let value ← p.compile t
    let between ← implicitMultiplication t afterValue p.start
    let rest ← compileTerms t true ps
    return between ++ .value (.operand value) :: rest

/-- The expressions of slots. -/
def compileSlots (t : SymbolTable) : List Slot → Except CompileError (List Expr)
  | [] => .ok []
  | s :: ss => do
    let value ← s.compile t
    let rest ← compileSlots t ss
    return value :: rest

end

/-- The tree of operators of a sibling list that starts at a position. -/
def operatorTree (t : SymbolTable) (start : Nat) (items : List Part) :
    Except CompileError OperatorTree :=
  compileTerms t false items >>= reduce start

/-- Compile a formula that has been read. -/
def compile (p : Parse) : Except CompileError CompiledFormula :=
  if p.errors.isEmpty then do
    let t := SymbolTable.ofParse p
    let tree ← operatorTree t 0 p.items
    return ⟨tree.toExpr t.operationIndex, t.operations, t.names⟩
  else .error (.parseErrors p.errors.length)

end Formula
