import Formula.Expr.Basic

/-!
# From a list of terms to a tree of operators

A sibling list becomes a list of *terms*, which are values and operators.  One operator after the
other takes its operands, until a single value is left: of the operators that have a value to their
right, or may do without one at the end of the list, the one that binds most tightly, the leftmost
one of several.  An operator without a value to its left counts as a sign and has a precedence of
its own.

A missing operand is replaced by its default value; the right one is looked at first.

## Main definitions

* `OperatorTree` — operators with their operands.
* `Term` — an element of the list that is reduced.
* `Site`, `sites` — an operator in its list, and all of them.
* `select?` — the operator that is next.
* `reduce` — the tree of a list of terms.
-/

namespace Formula

/-- Why a formula cannot be compiled.  There is no error for a slot or a comma among the parts of a
list, since the type of parts keeps them inside calls. -/
inductive CompileError
  /-- The formula has not been read without errors. -/
  | parseErrors (count : Nat)
  /-- The formula, a group or a slot holds nothing. -/
  | emptyExpression (start : Nat)
  /-- An operator lacks an operand that has no default value. -/
  | missingOperand (operator : Text) (start : Nat)
  /-- A call lacks an argument that has no default value. -/
  | missingArgument (function : Text) (index start : Nat)
  /-- A number, the value of a constant or a default value cannot be read. -/
  | invalidLiteral (literal : Text) (start : Nat)
  /-- Two values stand side by side, and there is no multiplication. -/
  | missingMultiplication (start : Nat)
  deriving DecidableEq, Repr

namespace CompileError

/-- The position that an error is about. -/
def start? : CompileError → Option Nat
  | parseErrors _ => none
  | emptyExpression start => some start
  | missingOperand _ start => some start
  | missingArgument _ _ start => some start
  | invalidLiteral _ start => some start
  | missingMultiplication start => some start

/-- The wording of an error.  Arguments are counted from one. -/
def message : CompileError → Text
  | parseErrors count =>
    "Cannot compile an equation with ".toList ++ .ofNat count ++ " parsing error(s)".toList
  | emptyExpression _ => "Empty expression".toList
  | missingOperand op _ =>
    "Operator '".toList ++ op ++ "' lacks an operand without a default value".toList
  | missingArgument f index _ =>
    "Function '".toList ++ f ++ "' lacks argument #".toList ++ .ofNat (index + 1) ++
      " without a default value".toList
  | invalidLiteral literal _ => "'".toList ++ literal ++ "' is not a valid number".toList
  | missingMultiplication _ =>
    "Implicit multiplication requires the `*` operator, which is not registered".toList

end CompileError

/-- The value of a number, a constant or a default, which stands for a part at `start`. -/
def readLiteral (literal : Text) (start : Nat) : Except CompileError Float :=
  match constantValue literal with
  | .ok value => .ok value
  | .error _ => .error (.invalidLiteral literal start)

/-- Operators with their operands. -/
inductive OperatorTree
  /-- The expression of a part. -/
  | operand (e : Expr)
  /-- The default value of an operand that is left out. -/
  | absent (value : Float)
  /-- The operator at a position, applied to its operands. -/
  | apply (op : Operator) (start : Nat) (left right : OperatorTree)

/-- The expression of a tree, where `index` finds operations in their table. -/
def OperatorTree.toExpr (index : Operation → Nat) : OperatorTree → Expr
  | operand e => e
  | absent value => .const value
  | apply op _ left right => .call (index op.operation) [left.toExpr index, right.toExpr index]

/-- An element of a list that is reduced. -/
inductive Term
  /-- A value. -/
  | value (tree : OperatorTree)
  /-- An operator and its position. -/
  | operator (op : Operator) (start : Nat)

/-- Whether a term is a value. -/
def Term.isValue : Term → Bool
  | value _ => true
  | operator _ _ => false

/-- An operator in its list. -/
structure Site where
  /-- The terms before the operator, the last one first. -/
  before : List Term
  /-- The operator. -/
  op : Operator
  /-- The position of the operator in the formula. -/
  start : Nat
  /-- The terms after the operator. -/
  after : List Term

/-- The operators of a list that comes after the terms in `before`, of which the last is first. -/
def sitesAfter (before : List Term) : List Term → List Site
  | [] => []
  | .operator op start :: after =>
    ⟨before, op, start, after⟩ :: sitesAfter (.operator op start :: before) after
  | .value v :: after => sitesAfter (.value v :: before) after

/-- The operators of a list. -/
def sites (terms : List Term) : List Site :=
  sitesAfter [] terms

namespace Site

/-- Whether the operator can take its right operand: a value, or nothing at the end of the list if
that may be left out. -/
def isReady (s : Site) : Bool :=
  match s.after with
  | [] => s.op.rightOptional
  | t :: _ => t.isValue

/-- How tightly the operator binds here. -/
def precedence (s : Site) : Nat :=
  match s.before with
  | .value _ :: _ => s.op.precedence
  | _ => s.op.signPrecedence

/-- The default value of an operand. -/
def defaultOperand (s : Site) (p : Option Parameter) : Except CompileError OperatorTree :=
  match p.bind (·.default?) with
  | none => .error (.missingOperand s.op.literal s.start)
  | some literal => .absent <$> readLiteral literal s.start

/-- The right operand and the terms after it. -/
def takeRight (s : Site) : Except CompileError (OperatorTree × List Term) :=
  match s.after with
  | .value v :: rest => .ok (v, rest)
  | rest => (·, rest) <$> s.defaultOperand s.op.right?

/-- The left operand and the terms before it, the last one first. -/
def takeLeft (s : Site) : Except CompileError (OperatorTree × List Term) :=
  match s.before with
  | .value v :: rest => .ok (v, rest)
  | rest => (·, rest) <$> s.defaultOperand s.op.left?

/-- The list in which the operator has taken its operands. -/
def collapse (s : Site) : Except CompileError (List Term) := do
  let (right, after) ← s.takeRight
  let (left, before) ← s.takeLeft
  return before.reverse ++ .value (.apply s.op s.start left right) :: after

end Site

/-- The operator that is next: the leftmost of those that are ready and bind most tightly. -/
def select? : List Site → Option Site
  | [] => none
  | s :: rest =>
    match select? rest with
    | none => if s.isReady then some s else none
    | some best => if s.isReady && best.precedence ≤ s.precedence then some s else some best

/-- A list in which up to `n` operators have taken their operands. -/
def reduceSteps : Nat → List Term → Except CompileError (List Term)
  | 0, terms => .ok terms
  | n + 1, terms =>
    match select? (sites terms) with
    | none => .ok terms
    | some s => s.collapse >>= reduceSteps n

/-- The result of a list in which no operator can take its operands any more.  `start` is the
position of the list. -/
def soleValue (start : Nat) (terms : List Term) : Except CompileError OperatorTree :=
  match sites terms with
  | s :: _ => .error (.missingOperand s.op.literal s.start)
  | [] =>
    match terms.getLast? with
    | some (.value v) => .ok v
    | _ => .error (.emptyExpression start)

/-- The tree of a list of terms.  Each step removes one operator from the list, so there are as many
steps as operators. -/
def reduce (start : Nat) (terms : List Term) : Except CompileError OperatorTree :=
  reduceSteps (sites terms).length terms >>= soleValue start

/-- A site keeps the list that it was found in. -/
theorem eq_of_mem_sitesAfter {before terms : List Term} {s : Site}
    (h : s ∈ sitesAfter before terms) :
    s.before.reverse ++ .operator s.op s.start :: s.after = before.reverse ++ terms := by
  induction terms generalizing before with
  | nil => simp [sitesAfter] at h
  | cons t terms ih =>
    cases t with
    | value v =>
      have := ih (by simpa [sitesAfter] using h)
      simpa using this
    | operator op start =>
      simp only [sitesAfter, List.mem_cons] at h
      rcases h with rfl | h
      · rfl
      · simpa using ih h

/-- The operator that is next is ready. -/
theorem isReady_of_select? {l : List Site} {s : Site} (h : select? l = some s) :
    s ∈ l ∧ s.isReady = true := by
  induction l generalizing s with
  | nil => simp [select?] at h
  | cons t rest ih =>
    simp only [select?] at h
    split at h
    · split at h
      · obtain rfl := Option.some.inj h
        simp_all
      · cases h
    · rename_i best hbest
      split at h
      · obtain rfl := Option.some.inj h
        simp_all
      · obtain rfl := Option.some.inj h
        exact ⟨List.mem_cons_of_mem _ (ih hbest).1, (ih hbest).2⟩

end Formula
