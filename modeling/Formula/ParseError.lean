import Formula.Token.Basic

/-!
# Parse errors and hints

What is wrong with a formula is said by a cause and a place, which is a position and a number of
characters.  A hint is about something that can be read but might have been meant otherwise.

Unknown characters are found one at a time.  Collapsing joins those that touch, so that an unknown
word is one error.

## Main definitions

* `ParseError.Cause`, `ParseError` — what is wrong, and where.
* `ParseError.message` — the wording.
* `Hint` — a function name that is not called.
* `collapse` — touching unknown identifiers joined.
-/

namespace Formula

/-- What is wrong with a formula. -/
inductive ParseError.Cause
  /-- A text is neither a number nor a symbol. -/
  | unknownIdentifier (identifier : Text)
  /-- A function is called with too few or too many arguments. -/
  | functionArguments (function : Signature) (supplied : Nat)
  /-- An operator lacks an operand. -/
  | operatorArguments (operator : Signature)
  /-- A closing parenthesis closes nothing. -/
  | unmatchedClosing
  /-- An opening parenthesis is never closed. -/
  | unmatchedOpening
  /-- A comma stands outside of a call. -/
  | misplacedComma
  /-- Nothing stands between two commas of a call. -/
  | emptyArgument
  /-- A number has a second decimal point. -/
  | repeatedPoint
  deriving DecidableEq, Repr

/-- Something wrong with a formula, and where.  Positions and lengths count characters.  They are an
unbounded `Nat` here where a machine has a word of fixed size: an offset into a text that is held in
memory fits into a word, so the bound is never met. -/
structure ParseError where
  /-- What is wrong. -/
  cause : ParseError.Cause
  /-- The position of the first character concerned. -/
  start : Nat
  /-- The number of characters concerned. -/
  length : Nat
  deriving DecidableEq, Repr

/-- The broad kind of an error. -/
inductive ParseError.Category
  /-- A text cannot be read. -/
  | identifier
  /-- The operands of an operator. -/
  | operatorArguments
  /-- The arguments of a function. -/
  | functionArguments
  /-- Parentheses and commas. -/
  | punctuation
  /-- The digits of a number. -/
  | number
  deriving DecidableEq, Repr

namespace ParseError

/-- The position after the last character concerned. -/
def stop (e : ParseError) : Nat := e.start + e.length

/-- The error of an identifier that is not known. -/
def unknown (identifier : Text) (start : Nat) : ParseError :=
  ⟨.unknownIdentifier identifier, start, identifier.length⟩

/-- The identifier that is not known, if that is what is wrong. -/
def identifier? (e : ParseError) : Option Text :=
  match e.cause with
  | .unknownIdentifier t => some t
  | _ => none

/-- The broad kind of a cause. -/
def Cause.category : Cause → Category
  | unknownIdentifier _ => .identifier
  | functionArguments _ _ => .functionArguments
  | operatorArguments _ => .operatorArguments
  | unmatchedClosing | unmatchedOpening | misplacedComma | emptyArgument => .punctuation
  | repeatedPoint => .number

/-- The wording of a cause. -/
def Cause.message : Cause → Text
  | unknownIdentifier t => "Identifier '".toList ++ t ++ "' not found".toList
  | functionArguments f supplied =>
    let n := if supplied < f.required then f.required else f.maximum?.getD supplied
    let bound :=
      if f.required ≤ supplied then "only takes "
      else if f.maximum? = some f.required then "requires "
      else "requires at least "
    "Function '".toList ++ f.literal ++ "' ".toList ++ bound.toList ++ .ofNat n ++
      " argument(s)".toList
  | operatorArguments op =>
    let lacking :=
      if op.optionalAt 0 then "requires a right argument" else "requires left and right arguments"
    "Operator '".toList ++ op.literal ++ "' ".toList ++ lacking.toList
  | unmatchedClosing => "No matching left parenthesis".toList
  | unmatchedOpening => "No matching right parenthesis".toList
  | misplacedComma => "Argument separator outside of a function call".toList
  | emptyArgument => "Empty function argument".toList
  | repeatedPoint => "Repeated decimal point in number".toList

/-- The wording of an error. -/
def message (e : ParseError) : Text := e.cause.message

/-- Position and wording of an error. -/
def located (e : ParseError) : Text :=
  Text.ofNat e.start ++ ": ".toList ++ e.message

end ParseError

/-- A function name that is not followed by an opening parenthesis. -/
structure Hint where
  /-- The name as it is written. -/
  identifier : Text
  /-- The position of the name. -/
  start : Nat
  deriving DecidableEq, Repr

namespace Hint

/-- The number of characters concerned. -/
def length (h : Hint) : Nat := h.identifier.length

/-- The wording of a hint. -/
def message (h : Hint) : Text :=
  "Did you mean to call function '".toList ++ h.identifier ++ "'?".toList

/-- Position and wording of a hint. -/
def located (h : Hint) : Text :=
  Text.ofNat h.start ++ ": ".toList ++ h.message

end Hint

namespace ParseError

/-- Two errors as one, if both are unknown identifiers and the second starts where the first
ends. -/
def join? (a b : ParseError) : Option ParseError :=
  match a.cause, b.cause with
  | .unknownIdentifier s, .unknownIdentifier t =>
    if b.start = a.stop then some ⟨.unknownIdentifier (s ++ t), a.start, a.length + b.length⟩
    else none
  | _, _ => none

/-- Joining keeps where the errors start and end. -/
theorem span_join? {a b c : ParseError} (h : a.join? b = some c) :
    c.start = a.start ∧ c.stop = b.stop := by
  simp only [join?] at h
  split at h
  · split at h
    · obtain rfl := Option.some.inj h
      simp_all [stop]
      omega
    · cases h
  · cases h

/-- The errors after `e`, with touching unknown identifiers joined, beginning with `e` itself. -/
def collapseFrom (e : ParseError) : List ParseError → List ParseError
  | [] => [e]
  | f :: rest =>
    match e.join? f with
    | some joined => collapseFrom joined rest
    | none => e :: collapseFrom f rest

end ParseError

/-- Errors with touching unknown identifiers joined. -/
def collapse : List ParseError → List ParseError
  | [] => []
  | e :: rest => e.collapseFrom rest

end Formula
