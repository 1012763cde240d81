import Formula.Evaluator

/-!
# Diagnostics

What is reported about a formula is a diagnostic: a severity, a code, a message, labels that point
into the formula, and notes.  Labels count bytes of the UTF-8 encoding, while errors count
characters; a range of characters that goes beyond the formula is cut off at its end.

## Main definitions

* `byteRange` — the bytes of a range of characters.
* `Diagnostic` — a report.
* `Diagnostic.header` — its first line.
* `Parse.diagnostics`, `CompileError.diagnostic?`, `EvalError.diagnostic` — what is reported.
-/

namespace Formula

/-- The bytes of the `length` characters from position `start` on, as a start and a stop. -/
def byteRange (t : Text) (start length : Nat) : Nat × Nat :=
  (utf8Length (t.take start), utf8Length (t.take (start + length)))

/-- How serious a report is. -/
inductive Severity
  /-- The formula cannot be used. -/
  | error
  /-- The formula can be used. -/
  | warning
  deriving DecidableEq, Repr

/-- The name of a severity. -/
def Severity.name : Severity → Text
  | error => "error".toList
  | warning => "warning".toList

/-- A remark on a range of bytes. -/
structure Label where
  /-- The first byte and the byte after the last one. -/
  range : Nat × Nat
  /-- The remark, which may be empty. -/
  message : Text
  deriving DecidableEq, Repr

/-- A report. -/
structure Diagnostic where
  /-- How serious it is. -/
  severity : Severity
  /-- A code for the kind of report. -/
  code : Text
  /-- What it says. -/
  message : Text
  /-- Where it points to. -/
  labels : List Label
  /-- What it adds. -/
  notes : List Text
  deriving DecidableEq, Repr

/-- The first line of a report: severity, code and the first line of the message. -/
def Diagnostic.header (d : Diagnostic) : Text :=
  d.severity.name ++ '[' :: d.code ++ "]: ".toList ++ d.message.firstLine

/-- The remark on the place of an error. -/
def errorRemark : Text := "Error occurred here".toList

/-- The code of a category of errors. -/
def ParseError.Category.code : ParseError.Category → Text
  | identifier => "IDENT".toList
  | operatorArguments => "OP_ARGS".toList
  | functionArguments => "FN_ARGS".toList
  | punctuation => "STRUCT".toList
  | number => "NUM".toList

/-- The report of an error in a formula. -/
def ParseError.diagnostic (text : Text) (e : ParseError) : Diagnostic :=
  { severity := .error
    code := e.cause.category.code
    message := e.message
    labels := [⟨byteRange text e.start e.length, errorRemark⟩]
    notes := [] }

/-- The report of a hint on a formula. -/
def Hint.diagnostic (text : Text) (h : Hint) : Diagnostic :=
  { severity := .warning
    code := "HINT".toList
    message := h.message
    labels := [⟨byteRange text h.start h.length, []⟩]
    notes := [] }

/-- The reports on a formula that has been read: errors, then hints. -/
def Parse.diagnostics (p : Parse) : List Diagnostic :=
  p.errors.map (·.diagnostic p.text) ++ p.hints.map (·.diagnostic p.text)

/-- The report of a failed compilation.  Errors of reading are reported by themselves. -/
def CompileError.diagnostic? (text : Text) (e : CompileError) : Option Diagnostic :=
  match e with
  | .parseErrors _ => none
  | e => some {
      severity := .error
      code := "COMPILE".toList
      message := e.message
      labels := e.start?.toList.map fun start => ⟨byteRange text start 1, errorRemark⟩
      notes := [] }

/-- The advice on an error of evaluation. -/
def EvalError.notes : EvalError → List Text
  | unbound name =>
    ["Supply a value for the variable, e.g., `--var ".toList ++ name ++ "=1`".toList]
  | _ => []

/-- The report of a failed evaluation. -/
def EvalError.diagnostic (e : EvalError) : Diagnostic :=
  { severity := .error
    code := "EVAL".toList
    message := e.message
    labels := []
    notes := e.notes }

end Formula
