import Formula.Assignment
import Formula.Bindings
import Formula.Diagnostic
import Formula.Registry.Standard

/-!
# Interactive sessions

A session reads a line at a time.  A line that begins with a point and a letter is a command; any
other line that is not blank is a formula, which is evaluated with the variables of the session.
What a line writes and reports is its response.

## Main definitions

* `Line`, `Line.ofText` — what a line asks for.
* `Session` — the variables that have been set.
* `Response` — output and reports.
* `Session.step`, `Session.handle` — a line handled.
-/

namespace Formula

/-- What a line asks for. -/
inductive Line
  /-- Nothing. -/
  | blank
  /-- The list of commands. -/
  | help
  /-- The list of variables. -/
  | list
  /-- No variables any more. -/
  | clear
  /-- A value for a variable; the whole line is kept for reports. -/
  | set (assignment line : Text)
  /-- A variable less. -/
  | unset (name : Text)
  /-- The outline of a formula. -/
  | tree (text : Text)
  /-- A command that there is not. -/
  | unknown (command : Text)
  /-- A formula. -/
  | formula (text : Text)
  deriving DecidableEq, Repr

/-- Whether a text begins with a point and an ASCII letter. -/
def isCommand : Text → Bool
  | '.' :: c :: _ => c.isAlpha
  | _ => false

/-- A command with its argument, which follows the first space. -/
def Line.ofCommand (line : Text) : Line :=
  let (command, argument) := (line.cut? ' ').getD (line, [])
  let argument := argument.trim
  if command = ".help".toList then help
  else if command = ".vars".toList then list
  else if command = ".clear".toList then clear
  else if command = ".set".toList then set argument line
  else if command = ".unset".toList then unset argument
  else if command = ".tree".toList then tree argument
  else unknown command

/-- What a line asks for.  Blanks around it do not count. -/
def Line.ofText (t : Text) : Line :=
  let line := t.trim
  if line = [] then blank
  else if isCommand line then ofCommand line
  else formula line

/-- What a line writes and reports. -/
structure Response where
  /-- The output. -/
  output : Text
  /-- The reports. -/
  diagnostics : List Diagnostic

/-- No output and no report. -/
def Response.silent : Response := ⟨[], []⟩

/-- A line of output. -/
def Response.line (t : Text) : Response := ⟨t.line, []⟩

/-- The list of commands. -/
def helpText : Text :=
  Text.joinWith ['\n'] <| [
    "Enter an equation to evaluate it, e.g., `2x + sin(pi / 2)`.",
    "Free variables are substituted with the values set with `.set`.",
    "",
    "Commands:",
    "    .set NAME=VALUE    Set the value of a variable",
    "    .unset NAME        Remove the value of a variable",
    "    .vars              List variable values",
    "    .clear             Remove all variable values",
    "    .tree EQUATION     Output the parse tree of the equation",
    "    .help              Output this help"].map String.toList

/-- The report of a text that is no assignment. -/
def AssignmentError.diagnostic (line : Text) (e : AssignmentError) : Diagnostic :=
  { severity := .error
    code := "CMD".toList
    message := e.message
    labels := [⟨(0, utf8Length line), []⟩]
    notes := [] }

/-- The report of a command that there is not. -/
def unknownCommand (command : Text) : Diagnostic :=
  { severity := .error
    code := "CMD".toList
    message := "Unknown command".toList
    labels := [⟨(0, utf8Length command), "Use `.help` to find out commands".toList⟩]
    notes := [] }

/-- The outline of a formula, and the reports on it. -/
def outlineResponse (p : Parse) : Response :=
  ⟨p.root.outline, p.diagnostics⟩

/-- The variables, one on a line. -/
def listing (b : Bindings) : Text :=
  b.entries.flatMap fun e => Text.line (e.1 ++ " = ".toList ++ Numeral.write e.2)

/-- The value of a formula.  If some variables have no value, the compiled formula and their names
are written instead. -/
def formulaResponse (b : Bindings) (text : Text) : Response :=
  let p := parse .standard text
  let e := Evaluator.ofParse p
  if !p.isClean then ⟨[], p.diagnostics⟩
  else match e.error? with
    | some err => ⟨[], p.diagnostics ++ (err.diagnostic? text).toList⟩
    | none =>
      let unbound := e.names.filter fun name => (b.get? name).isNone
      if unbound = [] then
        match e.evaluateBy b.get? with
        | .ok value => ⟨(Numeral.write value).line, p.diagnostics⟩
        | .error err => ⟨[], p.diagnostics ++ [err.diagnostic]⟩
      else
        let names : Text := "Unbound variable(s): ".toList ++ Text.joinWith ", ".toList unbound
        ⟨e.display.line ++ names.line, p.diagnostics⟩

/-- An interactive session. -/
structure Session where
  /-- The variables that have been set. -/
  bindings : Bindings

namespace Session

/-- A session without variables. -/
def start : Session := ⟨.empty⟩

/-- Handle what a line asks for. -/
def step (s : Session) : Line → Session × Response
  | .blank => (s, .silent)
  | .help => (s, .line helpText)
  | .list => (s, ⟨listing s.bindings, []⟩)
  | .clear => (start, .silent)
  | .set assignment line =>
    match Assignment.ofText assignment with
    | .ok a => (⟨s.bindings.insert a.name a.value⟩, .silent)
    | .error e => (s, ⟨[], [e.diagnostic line]⟩)
  | .unset name => (⟨s.bindings.erase name⟩, .silent)
  | .tree text => (s, outlineResponse (parse .standard text))
  | .unknown command => (s, ⟨[], [unknownCommand command]⟩)
  | .formula text => (s, formulaResponse s.bindings text)

/-- Handle a line. -/
def handle (s : Session) (line : Text) : Session × Response :=
  s.step (.ofText line)

/-- Handle several lines: the session after each of them, and what it wrote and reported. -/
def run (s : Session) : List Text → List (Session × Response)
  | [] => []
  | line :: lines =>
    let next := s.handle line
    next :: next.1.run lines

end Session

end Formula
