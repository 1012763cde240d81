import Formula.Session

/-!
# Requests

The program has three commands for a formula: `tree` prints its outline, `eval` its value, and
`sample` the points of its graph.  A formula that is not given as an argument is the standard input
without the blanks at its end.  With `repl` the program runs an interactive session instead.

An argument that begins with a dash is an option, unless it follows `--`.  The value of an option
stands after an equals sign or is the next argument, which may begin with a dash only if it is a
number for one of the ends of a sample.

How the lines of a session are edited while they are typed is not said here: what answers a request
takes a `LineReader`, which the outer layer supplies.

## Main definitions

* `Command`, `Request` — what the arguments ask for.
* `Request.ofArguments?` — the request of a list of arguments.
* `LineReader` — the lines of a session, as they have been edited.
* `Outcome`, `Request.run` — what the program does.
-/

namespace Formula

/-- A command for a formula.  One that is not given is read from the standard input. -/
inductive Command
  /-- Print the outline of a formula. -/
  | tree (formula? : Option Text)
  /-- Print the value of a formula. -/
  | eval (formula? : Option Text) (assignments : List Assignment)
  /-- Print points of the graph of a formula. -/
  | sample (formula? : Option Text) (first last step : Float)

/-- What the arguments of the program ask for. -/
inductive Request
  /-- The version of the program. -/
  | version
  /-- An interactive session. -/
  | session
  /-- A command. -/
  | command (c : Command)

/-- What the program can be told to do, by name. -/
inductive Verb
  /-- The outline. -/
  | tree
  /-- The value. -/
  | eval
  /-- The graph. -/
  | sample
  /-- The session. -/
  | repl
  deriving DecidableEq, Repr

/-- What a text tells the program to do. -/
def Verb.ofText? (t : Text) : Option Verb :=
  if t = "tree".toList then some tree
  else if t = "eval".toList then some eval
  else if t = "sample".toList then some sample
  else if t = "repl".toList then some repl
  else none

/-- An option with a value. -/
inductive Setting
  /-- The value of a variable. -/
  | assignment
  /-- The start of a sample. -/
  | first
  /-- The end of a sample. -/
  | last
  /-- The distance between the points of a sample. -/
  | step
  deriving DecidableEq, Repr

/-- The option of a command with a name. -/
def Verb.setting? (v : Verb) (name : Text) : Option Setting :=
  match v with
  | .eval => if name = "var".toList then some .assignment else none
  | .sample =>
    if name = "from".toList then some .first
    else if name = "to".toList then some .last
    else if name = "step".toList then some .step
    else none
  | .tree | .repl => none

/-- Whether an argument begins with a dash and is more than a dash. -/
def isOption : Text → Bool
  | '-' :: _ :: _ => true
  | _ => false

/-- Whether a text looks like an unsigned number: digits with at most one point, which is not the
first character, and at most one `e` or `E` after it, which is neither the first character nor the
last. The exponent has no sign. -/
def looksNumeric (t : Text) : Bool :=
  let mantissa := t.takeWhile (!Numeral.isExponentMark ·)
  let plain := (mantissa.dropWhile Char.isDigit).drop 1
  let mantissaOk := mantissa.head? ≠ some '.' && mantissa.all (fun c => c.isDigit || c = '.') &&
    plain.all Char.isDigit
  match t.dropWhile (!Numeral.isExponentMark ·) with
  | [] => mantissaOk
  | _ :: exponent =>
    mantissaOk && mantissa ≠ [] && exponent ≠ [] && exponent.all Char.isDigit

/-- Whether an argument can be the value of the option before it. -/
def Setting.takes (s : Setting) (argument : Text) : Bool :=
  !isOption argument || ((s = .first || s = .last) && looksNumeric (argument.drop 1))

/-- The arguments of a command, as far as they have been read. -/
structure Draft where
  /-- Whether a flag for more output has been given. -/
  verbose : Bool
  /-- The formula. -/
  formula? : Option Text
  /-- The values of variables. -/
  assignments : List Assignment
  /-- The start of a sample. -/
  first? : Option Float
  /-- The end of a sample. -/
  last? : Option Float
  /-- The distance between the points of a sample. -/
  step? : Option Float

namespace Draft

/-- Nothing read. -/
def empty : Draft := ⟨false, none, [], none, none, none⟩

/-- A number put where none is yet. -/
def fill (current : Option Float) (value : Text) : Option (Option Float) :=
  match current, Numeral.read value with
  | none, .ok x => some (some x)
  | _, _ => none

/-- The value of an option taken in.  All but variables are given once. -/
def set (d : Draft) (s : Setting) (value : Text) : Option Draft :=
  match s with
  | .assignment =>
    match Assignment.ofText value with
    | .ok a => some { d with assignments := d.assignments ++ [a] }
    | .error _ => none
  | .first => (fill d.first? value).map fun x => { d with first? := x }
  | .last => (fill d.last? value).map fun x => { d with last? := x }
  | .step => (fill d.step? value).map fun x => { d with step? := x }

/-- The flag for more output taken in, which is given once. -/
def setVerbose (d : Draft) : Option Draft :=
  if d.verbose then none else some { d with verbose := true }

/-- A formula taken in, which is given once and not for a session. -/
def setFormula (d : Draft) (v : Verb) (t : Text) : Option Draft :=
  if v = .repl || d.formula?.isSome then none else some { d with formula? := some t }

/-- The request that has been read. -/
def request (d : Draft) : Verb → Request
  | .tree => .command (.tree d.formula?)
  | .eval => .command (.eval d.formula? d.assignments)
  | .sample =>
    .command (.sample d.formula? (d.first?.getD (-10)) (d.last?.getD 10) (d.step?.getD 1))
  | .repl => .session

end Draft

/-- The name of a long option and its value after an equals sign. -/
def longOption (argument : Text) : Text × Option Text :=
  match Text.cut? '=' (argument.drop 2) with
  | some (name, value) => (name, some value)
  | none => (argument.drop 2, none)

/-- The arguments of a command taken in; `literal` says that no options follow. -/
def readArguments (v : Verb) (d : Draft) (literal : Bool) : List Text → Option Draft
  | [] => some d
  | argument :: rest =>
    if literal || !isOption argument then
      d.setFormula v argument >>= fun d => readArguments v d literal rest
    else if argument = "--".toList then readArguments v d true rest
    else if argument = "-v".toList || argument = "--verbose".toList then
      d.setVerbose >>= fun d => readArguments v d literal rest
    else if "--".toList.isPrefixOf argument then
      match v.setting? (longOption argument).1, (longOption argument).2 with
      | none, _ => none
      | some s, some value => d.set s value >>= fun d => readArguments v d literal rest
      | some s, none =>
        match rest with
        | [] => none
        | value :: others =>
          if s.takes value then d.set s value >>= fun d => readArguments v d literal others
          else none
    else none

/-! ## Arguments of the program -/

/-- What flags before the command ask for: the version, or more output. -/
inductive Flags
  /-- The version is asked for. -/
  | version
  /-- Whether more output is asked for. -/
  | verbose (given : Bool)

/-- The letters of short flags read one after the other. -/
def readFlags (given : Bool) : Text → Option Flags
  | [] => some (.verbose given)
  | 'V' :: _ => some .version
  | 'v' :: rest => if given then none else readFlags true rest
  | _ => none

/-- The arguments of the program read; `given` says that more output has been asked for. -/
def readProgram (given : Bool) : List Text → Option Request
  | [] => none
  | argument :: rest =>
    if !isOption argument then
      Verb.ofText? argument >>= fun v =>
        (readArguments v .empty false rest).map fun d => d.request v
    else
      let flags :=
        if argument = "--version".toList then some .version
        else if argument = "--verbose".toList then readFlags given ['v']
        else readFlags given (argument.drop 1)
      match flags with
      | none => none
      | some .version => some .version
      | some (.verbose given) => readProgram given rest

/-- The request of the arguments of the program, unless they are wrong. -/
def Request.ofArguments? (arguments : List Text) : Option Request :=
  readProgram false arguments

/-! ## Running -/

/-- How the program ends. -/
inductive Status
  /-- All went well. -/
  | success
  /-- The arguments are wrong. -/
  | usage
  /-- The formula cannot be used. -/
  | failure
  /-- A line of the standard input cannot be edited. -/
  | aborted
  deriving DecidableEq, Repr

/-- The number that the program ends with. -/
def Status.code : Status → Nat
  | success => 0
  | usage => 1
  | failure => 2
  | aborted => 101

/-- What the program does. -/
structure Outcome where
  /-- How it ends. -/
  status : Status
  /-- What it writes. -/
  output : Text
  /-- What it reports. -/
  diagnostics : List Diagnostic

/-- The version of the program. -/
def versionText : Text := "graphy 0.1.0".toList

/-- The first lines of a session. -/
def banner : Text :=
  Text.line "graphy REPL v0.1.0".toList ++ Text.line "Enter `.help` for the list of commands".toList

/-- What is written before a line is read. -/
def prompt : Text := ">>> ".toList

/-- The outcome for a formula: its evaluator is used if there is one, after the reports on the
formula. -/
def withEvaluator (text : Text) (use : Evaluator → Except EvalError Text) : Outcome :=
  let p := parse .standard text
  let e := Evaluator.ofParse p
  if !p.isClean then ⟨.failure, [], p.diagnostics⟩
  else match e.error? with
    | some err => ⟨.failure, [], p.diagnostics ++ (err.diagnostic? text).toList⟩
    | none =>
      match use e with
      | .ok output => ⟨.success, output, p.diagnostics⟩
      | .error err => ⟨.failure, [], p.diagnostics ++ [err.diagnostic]⟩

/-- The points of a sample, one on a line. -/
def pointsText (points : List (Float × Float)) : Text :=
  points.flatMap fun (x, y) =>
    Text.line ('(' :: Numeral.write x ++ ", ".toList ++ Numeral.write y ++ [')'])

/-- Run a command with the given standard input. -/
def Command.run (input : Text) : Command → Outcome
  | tree formula? =>
    let p := parse .standard (formula?.getD input.trimEnd)
    ⟨if p.isClean then .success else .failure, p.root.outline, p.diagnostics⟩
  | eval formula? assignments =>
    let b := Bindings.ofList (assignments.map fun a => (a.name, a.value))
    withEvaluator (formula?.getD input.trimEnd) fun e =>
      (fun value => Text.line (Numeral.write value)) <$> e.evaluateBy b.get?
  | sample formula? first last step =>
    withEvaluator (formula?.getD input.trimEnd) fun e =>
      pointsText <$> e.sample first last step

/-- What is typed, line by line as it has been edited; none for a line that cannot be edited. -/
abbrev LineReader := Text → List (Option Text)

/-- A session with the lines of the standard input, up to one that cannot be edited. -/
def sessionOutcome (readLines : LineReader) (input : Text) : Outcome :=
  let lines := readLines input
  let responses := (Session.start.run ((lines.takeWhile Option.isSome).filterMap id)).map (·.2)
  { status := if lines.all Option.isSome then .success else .aborted
    output := banner ++ responses.flatMap (fun r => prompt ++ r.output) ++ prompt
    diagnostics := responses.flatMap (·.diagnostics) }

/-- Do what is asked for, with the given standard input. -/
def Request.run (readLines : LineReader) (input : Text) : Request → Outcome
  | version => ⟨.success, versionText.line, []⟩
  | session => sessionOutcome readLines input
  | command c => c.run input

end Formula
