import Formula.CommandLine

/-!
# The program

The outer layer reads the standard input, writes what the library answers and reports to the
standard error.  An interactive session is read line by line, so that each answer is written before
the next line is asked for.
-/

namespace Formula

/-- Write a text to the standard output. -/
def put (t : Text) : IO Unit := do
  let out ← IO.getStdout
  out.putStr (String.ofList t)
  out.flush

/-- Report the headers of diagnostics. -/
def report (ds : List Diagnostic) : IO Unit :=
  ds.forM fun d => IO.eprintln (String.ofList d.header)

/-- Read lines until the input ends. -/
partial def interact (s : Session) : IO Unit := do
  put prompt
  let line ← (← IO.getStdin).getLine
  if line.isEmpty then return
  let (next, response) := s.handle line.toList
  put response.output
  report response.diagnostics
  interact next

/-- Whether a request needs the whole standard input before it is run. -/
def Request.readsInput : Request → Bool
  | command (.tree formula?) => formula?.isNone
  | command (.eval formula? _) => formula?.isNone
  | command (.sample formula? _ _ _) => formula?.isNone
  | _ => false

/-- Write and report an outcome. -/
def finish (o : Outcome) : IO UInt32 := do
  put o.output
  report o.diagnostics
  return o.status.code.toUInt32

/-- Run the program with the given arguments. -/
def program (args : List String) : IO UInt32 := do
  match Request.ofArguments? (args.map String.toList) with
  | none => finish ⟨.usage, [], []⟩
  | some .session =>
    put banner
    interact .start
    return 0
  | some request =>
    let input ← if request.readsInput then (← IO.getStdin).readToEnd else pure ""
    finish (request.run editedLines input.toList)

end Formula

/-- The entry point: the arguments are those of the command line. -/
def main (args : List String) : IO UInt32 :=
  Formula.program args
