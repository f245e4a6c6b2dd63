import ScopeScript.CommandLine

/-!
# The program

Reads the arguments, the environment, the input and at most one file, and
writes what the call gives. At a terminal every line is read whole, as if it
had been typed and entered.
-/

namespace ScopeScript.Main

def environmentText (name : String) : IO String := do
  return (← IO.getEnv name).getD ""

/-- Writes what a session has collected, and forgets it. -/
def writeOut (s : Session) : IO Session := do
  IO.print s.output
  IO.eprint s.errors
  (← IO.getStdout).flush
  return { s with state := { s.state with output := "" }, errors := "" }

/-- The keys of one line; at the end of the input a begun line is dropped and the prompt
closed. -/
def keysOf (p : Prompt) (line : String) : List Key :=
  if line.isEmpty then
    if p.buffer.isEmpty then [.endOfInput] else [.interrupt, .endOfInput]
  else [.text (line.toList.filter (· ≠ '\n')), .enter]

partial def converse (input : IO.FS.Stream) (p : Prompt) : IO UInt32 := do
  let p := { p with session := ← writeOut p.session }
  if !p.isOpen then return 0
  match Prompt.pressAll (keysOf p (← input.getLine)) p with
  | (.ok (), p) => converse input p
  | (.error f, p) =>
    let _ ← writeOut p.session
    IO.eprintln f.message
    return 1

def lookUp (path : String) : IO CommandLine.Entry := do
  if path.isEmpty then return .directory "."
  try
    return .file (← IO.FS.readFile path).toList
  catch
    | .inappropriateType .. => return .directory (CommandLine.tidy path)
    | _ => return .missing

def report (o : CommandLine.Outcome) : IO UInt32 := do
  IO.print o.output
  IO.eprint o.errors
  match o.exit with
  | .done => return 0
  | .failed => return 1
  | .misuse m =>
    IO.eprintln m.message
    return 1
  | .uncaught f =>
    IO.eprintln f.message
    return 1

/-- Calls the command line with the input and the file that the options ask for. -/
def process (arguments : List String) (o : CommandLine.Options) : IO UInt32 := do
  let input ← IO.getStdin
  let logging ← environmentText "SLANG_LOG"
  let traceback ← environmentText "SLANG_DEBUG_PY_TRACE"
  let entry ← match o.source? with
    | some path => lookUp path
    | none => pure .missing
  let w : CommandLine.Surroundings := ⟨[], none, fun _ => entry, logging, traceback⟩
  if o.source?.isNone && (← input.isTty) then
    converse input (Prompt.start (CommandLine.sessionOf o w))
  else if o.source?.getD "-" = "-" then
    let text ← input.readToEnd
    report (CommandLine.call arguments { w with input := text.toList })
  else report (CommandLine.call arguments w)

end ScopeScript.Main

def main (arguments : List String) : IO UInt32 := do
  match ScopeScript.CommandLine.readArguments arguments with
  | .error m => ScopeScript.Main.report ⟨.misuse m, "", ""⟩
  | .ok o => ScopeScript.Main.process arguments o
