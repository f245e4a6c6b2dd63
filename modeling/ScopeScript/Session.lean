import ScopeScript.Program
import ScopeScript.Text.Blank

/-!
# Sessions

A session runs inputs one after another on one state. It collects what goes to
the standard output and what goes to the error output, and knows the source of
the last input that was read, and whether error reports show a traceback. Lines
that begin with a slash are commands to the session itself.
-/

namespace ScopeScript

structure Session where
  limits : Limits := .standard
  state : State := {}
  source : List Char := []
  traceback : Bool := false
  logging : Bool := false
  errors : String := ""

namespace Session

/-- The output of the state is the standard output of the session. -/
def output (s : Session) : String := s.state.output

def print (line : String) (s : Session) : Session :=
  { s with state := { s.state with output := s.state.output ++ line ++ "\n" } }

def complain (line : String) (s : Session) : Session :=
  { s with errors := s.errors ++ line ++ "\n" }

/-- Reports a fault on the error output; a traceback shows as its header. -/
def report (f : Fault) (s : Session) : Session :=
  let s := s.complain ("Error: " ++ f.message)
  if s.traceback then (s.complain "").complain "Python traceback:" else s

def log (stage : Stage) (s : Session) : Session :=
  if s.logging then s.complain ("slang.runner: " ++ stage.message) else s

/-- Reads a program, which becomes the recorded source if it can be read. -/
def read (source : List Char) (s : Session) : Except Fault Node × Session :=
  let (stages, result) := readProgram s.limits source
  let s := stages.foldl (fun s stage => s.log stage) s
  match result with
  | .error f => (.error f, s)
  | .ok program => (.ok program, { s with source := source })

def execute (program : Node) (s : Session) : Except Fault Value × Session :=
  let (r, t) := ScopeScript.execute s.limits program s.state
  (r, { s with state := t })

def run (source : List Char) (s : Session) : Except Fault Value × Session :=
  match s.read source with
  | (.error f, s) => (.error f, s)
  | (.ok program, s) => (s.log (.executing program.children.length)).execute program

/-- Runs one input; the flag tells whether it ends with a statement. -/
def evaluate (source : List Char) (s : Session) : Except Fault (Value × Bool) × Session :=
  match s.read source with
  | (.error f, s) => (.error f, s)
  | (.ok program, s) =>
    let (r, s) := s.execute program
    (r.map fun v => (v, !endsWithExpression program), s)

/-- Shows a value on the standard output, unless there is none. -/
def present (v : Value) (s : Session) : Except Fault Unit × Session :=
  match v with
  | .absent => (.ok (), s)
  | v =>
    match v.display? with
    | .ok text => (.ok (), s.print text)
    | .error f => (.error f, s)

/-- Runs one input and shows the value of a final expression. Faults of the program are
reported; other faults are handed on. -/
def echo (source : List Char) (s : Session) : Except Fault Unit × Session :=
  match s.evaluate source with
  | (.error f, s) => if f.isReported then (.ok (), s.report f) else (.error f, s)
  | (.ok (v, isStatement), s) => if isStatement then (.ok (), s) else s.present v

def isInvisible (c : Char) : Bool :=
  c = '\u200b' || c = '\u200c' || c = '\u200d' || c = '\ufeff' || c = '\u00a0' || c = '\r'

def normalize (text : List Char) : List Char := text.filter (!isInvisible ·)

/-- The state that a session starts with; what was printed stays. -/
def reset (s : Session) : Session :=
  { s with state := { s.state with environment := .empty }, source := [] }

def commands : List (String × String) := [
  ("/clear", "Clear the terminal screen"),
  ("/py-traceback", "Toggle Python traceback on errors"),
  ("/reset", "Reset the REPL environment")]

/-- Words that switch a setting on or off, in any case. -/
def isOn (word : String) : Bool := ["on", "1", "true", "yes"].contains word.toLower

def isOff (word : String) : Bool := ["off", "0", "false", "no"].contains word.toLower

def setTraceback (on : Bool) (s : Session) : Session :=
  let s := { s with traceback := on }
  s.print ("Python traceback: " ++ if on then "on" else "off")

def command (line : List Char) (s : Session) : Bool × Session :=
  let stripped := Text.strip line
  if stripped.head? ≠ some '/' then (false, s)
  else
    let (word, rest) := Text.splitWord stripped
    let argument := String.ofList rest
    match String.ofList word with
    | "/clear" => (true, s)
    | "/py-traceback" =>
      if isOn argument then (true, s.setTraceback true)
      else if isOff argument then (true, s.setTraceback false)
      else if rest.isEmpty then (true, s.setTraceback !s.traceback)
      else (true, s.complain "Usage: /py-traceback [on|off]")
    | "/reset" => (true, s.reset.print "Environment reset.")
    | word => (true, s.complain ("Unknown command: " ++ word))

end Session

end ScopeScript
