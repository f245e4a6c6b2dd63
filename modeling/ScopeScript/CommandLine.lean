import ScopeScript.Prompt

/-!
# The command line

The arguments choose what to do with one program: run it, or show its outline
or its prefix form. An argument that names a file stands for its content, and
any other argument is the program itself; without one the program comes from
the standard input, or, at a terminal, the prompt is started.
-/

namespace ScopeScript.CommandLine

structure Options where
  outline : Bool := false
  prefixed : Bool := false
  verbose : Bool := false
  source? : Option String := none
  deriving DecidableEq

/-- Calls that are wrong before any program is read. -/
inductive Misuse where
  | unknownOption (argument : String)
  | unexpectedArgument (argument : String)
  | emptyInput
  deriving DecidableEq

def Misuse.message : Misuse → String
  | .unknownOption argument => "Unknown option: " ++ argument
  | .unexpectedArgument argument => "Unexpected argument: " ++ argument
  | .emptyInput => "No input provided on stdin"

def readArgument (o : Options) (argument : String) : Except Misuse Options :=
  if argument = "--ast" then .ok { o with outline := true }
  else if argument = "--sexpr" then .ok { o with prefixed := true }
  else if argument = "--verbose" then .ok { o with verbose := true }
  else if "--".isPrefixOf argument then .error (.unknownOption argument)
  else match o.source? with
    | none => .ok { o with source? := some argument }
    | some _ => .error (.unexpectedArgument argument)

def readArguments (arguments : List String) : Except Misuse Options :=
  arguments.foldlM readArgument {}

inductive Entry where
  | missing
  | directory (path : String)
  | file (content : List Char)

/-- The world around a call. A terminal gives keys to the prompt. -/
structure Surroundings where
  input : List Char
  terminal? : Option (List Key)
  entry : String → Entry
  logging : String
  traceback : String

inductive Exit where
  | done
  | failed
  | misuse (m : Misuse)
  | uncaught (f : Fault)
  deriving DecidableEq

structure Outcome where
  exit : Exit
  output : String
  errors : String

def Outcome.ofSession (exit : Exit) (s : Session) : Outcome := ⟨exit, s.output, s.errors⟩

/-- Reports a fault of the program; other faults are handed on. -/
def failure (f : Fault) (s : Session) : Outcome :=
  if f.isReported then .ofSession .failed (s.report f) else .ofSession (.uncaught f) s

/-- A text for the standard output, which is written without a line end of its own. -/
def write (text : String) (s : Session) : Session :=
  { s with state := { s.state with output := s.state.output ++ text } }

def formsOf (o : Options) (limits : Limits) (program : Node) : Except Fault String := do
  let outline ←
    if o.outline then program.render? Node.outline limits.levels else pure ""
  let form ←
    if o.prefixed then (program.render? Node.prefixForm limits.levels).map (· ++ "\n")
    else pure ""
  return outline ++ form

def showForms (o : Options) (source : List Char) (s : Session) : Outcome :=
  match s.read source with
  | (.error f, s) => failure f s
  | (.ok program, s) =>
    match formsOf o s.limits program with
    | .ok text => .ofSession .done (write text s)
    | .error f => failure f s

def runProgram (source : List Char) (s : Session) : Outcome :=
  match s.run source with
  | (.error f, s) => failure f s
  | (.ok v, s) =>
    match s.present v with
    | (.ok (), s) => .ofSession .done s
    | (.error f, s) => .ofSession (.uncaught f) s

def process (o : Options) (source : List Char) (s : Session) : Outcome :=
  if o.outline || o.prefixed then showForms o source s else runProgram source s

def isDebug (level : String) : Bool := level.toLower = "debug"

def sessionOf (o : Options) (w : Surroundings) : Session :=
  { logging := o.verbose || isDebug w.logging
    traceback := ["1", "true", "yes", "on"].contains w.traceback.toLower }

def processSource (o : Options) (w : Surroundings) (s : Session) : Outcome :=
  let fromInput :=
    if w.input.isEmpty then .ofSession (.misuse .emptyInput) s else process o w.input s
  match o.source? with
  | none => fromInput
  | some argument =>
    if argument = "-" then fromInput
    else match w.entry argument with
      | .missing => process o argument.toList s
      | .file content => process o (Text.unifyLineEnds content) s
      | .directory path => .ofSession (.uncaught (.isDirectory path)) s

def converse (keys : List Key) (s : Session) : Outcome :=
  match Prompt.converse s keys with
  | (.ok (), s) => .ofSession .done s
  | (.error f, s) => .ofSession (.uncaught f) s

def call (arguments : List String) (w : Surroundings) : Outcome :=
  match readArguments arguments with
  | .error m => ⟨.misuse m, "", ""⟩
  | .ok o =>
    let s := sessionOf o w
    match o.source?, w.terminal? with
    | none, some keys => converse keys s
    | _, _ => processSource o w s

/-! ## Paths in a directory -/

/-- The names along a path; empty names and single dots lead nowhere. -/
def components (path : String) : List String :=
  (path.splitOn "/").filter fun c => c ≠ "" ∧ c ≠ "."

/-- A path without the parts that lead nowhere; two slashes at its front are kept. -/
def tidy (path : String) : String :=
  let names := Text.joined "/" (components path)
  if "///".isPrefixOf path then "/" ++ names
  else if "//".isPrefixOf path then "//" ++ names
  else if "/".isPrefixOf path then "/" ++ names
  else if names.isEmpty then "."
  else names

/-- What a path leads to in a directory that holds just the given files. -/
def entryIn (files : List (String × List Char)) (path : String) : Entry :=
  let names := components path
  if names.all (· = "..") then .directory (tidy path)
  else if "/".isPrefixOf path then .missing
  else match files.find? fun f => components f.1 = names with
    | some f => .file f.2
    | none =>
      if files.any fun f => names.isPrefixOf (components f.1) then .directory (tidy path)
      else .missing

end ScopeScript.CommandLine
