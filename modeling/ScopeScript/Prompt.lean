import ScopeScript.Session

/-!
# The prompt

Typed text collects in a buffer. Enter submits a buffer whose brackets are
closed; a buffer with open brackets goes on in a new line, which is indented by
the number of open brackets, and an empty line submits it as it is. A submitted
text loses its invisible characters and is then a command or an input to the
session.
-/

namespace ScopeScript

/-- One keystroke, or a piece of text typed at once. -/
inductive Key where
  | text (cs : List Char)
  | enter
  | backspace
  | interrupt
  | endOfInput
  deriving DecidableEq

namespace Prompt

/-- Bracket depth after a list of tokens. A closing bracket without an opening one is
ignored, and the kinds of brackets are not compared. -/
def depthAfter (ts : List Token) : Nat :=
  ts.foldl (fun n t => if t.kind.opens then n + 1 else if t.kind.closes then n - 1 else n) 0

/-- The number of open brackets at the end of a text; none if it cannot be read. -/
def openDepth (text : List Char) : Except Fault Nat :=
  match tokenize text with
  | .ok ts => .ok (depthAfter ts)
  | .error (.lexical _) => .ok 0
  | .error f => .error f

def indentWidth : Nat := 4

def indent (text : List Char) : Except Fault (List Char) :=
  (openDepth text).map fun n => List.replicate (indentWidth * n) ' '

inductive Decision where
  | submit (text : List Char)
  | goOn (buffer : List Char)
  deriving DecidableEq

def unlines : List (List Char) → List Char
  | [] => []
  | [l] => l
  | l :: m :: rest => l ++ '\n' :: unlines (m :: rest)

def enter (buffer : List Char) : Except Fault Decision := do
  let lines := Text.lines buffer
  if lines.length = 1 then
    if (← openDepth buffer) = 0 then return .submit buffer
    else return .goOn (buffer ++ '\n' :: (← indent buffer))
  else if Text.allBlank (lines.getLast?.getD []) then return .submit (unlines lines.dropLast)
  else if (← openDepth buffer) = 0 then return .submit buffer
  else return .goOn (buffer ++ '\n' :: (← indent buffer))

/-- Commands that begin with a text that begins with a slash. -/
def completions (text : List Char) : List (String × String) :=
  if text.head? = some '/' then
    Session.commands.filter fun c => text.isPrefixOf c.1.toList
  else []

end Prompt

/-- A session at the prompt: the buffer, and whether the session goes on. -/
structure Prompt where
  session : Session
  buffer : List Char := []
  isOpen : Bool := true

namespace Prompt

def greeting : String := "slang repl - Ctrl-D to exit, / for commands"

def start (session : Session) : Prompt := { session := session.print greeting }

/-- Takes a submitted text: nothing, a command or an input. -/
def submit (text : List Char) (p : Prompt) : Except Fault Unit × Prompt :=
  let text := Session.normalize text
  let p := { p with buffer := [] }
  if Text.allBlank text then (.ok (), p)
  else
    match p.session.command text with
    | (true, s) => (.ok (), { p with session := s })
    | (false, s) =>
      let (r, s) := s.echo text
      (r, { p with session := s })

/-- What one key does; a fault that is not reported ends the prompt. -/
def press (k : Key) (p : Prompt) : Except Fault Unit × Prompt :=
  match k with
  | .text cs => (.ok (), { p with buffer := p.buffer ++ cs })
  | .backspace => (.ok (), { p with buffer := p.buffer.dropLast })
  | .interrupt =>
    (.ok (), { p with buffer := [], session := p.session.print "KeyboardInterrupt" })
  | .endOfInput =>
    if p.buffer.isEmpty then (.ok (), { p with session := p.session.print "", isOpen := false })
    else (.ok (), p)
  | .enter =>
    match enter p.buffer with
    | .error f => (.error f, p)
    | .ok (.submit text) => p.submit text
    | .ok (.goOn buffer) => (.ok (), { p with buffer := buffer })

def pressAll : List Key → Prompt → Except Fault Unit × Prompt
  | [], p => (.ok (), p)
  | k :: ks, p =>
    if p.isOpen then
      match p.press k with
      | (.ok (), p) => pressAll ks p
      | (.error f, p) => (.error f, p)
    else (.ok (), p)

/-- A whole conversation: after the last key the line is dropped and the prompt closed. -/
def converse (session : Session) (keys : List Key) : Except Fault Unit × Session :=
  let (r, p) := pressAll (keys ++ [.interrupt, .endOfInput]) (start session)
  (r, p.session)

end Prompt

end ScopeScript
