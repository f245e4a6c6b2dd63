import ScopeScript.Environment
import ScopeScript.Node.Printer
import ScopeScript.Value.Operator

/-!
# Evaluation

Evaluating a node changes a state and ends with a value or a fault; the state
is kept either way, so what was printed and bound before a fault stays. The
break signal and the lack of a value are values that only statements have.

Functions hold no scope: a call evaluates the body on top of the scopes that
are live where the call stands. An argument is evaluated inside the new scope,
after the parameters before it are bound there.

Every rule is stated for an evaluator `ev` of the parts of a node. `evalNode`
closes the recursion: at each level the evaluator of the level below takes the
place of `ev`, and below the last level every node is a fault.
-/

namespace ScopeScript

/-- Scopes, everything printed so far and the identity of the next function. -/
structure State where
  environment : Environment := .empty
  output : String := ""
  supply : Nat := 0

abbrev Eval := ExceptT Fault (StateM State)

namespace Eval

def lift (r : Except Fault α) : Eval α := fun s => (r, s)

def fail (cause : RuntimeCause) : Eval α := throw (.runtime cause none)

/-- Gives faults without a line the line of a node. -/
def located (line : Option Nat) (x : Eval α) : Eval α := fun s =>
  match x s with
  | (.ok a, t) => (.ok a, t)
  | (.error f, t) => (.error (f.locate line), t)

/-- Runs a computation in a new innermost scope, which is dropped however it ends. -/
def inScope (x : Eval α) : Eval α := fun s =>
  let (r, t) := x { s with environment := s.environment.push }
  (r, { t with environment := t.environment.dropInnermost })

def define (name : String) (v : Value) : Eval Unit :=
  modify fun s => { s with environment := s.environment.define name v }

def lookup? (name : String) : Eval (Option Value) := do
  return (← get).environment.lookup? name

def lookup (name : String) : Eval Value := do
  match ← lookup? name with
  | some v => return v
  | none => fail (.undefinedVariable name)

def assign (name : String) (v : Value) : Eval Unit := do
  let s ← get
  match s.environment.assign? name v with
  | some e => set { s with environment := e }
  | none => fail (.undefinedVariable name)

def write (text : String) : Eval Unit :=
  modify fun s => { s with output := s.output ++ text }

def pushScope : Eval Unit :=
  modify fun s => { s with environment := s.environment.push }

/-- The innermost scope, which is dropped; the base scope cannot be. -/
def popScope : Eval Scope := do
  let s ← get
  match s.environment.pop? with
  | some (scope, rest) =>
    set { s with environment := rest }
    return scope
  | none => fail (.malformed .baseScope)

/-- An identity that no function has yet. -/
def freshIdentity : Eval Nat := do
  let s ← get
  set { s with supply := s.supply + 1 }
  return s.supply

theorem bind_apply (x : Eval α) (f : α → Eval β) (s : State) :
    (x >>= f) s = match x s with
      | (.ok a, t) => f a t
      | (.error e, t) => (.error e, t) := by
  change (ExceptT.bind x f) s = _
  simp only [ExceptT.bind, ExceptT.mk, bind, StateT.bind]
  rcases x s with ⟨_ | _, _⟩ <;> rfl

end Eval

/-- What a declaration does to its name: bind it anew, bind it again, or combine its value
with the new one and bind it again. -/
inductive Binding where
  | fresh
  | again
  | combine (op : String)
  deriving DecidableEq

def Binding.ofNode : Node → Binding
  | .leaf l =>
    if l.kind = Kind.letWord.label then .fresh
    else if l.kind = Kind.plusAssign.label then .combine "+"
    else if l.kind = Kind.minusAssign.label then .combine "-"
    else .again
  | _ => .again

namespace Eval

variable (ev : Node → Eval Value)

def value (n : Node) : Eval Value := do
  let v ← ev n
  if v.isResult then return v else throw (.runtime (.mismatch .noValue) n.line?)

def values : List Node → Eval (List Value)
  | [] => return []
  | n :: ns => do
    let v ← value ev n
    return v :: (← values ns)

/-- Evaluates statements in the current scope. The last value is the result; a break
signal ends them early and is the result then. -/
def statements : List Node → Value → Eval Value
  | [], last => return last
  | n :: ns, _ => do
    let v ← ev n
    if v.isBreak then return v else statements ns v

def block (ns : List Node) : Eval Value := inScope (statements ev ns .absent)

/-- A program runs in the current scope; a break signal that reaches it is dropped. -/
def program (ns : List Node) : Eval Value := do
  let v ← statements ev ns .absent
  return if v.isBreak then .absent else v

def test (context : String) (n : Node) : Eval Bool := do
  match ← ev n with
  | .bool b => return b
  | v => fail (.mismatch (.condition context v.variant))

def rounds (condition : Node) (body : List Node) : Nat → Eval Value
  | 0 => throw .iterationLimit
  | count + 1 => do
    if ← test ev "while" condition then
      let v ← block ev body
      if v.isBreak then return .absent else rounds condition body count
    else return .absent

def unary (op : String) (n : Node) : Eval Value := do
  let v ← value ev n
  lift (v.applyUnary op)

def binary (op : String) (l r : Node) : Eval Value := do
  if op = "+=" ∨ op = "-=" then fail (.mismatch (.assignmentOperator op))
  else
    let a ← value ev l
    if op = "." then fail (.mismatch (.noMembers a.variant))
    else
      let b ← value ev r
      lift (a.applyBinary op b)

def index (collection position : Node) : Eval Value := do
  let items ← lift ((← value ev collection).toItems "Indexing")
  let i ← lift (← value ev position).toIndex
  lift (Value.itemAt items i)

def parameterNames : List Node → Except Fault (List String)
  | [] => .ok []
  | n :: ns =>
    match n.name? with
    | some x => (parameterNames ns).map (x :: ·)
    | none => .error (.malformed (.unsupportedParameter n.shown))

def functionValue (parameters body : Node) : Eval Value := do
  let names ← lift (parameterNames parameters.children)
  return .function (← freshIdentity) names body

/-- Binds a name to the value of a node. Binding again needs the name to be bound before
the node is evaluated, and keeps the variant of the value that it holds afterwards. -/
def declare (name : String) (n : Node) : Binding → Eval Unit
  | .fresh => do define name (← value ev n)
  | .again => do
    let _ ← lookup name
    let new ← value ev n
    let old ← lookup name
    if new.variant = old.variant then assign name new
    else fail (.mismatch (.assignment new.variant name old.variant))
  | .combine op => do
    let _ ← lookup name
    let operand ← value ev n
    let old ← lookup name
    let new ← lift (old.applyBinary op operand)
    if new.variant = old.variant then assign name new
    else fail (.mismatch (.assignment new.variant name old.variant))

def declaration (target kind n : Node) : Eval Value := do
  match target.name? with
  | none => fail (.malformed (.notAName "Declaration target"))
  | some name =>
    declare ev name n (.ofNode kind)
    return .absent

def arrayVariable (context : String) (n : Node) : Eval (String × List Value) := do
  match n.name? with
  | none => fail (.mismatch (.arrayVariable context))
  | some name =>
    let items ← lift ((← lookup name).toItems context)
    return (name, items)

/-- `push(name, item)` appends to the array that a variable holds. -/
def pushItem (target item : Node) : Eval Value := do
  let v ← value ev item
  let (name, items) ← arrayVariable "push" target
  assign name (.array (items ++ [v]))
  return v

/-- `len(name)` is the length of the array that a variable holds. -/
def length (target : Node) : Eval Value := do
  let (_, items) ← arrayVariable "len" target
  return .int items.length

/-- Binds parameters to arguments from the left, each argument in the scope so far. -/
def bindArguments : List String → List Node → Eval Unit
  | x :: xs, n :: ns => do
    define x (← value ev n)
    bindArguments xs ns
  | _, _ => return ()

def callFunction (parameters : List String) (body arguments : List Node) : Eval Value := do
  let v ← inScope do
    bindArguments ev parameters arguments
    statements ev body .absent
  return if v.isBreak then .absent else v

/-- A call by name: the two built-in functions come before the functions that names hold. -/
def call (name : String) (arguments : List Node) : Eval Value := do
  if name = "push" then
    match arguments with
    | [target, item] => pushItem ev target item
    | _ => fail (.arity name 2 arguments.length)
  else if name = "len" then
    match arguments with
    | [target] => length target
    | _ => fail (.arity name 1 arguments.length)
  else
    match ← lookup? name with
    | some (.function _ parameters body) =>
      if arguments.length = parameters.length then
        callFunction ev parameters body.children arguments
      else fail (.arity name parameters.length arguments.length)
    | _ => fail (.unknownFunction name)

def leaf (l : Leaf) : Eval Value := do
  match l.name? with
  | some name => lookup name
  | none => fail (.malformed (.unhandledLeaf l.kind l.text))

/-- The value of a node, given the evaluator of its parts and the bound on the rounds of
a loop. -/
def node (rounds : Nat) : Node → Eval Value
  | .leaf l => leaf l
  | .bare v => fail (.malformed (.unknownNode v.text))
  | .literal v _ => return v
  | .array ns _ => return .array (← values ev ns)
  | .unary op n _ => unary ev op.text n
  | .binary op l r _ => binary ev op.text l r
  | .index a b _ => index ev a b
  | .call f a _ =>
    match f.name? with
    | some name => call ev name a.children
    | none => fail (.malformed (.notAName "Callee"))
  | .arguments .. => fail (.malformed (.unknownNode "args"))
  | .parameters .. => fail (.malformed (.unknownNode "params"))
  | .function a b _ => functionValue a b
  | .expression n _ => ev n
  | .print n _ => do
    let text ← lift (← value ev n).display?
    write (text ++ "\n")
    return .absent
  | .declaration a b c _ => declaration ev a b c
  | .branch a b c _ => do
    if ← test ev "if" a then block ev b.children else block ev c.children
  | .loop a b _ => Eval.rounds ev a b.children rounds
  | .block ns _ => block ev ns
  | .exit _ => return .breakSignal
  | .other label _ _ => fail (.malformed (.unknownNode label))

end Eval

/-- The value of a node, with `depth` levels left for its parts. -/
def evalNode (rounds : Nat) : Nat → Node → Eval Value
  | 0, _ => throw .nestingLimit
  | depth + 1, n => Eval.located n.line? (Eval.node (evalNode rounds depth) rounds n)

end ScopeScript
