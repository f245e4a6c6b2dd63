import ScopeScript.Fault
import ScopeScript.Node
import ScopeScript.Text.Quoted

/-!
# Text of values

A value has a text, which messages and listings use and which leaves
strings as they are between quotes, and a display, which `print` writes and
which shows a string without quotes. Both need every integer in the value to
be short enough to write; `isWritable` says so, and `text?` and `display?`
ask it first.
-/

namespace ScopeScript

namespace Value

def variant : Value → Variant
  | .int _ => .integer
  | .float _ => .float
  | .string _ => .string
  | .bool _ => .boolean
  | .array _ => .array
  | .function .. => .function
  | .absent => .noValue
  | .breakSignal => .breakSignal

def isBreak : Value → Bool
  | .breakSignal => true
  | _ => false

/-- A value that a name can hold: neither the lack of a value nor the break signal. -/
def isResult : Value → Bool
  | .absent | .breakSignal => false
  | _ => true

/-- A number without a fraction is written as an integer. -/
def floatText (x : Binary64) : String :=
  match x.toInt? with
  | some i => Numeral.ofInt i
  | none => x.text

end Value

mutual

def Value.text : Value → String
  | .int i => Numeral.ofInt i
  | .float x => Value.floatText x
  | .string s => "\"" ++ s ++ "\""
  | .bool b => if b then "true" else "false"
  | .array items => Text.listing (Value.texts items)
  | .function _ parameters _ => "<fn params=" ++ Text.joined ", " parameters ++ ">"
  | .absent => "None"
  | .breakSignal => "<break>"

def Value.texts : List Value → List String
  | [] => []
  | v :: vs => v.text :: Value.texts vs

end

mutual

/-- No integer in the value is too long to be written. -/
def Value.isWritable : Value → Bool
  | .int i => Numeral.isWritable i
  | .array items => Value.allWritable items
  | _ => true

def Value.allWritable : List Value → Bool
  | [] => true
  | v :: vs => v.isWritable && Value.allWritable vs

end

namespace Value

def display : Value → String
  | .string s => s
  | .absent => ""
  | v => v.text

def text? (v : Value) : Except Fault String :=
  if v.isWritable then .ok v.text else .error .numeralTooLong

def display? (v : Value) : Except Fault String :=
  if v.isWritable then .ok v.display else .error .numeralTooLong

end Value

end ScopeScript
