import ScopeScript.Fault
import ScopeScript.Node

/-!
# Environments

A scope binds names to values, in the order in which the names were first
bound. An environment is a stack of scopes that is never empty: names are
looked up from the innermost scope outwards, new names are bound in the
innermost scope, and names are bound again in the nearest scope that has them.
-/

namespace ScopeScript

abbrev Scope := List (String × Value)

namespace Scope

def has (name : String) (s : Scope) : Bool := (s.lookup name).isSome

/-- Binds a name; a name that is bound already keeps its place. -/
def put (name : String) (v : Value) : Scope → Scope
  | [] => [(name, v)]
  | (x, w) :: rest => if x = name then (x, v) :: rest else (x, w) :: put name v rest

theorem lookup_cons (x y : String) (w : Value) (s : Scope) :
    ((y, w) :: s).lookup x = if x = y then some w else s.lookup x := by
  rw [List.lookup_cons]
  by_cases h : x = y
  · simp [h]
  · simp [h, beq_eq_false_iff_ne.mpr h]

theorem lookup_put (name x : String) (v : Value) (s : Scope) :
    (put name v s).lookup x = if x = name then some v else s.lookup x := by
  induction s with
  | nil => exact lookup_cons x name v []
  | cons b rest ih =>
    obtain ⟨y, w⟩ := b
    rw [put]
    split
    next hy =>
      rw [lookup_cons, lookup_cons, hy]
      split <;> rfl
    next hy =>
      rw [lookup_cons, lookup_cons, ih]
      split
      next hx => rw [if_neg (hx ▸ hy)]
      next => rfl

end Scope

structure Environment where
  innermost : Scope
  outer : List Scope

namespace Environment

def empty : Environment := ⟨[], []⟩

/-- All scopes, the base scope first. -/
def scopes (e : Environment) : List Scope := (e.innermost :: e.outer).reverse

def depth (e : Environment) : Nat := e.outer.length + 1

def push (e : Environment) : Environment := ⟨[], e.innermost :: e.outer⟩

/-- The innermost scope and the environment without it; the base scope stays. -/
def pop? (e : Environment) : Option (Scope × Environment) :=
  match e.outer with
  | [] => none
  | s :: rest => some (e.innermost, ⟨s, rest⟩)

/-- The environment without its innermost scope, or itself if that is the base scope. -/
def dropInnermost (e : Environment) : Environment :=
  match e.pop? with
  | some (_, rest) => rest
  | none => e

def define (name : String) (v : Value) (e : Environment) : Environment :=
  { e with innermost := e.innermost.put name v }

def lookup? (name : String) (e : Environment) : Option Value :=
  (e.innermost :: e.outer).findSome? (List.lookup name)

/-- The place of the nearest scope that binds a name, counted from the base scope. -/
def holder? (name : String) (e : Environment) : Option Nat :=
  ((e.innermost :: e.outer).findIdx? (Scope.has name)).map (e.outer.length - ·)

def assignIn (name : String) (v : Value) : List Scope → Option (List Scope)
  | [] => none
  | s :: rest =>
    if Scope.has name s then some (Scope.put name v s :: rest)
    else (assignIn name v rest).map (s :: ·)

/-- Binds a name again in the nearest scope that has it, if one has. -/
def assign? (name : String) (v : Value) (e : Environment) : Option Environment :=
  if Scope.has name e.innermost then some { e with innermost := e.innermost.put name v }
  else (assignIn name v e.outer).map fun outer => { e with outer := outer }

theorem depth_push (e : Environment) : e.push.depth = e.depth + 1 := rfl

theorem pop?_push (e : Environment) : e.push.pop? = some ([], e) := rfl

theorem dropInnermost_push (e : Environment) : e.push.dropInnermost = e := rfl

theorem assignIn_length {name : String} {v : Value} {stack result : List Scope}
    (h : assignIn name v stack = some result) : result.length = stack.length := by
  induction stack generalizing result with
  | nil => simp [assignIn] at h
  | cons s rest ih =>
    unfold assignIn at h
    split at h
    · obtain rfl := Option.some.inj h
      rfl
    · obtain ⟨r, hr, rfl⟩ := Option.map_eq_some_iff.mp h
      simp [ih hr]

theorem assign?_depth {name : String} {v : Value} {e result : Environment}
    (h : e.assign? name v = some result) : result.depth = e.depth := by
  unfold assign? at h
  split at h
  · obtain rfl := Option.some.inj h
    rfl
  · obtain ⟨r, hr, rfl⟩ := Option.map_eq_some_iff.mp h
    simp [depth, assignIn_length hr]

end Environment

end ScopeScript
