import ScopeScript.Proofs.Eval.Stable
import ScopeScript.Proofs.Value.Relocated

/-!
# Evaluation in other places

Evaluation looks at lines only to say where a fault was, and at columns not at
all. Relocating a tree, the bodies of the functions that a state holds and the
lines of faults before evaluation or after it comes to the same. So two trees
that differ in nothing but their lines do the same, and so do two that differ
in nothing but their columns, down to the lines of the faults.
-/

namespace ScopeScript

/-! ## States -/

namespace Scope

def lineless (s : Scope) : Scope := s.map fun b => (b.1, b.2.lineless)

def relocated (r : Relocation) (s : Scope) : Scope := s.map fun b => (b.1, b.2.relocated r)

variable (r : Relocation)

theorem relocated_lookup (x : String) (s : Scope) :
    (s.relocated r).lookup x = (s.lookup x).map (Value.relocated r) := by
  induction s with
  | nil => rfl
  | cons b s ih =>
    obtain ⟨y, v⟩ := b
    rw [lookup_cons]
    change ((y, v.relocated r) :: relocated r s).lookup x = _
    rw [lookup_cons, ih]
    split <;> rfl

theorem relocated_has (x : String) (s : Scope) : has x (s.relocated r) = has x s := by
  rw [has, has, relocated_lookup, Option.isSome_map]

theorem relocated_put (x : String) (v : Value) (s : Scope) :
    (put x v s).relocated r = put x (v.relocated r) (s.relocated r) := by
  induction s with
  | nil => rfl
  | cons b s ih =>
    obtain ⟨y, w⟩ := b
    change (put x v ((y, w) :: s)).relocated r =
      put x (v.relocated r) ((y, w.relocated r) :: relocated r s)
    rw [put, put, ← ih]
    split <;> rfl

end Scope

namespace Environment

def lineless (e : Environment) : Environment :=
  ⟨e.innermost.lineless, e.outer.map Scope.lineless⟩

def relocated (r : Relocation) (e : Environment) : Environment :=
  ⟨e.innermost.relocated r, e.outer.map (Scope.relocated r)⟩

variable (r : Relocation) {e : Environment}

theorem relocated_lookup? (x : String) (e : Environment) :
    (e.relocated r).lookup? x = (e.lookup? x).map (Value.relocated r) := by
  change (((e.innermost :: e.outer).map (Scope.relocated r)).findSome? (List.lookup x)) =
    ((e.innermost :: e.outer).findSome? (List.lookup x)).map (Value.relocated r)
  induction e.innermost :: e.outer with
  | nil => rfl
  | cons s ss ih =>
    rw [List.map_cons, List.findSome?_cons, List.findSome?_cons, Scope.relocated_lookup, ih]
    cases s.lookup x <;> rfl

theorem relocated_assignIn (x : String) (v : Value) (ss : List Scope) :
    assignIn x (v.relocated r) (ss.map (Scope.relocated r)) =
      (assignIn x v ss).map (List.map (Scope.relocated r)) := by
  induction ss with
  | nil => rfl
  | cons s ss ih =>
    rw [List.map_cons, assignIn, assignIn, Scope.relocated_has, ih]
    split
    · rw [Option.map_some, List.map_cons, Scope.relocated_put]
    · rw [Option.map_map, Option.map_map]
      rfl

theorem relocated_assign? (x : String) (v : Value) (e : Environment) :
    (e.relocated r).assign? x (v.relocated r) = (e.assign? x v).map (relocated r) := by
  change (if Scope.has x (e.innermost.relocated r) then some _ else _) = _
  rw [assign?, Scope.relocated_has]
  split
  · exact congrArg (fun scope => some (Environment.mk scope (e.outer.map (Scope.relocated r))))
      (Scope.relocated_put r x v e.innermost).symm
  · change (assignIn x (v.relocated r) (e.outer.map (Scope.relocated r))).map _ = _
    rw [relocated_assignIn, Option.map_map, Option.map_map]
    rfl

theorem relocated_dropInnermost (e : Environment) :
    e.dropInnermost.relocated r = (e.relocated r).dropInnermost := by
  obtain ⟨s, ss⟩ := e
  cases ss <;> rfl

end Environment

namespace State

def lineless (s : State) : State := { s with environment := s.environment.lineless }

def relocated (r : Relocation) (s : State) : State :=
  { s with environment := s.environment.relocated r }

theorem relocated_lineless (s : State) : s.relocated .lineless = s.lineless := rfl

end State

namespace Eval

open Fault (Bare strip)

variable {α β γ δ : Type} {f : α → β} {g : γ → δ}

/-- How a computation ends, without the lines. -/
def stripped (f : α → β) (p : Except Fault α × State) : Except Fault β × State :=
  (strip f p.1, p.2.lineless)

/-- How a computation ends, with everything relocated. -/
def moved (r : Relocation) (f : α → β) (p : Except Fault α × State) : Except Fault β × State :=
  (Fault.moved r f p.1, p.2.relocated r)

theorem moved_lineless (p : Except Fault α × State) : moved .lineless f p = stripped f p := by
  rw [moved, Fault.moved_lineless]
  rfl

/-- On a relocated state, `y` ends as `x` does on the state itself. -/
def Moves (r : Relocation) (f : α → β) (x : Eval α) (y : Eval β) : Prop :=
  ∀ s, y (s.relocated r) = moved r f (x s)

namespace Moves

variable {r : Relocation}

section
variable {x x' : Eval α} {y y' : Eval β}

theorem ofMoved {p : Except Fault α} {q : Except Fault β} (h : q = Fault.moved r f p) :
    Moves r f (lift p) (lift q) := by
  intro s
  rw [h]
  rfl

theorem pure {a : α} {b : β} (h : f a = b) : Moves r f (Pure.pure a) (Pure.pure b) :=
  ofMoved (congrArg Except.ok h.symm)

theorem throw {e e' : Fault} (h : e' = e.relocated r) :
    Moves r f (MonadExcept.throw e) (MonadExcept.throw e') :=
  ofMoved (congrArg Except.error h)

theorem bind {h : α → Eval γ} {h' : β → Eval δ} (hx : Moves r f x y)
    (hh : ∀ a, Moves r g (h a) (h' (f a))) : Moves r g (x >>= h) (y >>= h') := by
  intro s
  rw [bind_apply, bind_apply, hx s]
  obtain ⟨q, t⟩ := x s
  cases q with
  | ok a => exact hh a t
  | error e => rfl

theorem ite {c c' : Prop} [Decidable c] [Decidable c'] (hc : c' ↔ c) (hx : Moves r f x y)
    (hx' : Moves r f x' y') : Moves r f (if c then x else x') (if c' then y else y') := by
  by_cases h : c
  · rwa [if_pos h, if_pos (hc.mpr h)]
  · rwa [if_neg h, if_neg (mt hc.mp h)]

theorem inScope (hx : Moves r f x y) : Moves r f (inScope x) (inScope y) := by
  intro s
  have hpush := hx { s with environment := s.environment.push }
  change y { s.relocated r with environment := (s.relocated r).environment.push } = _ at hpush
  rw [Eval.inScope, Eval.inScope, hpush]
  obtain ⟨q, t⟩ := x { s with environment := s.environment.push }
  exact congrArg (fun e => (Fault.moved r f q, { t with environment := e }))
    (Environment.relocated_dropInnermost r t.environment).symm

theorem located (hr : r.Uniform) (line : Option Nat) (hx : Moves r f x y) :
    Moves r f (located line x) (located (r.line line) y) := by
  intro s
  rw [Eval.located, Eval.located, hx s]
  obtain ⟨q, t⟩ := x s
  cases q with
  | ok a => rfl
  | error e =>
    exact congrArg (fun e => (Except.error e, t.relocated r))
      (Fault.relocated_locate hr line e).symm

theorem define (name : String) (v : Value) :
    Moves r id (define name v) (define name (v.relocated r)) := by
  intro s
  have hput := Scope.relocated_put r name v s.environment.innermost
  exact congrArg (fun scope => (Except.ok (), { s with
    environment := ⟨scope, s.environment.outer.map (Scope.relocated r)⟩ })) hput.symm

theorem lookup? (name : String) :
    Moves r (Option.map (Value.relocated r)) (lookup? name) (lookup? name) := by
  intro s
  change (Except.ok ((s.environment.relocated r).lookup? name), _) = _
  rw [Environment.relocated_lookup?]
  rfl

theorem write (text : String) : Moves r id (write text) (write text) := fun _ => rfl

theorem freshIdentity : Moves r id freshIdentity freshIdentity := fun _ => rfl

end

/-! ## Rules -/

section
variable {ev ev' : Node → Eval Value} (hr : r.line none = none)
  (hev : ∀ n, Moves r (Value.relocated r) (ev n) (ev' (n.relocated r)))

section
include hr

theorem lift {p : Except Fault α} {q : Except Fault β} (h : q = strip f p) (hp : Bare p) :
    Moves r f (lift p) (lift q) :=
  ofMoved (h.trans (hp.moved hr f).symm)

theorem fail (cause : RuntimeCause) : Moves r f (fail cause) (fail cause) :=
  throw (congrArg (Fault.runtime cause) hr.symm)

theorem lookup (name : String) : Moves r (Value.relocated r) (lookup name) (lookup name) := by
  refine (lookup? name).bind fun o => ?_
  cases o with
  | none => exact fail hr _
  | some v => exact pure rfl

theorem assign (name : String) (v : Value) :
    Moves r id (assign name v) (assign name (v.relocated r)) := by
  intro s
  have hassign : (s.relocated r).environment.assign? name (v.relocated r) =
      (s.environment.assign? name v).map (Environment.relocated r) :=
    Environment.relocated_assign? r name v s.environment
  rw [assign_apply, assign_apply, hassign]
  cases s.environment.assign? name v with
  | none => exact fail hr _ s
  | some e => rfl

end

section
include hev

theorem statements (ns : List Node) (last : Value) : Moves r (Value.relocated r)
    (statements ev ns last)
    (statements ev' (ns.map (Node.relocated r)) (last.relocated r)) := by
  induction ns generalizing last with
  | nil => exact pure rfl
  | cons n ns ih =>
    exact (hev n).bind fun v => .ite (by rw [Value.relocated_isBreak]) (pure rfl) (ih v)

theorem block (ns : List Node) : Moves r (Value.relocated r)
    (block ev ns) (block ev' (ns.map (Node.relocated r))) :=
  inScope (statements hev ns .absent)

omit hev in
/-- A break signal is dropped wherever it comes from. -/
theorem dropBreak {x y : Eval Value} (h : Moves r (Value.relocated r) x y) :
    Moves r (Value.relocated r) (do
      let v ← x
      return if v.isBreak then .absent else v) (do
      let v ← y
      return if v.isBreak then .absent else v) := by
  refine h.bind fun v => pure ?_
  cases v <;> rfl

theorem program (ns : List Node) : Moves r (Value.relocated r)
    (program ev ns) (program ev' (ns.map (Node.relocated r))) :=
  dropBreak (statements hev ns .absent)

end

include hr hev

theorem value (n : Node) :
    Moves r (Value.relocated r) (value ev n) (value ev' (n.relocated r)) := by
  refine (hev n).bind fun v => .ite (by rw [Value.relocated_isResult]) (pure rfl) (throw ?_)
  rw [Node.relocated_line? r hr]
  rfl

theorem values (ns : List Node) : Moves r (List.map (Value.relocated r))
    (values ev ns) (values ev' (ns.map (Node.relocated r))) := by
  induction ns with
  | nil => exact pure rfl
  | cons n ns ih => exact (value hr hev n).bind fun v => ih.bind fun vs => pure rfl

theorem test (context : String) (n : Node) :
    Moves r id (test ev context n) (test ev' context (n.relocated r)) := by
  refine (hev n).bind fun v => ?_
  cases v with
  | bool b => exact pure rfl
  | _ => exact fail hr _

theorem rounds (condition : Node) (body : List Node) (count : Nat) :
    Moves r (Value.relocated r) (rounds ev condition body count)
      (rounds ev' (condition.relocated r) (body.map (Node.relocated r)) count) := by
  induction count with
  | zero => exact throw rfl
  | succ count ih =>
    refine (test hr hev "while" condition).bind fun b => .ite Iff.rfl ?_ (pure rfl)
    exact (block hev body).bind fun v =>
      .ite (by rw [Value.relocated_isBreak]) (pure rfl) ih

theorem unary (op : String) (n : Node) :
    Moves r (Value.relocated r) (unary ev op n) (unary ev' op (n.relocated r)) :=
  (value hr hev n).bind fun v =>
    lift hr (Value.relocated_applyUnary op v) (Value.bare_applyUnary op v)

theorem binary (op : String) (left right : Node) : Moves r (Value.relocated r)
    (binary ev op left right) (binary ev' op (left.relocated r) (right.relocated r)) := by
  refine .ite Iff.rfl (fail hr _) ((value hr hev left).bind fun a => .ite Iff.rfl ?_ ?_)
  · rw [Value.relocated_variant]
    exact fail hr _
  · exact (value hr hev right).bind fun b =>
      lift hr (Value.relocated_applyBinary op a b) (Value.bare_applyBinary op a b)

theorem index (collection position : Node) : Moves r (Value.relocated r)
    (index ev collection position)
    (index ev' (collection.relocated r) (position.relocated r)) :=
  (value hr hev collection).bind fun v =>
    (lift hr (Value.relocated_toItems _ v) (Value.bare_toItems _ v)).bind fun items =>
      (value hr hev position).bind fun w =>
        (lift hr (Value.strip_toIndex w) (Value.bare_toIndex w)).bind fun i =>
          lift hr (Value.relocated_itemAt items i) (Value.bare_itemAt items i)

omit hr hev in
theorem strip_parameterNames (r : Relocation) (ns : List Node) :
    parameterNames (ns.map (Node.relocated r)) = strip id (parameterNames ns) := by
  induction ns with
  | nil => rfl
  | cons n ns ih =>
    rw [List.map_cons, parameterNames, parameterNames, Node.relocated_name?,
      Node.relocated_shown]
    cases n.name? with
    | some x => exact Fault.strip_map ih fun _ => rfl
    | none => rfl

omit hr hev in
theorem bare_parameterNames (ns : List Node) : Bare (parameterNames ns) := by
  have h := strip_parameterNames ⟨id, id⟩ ns
  rwa [funext Node.relocated_id, List.map_id_fun'] at h

omit hev in
theorem functionValue (parameters body : Node) : Moves r (Value.relocated r)
    (functionValue parameters body)
    (functionValue (parameters.relocated r) (body.relocated r)) := by
  refine (lift hr ?_ (bare_parameterNames _)).bind fun names =>
    freshIdentity.bind fun identity => pure rfl
  rw [Node.relocated_children]
  exact strip_parameterNames r _

omit hev in
/-- The last step of binding again: the variant of the old value has to stay. -/
theorem reassign (name : String) (new old : Value) : Moves r id
    (if new.variant = old.variant then Eval.assign name new
      else Eval.fail (.mismatch (.assignment new.variant name old.variant)))
    (if (new.relocated r).variant = (old.relocated r).variant then
      Eval.assign name (new.relocated r)
      else Eval.fail
        (.mismatch (.assignment (new.relocated r).variant name (old.relocated r).variant))) := by
  rw [Value.relocated_variant, Value.relocated_variant]
  exact .ite Iff.rfl (assign hr name new) (fail hr _)

theorem declare (name : String) (n : Node) (binding : Binding) :
    Moves r id (declare ev name n binding) (declare ev' name (n.relocated r) binding) := by
  cases binding with
  | fresh => exact (value hr hev n).bind fun v => define name v
  | again =>
    exact (lookup hr name).bind fun _ => (value hr hev n).bind fun new =>
      (lookup hr name).bind fun old => reassign hr name new old
  | combine op =>
    exact (lookup hr name).bind fun _ => (value hr hev n).bind fun operand =>
      (lookup hr name).bind fun old =>
        (lift hr (Value.relocated_applyBinary op old operand)
          (Value.bare_applyBinary op old operand)).bind fun new => reassign hr name new old

omit hr hev in
theorem ofNode_relocated (kind : Node) :
    Binding.ofNode (kind.relocated r) = .ofNode kind := by
  cases kind <;> rfl

theorem declaration (target kind n : Node) : Moves r (Value.relocated r)
    (declaration ev target kind n)
    (declaration ev' (target.relocated r) (kind.relocated r) (n.relocated r)) := by
  rw [Eval.declaration, Eval.declaration, Node.relocated_name?, ofNode_relocated]
  cases target.name? with
  | none => exact fail hr _
  | some name => exact (declare hr hev name n _).bind fun _ => pure rfl

omit hev in
theorem arrayVariable (context : String) (n : Node) :
    Moves r (Prod.map id (List.map (Value.relocated r))) (arrayVariable context n)
      (arrayVariable context (n.relocated r)) := by
  rw [Eval.arrayVariable, Eval.arrayVariable, Node.relocated_name?]
  cases n.name? with
  | none => exact fail hr _
  | some name =>
    exact (lookup hr name).bind fun v =>
      (lift hr (Value.relocated_toItems context v) (Value.bare_toItems context v)).bind
        fun items => pure rfl

omit hr hev in
theorem relocated_array (vs : List Value) :
    (Value.array vs).relocated r = .array (vs.map (Value.relocated r)) :=
  congrArg Value.array (Value.allRelocated_eq_map r vs)

theorem pushItem (target item : Node) : Moves r (Value.relocated r) (pushItem ev target item)
    (pushItem ev' (target.relocated r) (item.relocated r)) := by
  refine (value hr hev item).bind fun v => (arrayVariable hr "push" target).bind fun p => ?_
  refine Moves.bind (f := id) ?_ fun _ => pure rfl
  have happended := relocated_array (r := r) (p.2 ++ [v])
  rw [List.map_append] at happended
  exact happended ▸ assign hr p.1 _

omit hev in
theorem length (target : Node) :
    Moves r (Value.relocated r) (length target) (length (target.relocated r)) :=
  (arrayVariable hr "len" target).bind fun p => pure (by rw [List.length_map]; rfl)

theorem bindArguments (xs : List String) (ns : List Node) : Moves r id
    (bindArguments ev xs ns) (bindArguments ev' xs (ns.map (Node.relocated r))) := by
  induction ns generalizing xs with
  | nil => cases xs <;> exact pure rfl
  | cons n ns ih =>
    cases xs with
    | nil => exact pure rfl
    | cons x xs => exact (value hr hev n).bind fun v => (define x v).bind fun _ => ih xs

theorem callFunction (parameters : List String) (body arguments : List Node) :
    Moves r (Value.relocated r) (callFunction ev parameters body arguments)
      (callFunction ev' parameters (body.map (Node.relocated r))
        (arguments.map (Node.relocated r))) :=
  dropBreak (inScope ((bindArguments hr hev parameters arguments).bind fun _ =>
    statements hev body .absent))

theorem call (name : String) (arguments : List Node) : Moves r (Value.relocated r)
    (call ev name arguments) (call ev' name (arguments.map (Node.relocated r))) := by
  have harity (expected : Nat) : Moves r (Value.relocated r)
      (Eval.fail (.arity name expected arguments.length))
      (Eval.fail (.arity name expected (arguments.map (Node.relocated r)).length)) := by
    rw [List.length_map]
    exact fail hr _
  refine .ite Iff.rfl ?_ (.ite Iff.rfl ?_ ((lookup? name).bind fun o => ?_))
  · match arguments with
    | [target, item] => exact pushItem hr hev target item
    | [] | [_] | _ :: _ :: _ :: _ => exact harity 2
  · match arguments with
    | [target] => exact length hr target
    | [] | _ :: _ :: _ => exact harity 1
  · match o with
    | some (.function _ parameters body) =>
      refine .ite (by rw [List.length_map]) ?_ (harity _)
      rw [Node.relocated_children]
      exact callFunction hr hev parameters body.children arguments
    | none | some (.int _) | some (.float _) | some (.string _) | some (.bool _)
    | some (.array _) | some .absent | some .breakSignal => exact fail hr _

omit hev in
theorem leaf (l : Leaf) : Moves r (Value.relocated r) (leaf l) (leaf (l.relocated r)) := by
  have hname : (l.relocated r).name? = l.name? := rfl
  rw [Eval.leaf, Eval.leaf, hname]
  cases l.name? with
  | some name => exact lookup hr name
  | none => exact fail hr _

theorem node (count : Nat) (n : Node) :
    Moves r (Value.relocated r) (node ev count n) (node ev' count (n.relocated r)) := by
  cases n with
  | leaf l => exact leaf hr l
  | bare v =>
    change Moves r _ (Eval.fail _)
      (Eval.fail (.malformed (.unknownNode (v.relocated r).text)))
    rw [Value.relocated_text]
    exact fail hr _
  | literal v _ => exact pure rfl
  | array ns _ =>
    change Moves r _ _ (Eval.values ev' (Node.allRelocated r ns) >>= fun vs =>
      Pure.pure (Value.array vs))
    rw [Node.allRelocated_eq_map]
    exact (values hr hev ns).bind fun vs => pure (relocated_array vs)
  | unary op n _ => exact unary hr hev op.text n
  | binary op left right _ => exact binary hr hev op.text left right
  | index a b _ => exact index hr hev a b
  | call f a line =>
    change Moves r _ _ (Eval.node ev' count (.call (f.relocated r) (a.relocated r) (r.line line)))
    rw [Eval.node, Eval.node, Node.relocated_name?, Node.relocated_children]
    cases f.name? with
    | some name => exact call hr hev name a.children
    | none => exact fail hr _
  | arguments _ _ | parameters _ _ | other _ _ _ => exact fail hr _
  | function a b _ => exact functionValue hr a b
  | expression n _ => exact hev n
  | print n _ =>
    refine (value hr hev n).bind fun v =>
      (lift hr (Value.strip_display? v) (Value.bare_display? v)).bind fun text => ?_
    exact (write _).bind fun _ => pure rfl
  | declaration a b c _ => exact declaration hr hev a b c
  | branch a b c _ =>
    refine (test hr hev "if" a).bind fun t => ?_
    rw [Node.relocated_children, Node.relocated_children]
    exact .ite Iff.rfl (block hev b.children) (block hev c.children)
  | loop a b _ =>
    change Moves r _ _ (Eval.rounds ev' (a.relocated r) (b.relocated r).children count)
    rw [Node.relocated_children]
    exact rounds hr hev a b.children count
  | block ns _ =>
    change Moves r _ _ (Eval.block ev' (Node.allRelocated r ns))
    rw [Node.allRelocated_eq_map]
    exact block hev ns
  | exit _ => exact pure rfl

end

end Moves

end Eval

/-- Evaluation on relocated trees and states is evaluation, relocated. -/
theorem evalNode_relocated {r : Relocation} (hr : r.Uniform) (rounds depth : Nat) (n : Node) :
    Eval.Moves r (Value.relocated r) (evalNode rounds depth n)
      (evalNode rounds depth (n.relocated r)) := by
  induction depth generalizing n with
  | zero => exact .throw rfl
  | succ depth ih =>
    rw [evalNode, evalNode, Node.relocated_line? r hr.none]
    exact .located hr _ (.node hr.none ih rounds n)

/-- Evaluation on trees and states without lines is evaluation, without the lines. -/
theorem evalNode_lineless (rounds depth : Nat) (n : Node) :
    Eval.Moves .lineless Value.lineless (evalNode rounds depth n)
      (evalNode rounds depth n.lineless) :=
  evalNode_relocated .lineless rounds depth n

end ScopeScript
