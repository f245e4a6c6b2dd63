import ScopeScript.Eval
import ScopeScript.Proofs.Node.WellFormed

/-!
# Properties that evaluation keeps

A property of computations that the basic steps have and that sequencing keeps
is a property of every rule, if the evaluator of the parts has it. Two
properties are carried along: the stronger one holds of what leaves the current
scope alone, the weaker one of whatever binds there. A new scope turns the
weaker into the stronger.
-/

namespace ScopeScript

namespace Eval

section
variable {α β : Type} {x : Eval α} {f : α → Eval β} {s t : State} {name : String} {v : Value}

theorem bind_of_ok {a : α} (h : x s = (.ok a, t)) : (x >>= f) s = f a t := by
  rw [bind_apply, h]

theorem bind_of_error {e : Fault} (h : x s = (.error e, t)) : (x >>= f) s = (.error e, t) := by
  rw [bind_apply, h]

theorem lookup_of_bound (h : s.environment.lookup? name = some v) :
    lookup name s = (.ok v, s) := by
  have hread : lookup? name s = (.ok (s.environment.lookup? name), s) := rfl
  rw [h] at hread
  exact bind_of_ok hread

theorem lookup_of_unbound (h : s.environment.lookup? name = none) :
    lookup name s = (.error (.runtime (.undefinedVariable name) none), s) := by
  have hread : lookup? name s = (.ok (s.environment.lookup? name), s) := rfl
  rw [h] at hread
  exact bind_of_ok hread

end

/-- Gives a name the value that `f` makes of its old one. -/
def rebind (name : String) (f : Value → Except Fault Value) : Eval Unit := do
  let old ← lookup name
  assign name (← lift (f old))

theorem lift_ok_bind {α β : Type} (a : α) (f : α → Eval β) : lift (.ok a) >>= f = f a := rfl

theorem rebind_apply (name : String) (f : Value → Except Fault Value) (s : State) :
    rebind name f s = match s.environment.lookup? name with
      | none => (.error (.runtime (.undefinedVariable name) none), s)
      | some old => (lift (f old) >>= assign name) s := by
  cases h : s.environment.lookup? name with
  | none => exact bind_of_error (lookup_of_unbound h)
  | some old => exact bind_of_ok (lookup_of_bound h)

theorem assign_apply (name : String) (v : Value) (s : State) :
    assign name v s = match s.environment.assign? name v with
      | some e => (.ok (), { s with environment := e })
      | none => (.error (.runtime (.undefinedVariable name) none), s) := by
  have hread : (get : Eval State) s = (.ok s, s) := rfl
  rw [assign, bind_apply, hread]
  dsimp only
  cases s.environment.assign? name v <;> rfl

/-- Gives a name the value that `f` makes of its old one, if that has the same variant. -/
def settle (name : String) (f : Value → Except Fault Value) : Eval Unit := do
  let old ← lookup name
  let new ← lift (f old)
  if new.variant = old.variant then assign name new
  else fail (.mismatch (.assignment new.variant name old.variant))

theorem settle_eq (name : String) (f : Value → Except Fault Value) :
    settle name f = rebind name fun old => f old >>= fun new =>
      if new.variant = old.variant then .ok new
      else .error (.mismatch (.assignment new.variant name old.variant)) := by
  unfold settle rebind
  congr 1
  funext old
  beta_reduce
  cases f old with
  | error e => rfl
  | ok new =>
    by_cases hv : new.variant = old.variant
    · simp only [Bind.bind, Except.bind, if_pos hv]
      exact if_pos hv
    · simp only [Bind.bind, Except.bind, if_neg hv]
      exact if_neg hv

/-- The steps of evaluation that neither open a scope nor bind a new name. -/
structure Stable (R : ∀ α : Type, Eval α → Prop) : Prop where
  lift {α : Type} (r : Except Fault α) : R α (lift r)
  bind {α β : Type} {x : Eval α} {f : α → Eval β} : R α x → (∀ a, R β (f a)) → R β (x >>= f)
  located {α : Type} (line : Option Nat) {x : Eval α} : R α x → R α (located line x)
  lookup? (name : String) : R _ (lookup? name)
  write (text : String) : R _ (write text)
  freshIdentity : R _ freshIdentity
  rebind (name : String) {f : Value → Except Fault Value} :
    (∀ old new, f old = .ok new → new.variant = old.variant) → R _ (rebind name f)

/-- `P` holds of computations that leave the current scope alone, `Q` of all. -/
structure Scoped (P Q : ∀ α : Type, Eval α → Prop) : Prop where
  inner : Stable P
  outer : Stable Q
  weaken {α : Type} {x : Eval α} : P α x → Q α x
  define (name : String) (v : Value) : Q _ (define name v)
  inScope {α : Type} {x : Eval α} : Q α x → P α (inScope x)

section
variable {R : ∀ α : Type, Eval α → Prop} {ev : Node → Eval Value} (h : Stable R)
include h

namespace Stable

theorem pure {α : Type} (a : α) : R α (Pure.pure a) := h.lift (.ok a)

theorem throw {α : Type} (f : Fault) : R α (MonadExcept.throw f) := h.lift (.error f)

theorem fail {α : Type} (cause : RuntimeCause) : R α (fail cause) := h.throw _

theorem lookup (name : String) : R _ (Eval.lookup name) := by
  apply h.bind (h.lookup? name)
  intro v
  cases v with
  | none => exact h.fail _
  | some v => exact h.pure v

theorem value {n : Node} (hn : R _ (ev n)) : R _ (value ev n) := by
  apply h.bind hn
  intro v
  split
  · exact h.pure v
  · exact h.throw _

theorem values {ns : List Node} (hns : ∀ n ∈ ns, R _ (ev n)) : R _ (values ev ns) := by
  induction ns with
  | nil => exact h.pure []
  | cons n ns ih =>
    obtain ⟨hn, hns⟩ := List.forall_mem_cons.mp hns
    exact h.bind (h.value hn) fun v => h.bind (ih hns) fun vs => h.pure (v :: vs)

theorem test {n : Node} (context : String) (hn : R _ (ev n)) : R _ (test ev context n) := by
  apply h.bind hn
  intro v
  cases v with
  | bool b => exact h.pure b
  | _ => exact h.fail _

theorem unary {n : Node} (op : String) (hn : R _ (ev n)) : R _ (unary ev op n) :=
  h.bind (h.value hn) fun _ => h.lift _

theorem binary {l r : Node} (op : String) (hl : R _ (ev l)) (hr : R _ (ev r)) :
    R _ (binary ev op l r) := by
  unfold Eval.binary
  split
  · exact h.fail _
  · apply h.bind (h.value hl)
    intro a
    split
    · exact h.fail _
    · exact h.bind (h.value hr) fun b => h.lift _

theorem index {a b : Node} (ha : R _ (ev a)) (hb : R _ (ev b)) : R _ (index ev a b) :=
  h.bind (h.value ha) fun _ => h.bind (h.lift _) fun _ =>
    h.bind (h.value hb) fun _ => h.bind (h.lift _) fun _ => h.lift _

theorem functionValue (a b : Node) : R _ (functionValue a b) :=
  h.bind (h.lift _) fun _ => h.bind h.freshIdentity fun _ => h.pure _

theorem leaf (l : Leaf) : R _ (leaf l) := by
  unfold Eval.leaf
  split
  · exact h.lookup _
  · exact h.fail _

theorem arrayVariable (context : String) (n : Node) : R _ (arrayVariable context n) := by
  unfold Eval.arrayVariable
  split
  · exact h.fail _
  · exact h.bind (h.lookup _) fun v => h.bind (h.lift _) fun items => h.pure _

theorem length (target : Node) : R _ (length target) :=
  h.bind (h.arrayVariable _ _) fun _ => h.pure _

theorem statements {ns : List Node} (hns : ∀ n ∈ ns, R _ (ev n)) (last : Value) :
    R _ (statements ev ns last) := by
  induction ns generalizing last with
  | nil => exact h.pure last
  | cons n ns ih =>
    obtain ⟨hn, hns⟩ := List.forall_mem_cons.mp hns
    apply h.bind hn
    intro v
    split
    · exact h.pure v
    · exact ih hns v

theorem program {ns : List Node} (hns : ∀ n ∈ ns, R _ (ev n)) : R _ (program ev ns) :=
  h.bind (h.statements hns _) fun _ => h.pure _

/-! ### Binding again -/

theorem settle (name : String) (f : Value → Except Fault Value) : R _ (settle name f) := by
  rw [settle_eq]
  apply h.rebind name
  intro old new hnew
  obtain ⟨w, -, hw⟩ := Fault.bind_eq_ok_iff.mp hnew
  split at hw
  next hv =>
    cases hw
    exact hv
  next => cases hw

theorem declare_again {n : Node} (name : String) (hn : R _ (ev n)) :
    R _ (declare ev name n .again) :=
  h.bind (h.lookup name) fun _ => h.bind (h.value hn) fun new => h.settle name fun _ => .ok new

theorem declare_combine {n : Node} (name op : String) (hn : R _ (ev n)) :
    R _ (declare ev name n (.combine op)) :=
  h.bind (h.lookup name) fun _ => h.bind (h.value hn) fun operand =>
    h.settle name fun old => old.applyBinary op operand

theorem pushItem {target item : Node} (hitem : R _ (ev item)) :
    R _ (pushItem ev target item) := by
  apply h.bind (h.value hitem)
  intro v
  unfold Eval.arrayVariable
  split
  · exact h.fail _
  next name _ =>
    have happend : R _ (Eval.rebind name fun old =>
        (old.toItems "push").map fun items => .array (items ++ [v])) := by
      apply h.rebind name
      intro old new hnew
      obtain ⟨items, hitems, rfl⟩ := Fault.map_eq_ok_iff.mp hnew
      cases old with
      | array _ => rfl
      | _ => cases hitems
    have hform : ((Eval.lookup name >>= fun old => Eval.lift (old.toItems "push") >>=
        fun items => Pure.pure (name, items)) >>= fun p : String × List Value =>
          assign p.1 (.array (p.2 ++ [v])) >>= fun _ => Pure.pure v) =
        (Eval.rebind name fun old => (old.toItems "push").map fun items =>
          .array (items ++ [v])) >>= fun _ => Pure.pure v := by
      unfold Eval.rebind
      simp only [bind_assoc]
      congr 1
      funext old
      cases old.toItems "push" <;> rfl
    exact hform ▸ h.bind happend fun _ => h.pure v

end Stable

end

namespace Scoped

variable {P Q R : ∀ α : Type, Eval α → Prop} {ev : Node → Eval Value} (h : Scoped P Q)
include h

theorem block {ns : List Node} (hns : ∀ n ∈ ns, Q _ (ev n)) : P _ (block ev ns) :=
  h.inScope (h.outer.statements hns _)

theorem bindArguments {ns : List Node} (xs : List String) (hns : ∀ n ∈ ns, Q _ (ev n)) :
    Q _ (bindArguments ev xs ns) := by
  induction ns generalizing xs with
  | nil => cases xs <;> exact h.outer.pure ()
  | cons n ns ih =>
    obtain ⟨hn, hns⟩ := List.forall_mem_cons.mp hns
    cases xs with
    | nil => exact h.outer.pure ()
    | cons x xs =>
      exact h.outer.bind (h.outer.value hn) fun v =>
        h.outer.bind (h.define x v) fun _ => ih xs hns

theorem callFunction {body ns : List Node} (xs : List String)
    (hbody : ∀ n ∈ body, Q _ (ev n)) (hns : ∀ n ∈ ns, Q _ (ev n)) :
    P _ (callFunction ev xs body ns) :=
  h.inner.bind (h.inScope (h.outer.bind (h.bindArguments xs hns) fun _ =>
    h.outer.statements hbody _)) fun _ => h.inner.pure _

/-- A call leaves the current scope alone if its arguments do. The bodies of functions are
any trees. -/
theorem call {ns : List Node} (name : String) (hall : ∀ n, Q _ (ev n))
    (hns : ∀ n ∈ ns, P _ (ev n)) : P _ (call ev name ns) := by
  unfold Eval.call
  split
  · split
    next target item =>
      exact h.inner.pushItem (hns item (List.mem_cons_of_mem _ (List.mem_singleton_self _)))
    next => exact h.inner.fail _
  split
  · split
    next target => exact h.inner.length target
    next => exact h.inner.fail _
  · apply h.inner.bind (h.inner.lookup? name)
    intro v
    split
    · split
      · exact h.callFunction _ (fun n _ => hall n) fun n _ => hall n
      · exact h.inner.fail _
    · exact h.inner.fail _

/-- Whatever a property holds of leaves the current scope alone. -/
theorem self : Scoped Q Q where
  inner := h.outer
  outer := h.outer
  weaken hx := hx
  define := h.define
  inScope hx := h.weaken (h.inScope hx)

theorem declaration {target kind n : Node} (hn : Q _ (ev n)) :
    Q _ (declaration ev target kind n) := by
  unfold Eval.declaration
  split
  · exact h.outer.fail _
  next name _ =>
    refine h.outer.bind ?_ fun _ => h.outer.pure _
    cases Binding.ofNode kind with
    | fresh => exact h.outer.bind (h.outer.value hn) fun v => h.define name v
    | again => exact h.outer.declare_again name hn
    | combine op => exact h.outer.declare_combine name op hn

theorem rounds {a : Node} {body : List Node} (ha : Q _ (ev a)) (hbody : ∀ n ∈ body, Q _ (ev n))
    (count : Nat) : Q _ (rounds ev a body count) := by
  induction count with
  | zero => exact h.outer.throw _
  | succ count ih =>
    apply h.outer.bind (h.outer.test _ ha)
    intro b
    split
    · apply h.outer.bind (h.weaken (h.block hbody))
      intro v
      split
      · exact h.outer.pure _
      · exact ih
    · exact h.outer.pure _

/-! ## Nodes -/

theorem node (count : Nat) (hall : ∀ n, Q _ (ev n)) (n : Node) : Q _ (node ev count n) := by
  cases n with
  | leaf l => exact h.outer.leaf l
  | bare v => exact h.outer.fail _
  | literal v _ => exact h.outer.pure v
  | array ns _ => exact h.outer.bind (h.outer.values fun n _ => hall n) fun _ => h.outer.pure _
  | unary op n _ => exact h.outer.unary _ (hall n)
  | binary op a b _ => exact h.outer.binary _ (hall a) (hall b)
  | index a b _ => exact h.outer.index (hall a) (hall b)
  | call f a _ =>
    rw [Eval.node]
    split
    · exact h.self.call _ hall fun n _ => hall n
    · exact h.outer.fail _
  | arguments _ _ | parameters _ _ | other _ _ _ => exact h.outer.fail _
  | function a b _ => exact h.outer.functionValue a b
  | expression n _ => exact hall n
  | print n _ =>
    exact h.outer.bind (h.outer.value (hall n)) fun _ => h.outer.bind (h.outer.lift _) fun _ =>
      h.outer.bind (h.outer.write _) fun _ => h.outer.pure _
  | declaration a b c _ => exact h.declaration (hall c)
  | branch a b c _ =>
    apply h.outer.bind (h.outer.test _ (hall a))
    intro t
    split
    · exact h.weaken (h.block fun n _ => hall n)
    · exact h.weaken (h.block fun n _ => hall n)
  | loop a b _ => exact h.rounds (hall a) (fun n _ => hall n) count
  | block ns _ => exact h.weaken (h.block fun n _ => hall n)
  | exit _ => exact h.outer.pure _

variable {F : Binary64 → Prop}

theorem node_expression (count : Nat) (hall : ∀ n, Q _ (ev n))
    (hexpression : ∀ n, n.WellFormed F .expression → P _ (ev n)) {n : Node}
    (hn : n.WellFormed F .expression) : P _ (Eval.node ev count n) := by
  cases hn with
  | int _ | float _ | string | bool => exact h.inner.pure _
  | @name l _ => exact h.inner.leaf l
  | unary _ _ ha => exact h.inner.unary _ (hexpression _ ha)
  | binary _ _ ha hb => exact h.inner.binary _ (hexpression _ ha) (hexpression _ hb)
  | index ha hb => exact h.inner.index (hexpression _ ha) (hexpression _ hb)
  | call _ hns =>
    rw [Eval.node]
    split
    · exact h.call _ hall fun n hn => hexpression n (hns n hn)
    · exact h.inner.fail _
  | array hns =>
    exact h.inner.bind (h.inner.values fun n hn => hexpression n (hns n hn)) fun _ =>
      h.inner.pure _
  | function _ _ => exact h.inner.functionValue _ _

theorem evalNode (count depth : Nat) (n : Node) : Q _ (evalNode count depth n) := by
  induction depth generalizing n with
  | zero => exact h.outer.throw _
  | succ depth ih => exact h.outer.located _ (h.node count ih n)

theorem evalNode_expression (count depth : Nat) {n : Node} (hn : n.WellFormed F .expression) :
    P _ (ScopeScript.evalNode count depth n) := by
  induction depth generalizing n with
  | zero => exact h.inner.throw _
  | succ depth ih =>
    exact h.inner.located _ (h.node_expression count (h.evalNode count depth) (fun n => ih) hn)

end Scoped

end Eval

end ScopeScript
