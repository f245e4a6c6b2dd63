import ScopeScript.Program
import ScopeScript.Proofs.Environment.Difference
import ScopeScript.Proofs.Eval.Break

/-!
# Names that nothing mentions

A name that neither the tree nor a function in reach mentions is neither read
nor written. Two runs on states that differ in one binding of the name keep
step: they end in the same way and keep that difference and no other. What
carries this is that evaluation makes no value that mentions the name.
-/

namespace ScopeScript

namespace State

/-- No value that a name other than `x` stands for, in any scope, mentions `x`. -/
def Omits (x : String) (s : State) : Prop :=
  Environment.AllBound (Value.Omits x) (s.environment.stack.map (Scope.without x))

/-- The states are the same, but for what `x` is bound to in the scope with `k` scopes further
in: to `v` in the first one and to `w` in the second one, if to anything. -/
structure Differ (x : String) (v w : Option Value) (k : Nat) (s t : State) : Prop where
  output : s.output = t.output
  supply : s.supply = t.supply
  stack : Environment.Differ x v w k s.environment.stack t.environment.stack

variable {x : String} {v w : Option Value} {k : Nat} {s t : State}

theorem Omits.push (h : s.Omits x) : s.push.Omits x :=
  List.forall_mem_cons.mpr ⟨List.forall_mem_nil _, h⟩

theorem Differ.push (h : Differ x v w k s t) : Differ x v w (k + 1) s.push t.push :=
  ⟨h.output, h.supply, .further h.stack⟩

/-- The scope that was opened is there to be dropped, in both states. -/
theorem Differ.dropped (h : Differ x v w (k + 1) s t) (homits : s.Omits x) :
    Differ x v w k (s.dropped 1) (t.dropped 1) ∧ (s.dropped 1).Omits x := by
  have hstack := h.stack
  obtain ⟨⟨scope, outer⟩, output, supply⟩ := s
  obtain ⟨⟨scope', outer'⟩, output', supply'⟩ := t
  cases hstack with
  | further hrest =>
    cases outer with
    | nil => exact absurd rfl hrest.ne_nil.1
    | cons s ss =>
      cases outer' with
      | nil => exact absurd rfl hrest.ne_nil.2
      | cons t ts => exact ⟨⟨h.output, h.supply, hrest⟩, (List.forall_mem_cons.mp homits).2⟩

end State

namespace Eval

variable {α β : Type} {x : String} {mid : α → Prop} {post : β → Prop} {c c' : Eval α}

/-- On states that differ in one binding of `x` the computation ends in the same way and leaves
them with that difference; its result has a property. -/
def Ignores (x : String) (mid : α → Prop) (c : Eval α) : Prop :=
  ∀ ⦃v w k s t⦄, State.Differ x v w k s t → s.Omits x → ∃ r s' t', c s = (r, s') ∧
    c t = (r, t') ∧ State.Differ x v w k s' t' ∧ s'.Omits x ∧ ∀ a, r = .ok a → mid a

theorem omits_of_parameterNames {ns : List Node} {names : List String}
    (hns : ∀ n ∈ ns, n.Omits x) (h : parameterNames ns = .ok names) : x ∉ names := by
  induction ns generalizing names with
  | nil =>
    cases h
    exact List.not_mem_nil
  | cons n ns ih =>
    obtain ⟨hn, hns⟩ := List.forall_mem_cons.mp hns
    rw [parameterNames] at h
    cases hname : n.name? with
    | none =>
      rw [hname] at h
      cases h
    | some name =>
      rw [hname] at h
      obtain ⟨rest, hrest, rfl⟩ := Fault.map_eq_ok_iff.mp h
      exact List.not_mem_cons_of_ne_of_not_mem (hn.name_ne hname).symm (ih hns hrest)

namespace Ignores

theorem lift {r : Except Fault α} (h : ∀ a, r = .ok a → mid a) : Ignores x mid (lift r) :=
  fun _ _ _ s t hdiffer homits => ⟨r, s, t, rfl, rfl, hdiffer, homits, h⟩

theorem liftAny (r : Except Fault α) : Ignores x (fun _ => True) (Eval.lift r) :=
  lift fun _ _ => trivial

theorem pure {a : α} (h : mid a) : Ignores x mid (Pure.pure a) :=
  lift fun _ ha => Except.ok.inj ha ▸ h

theorem throw (f : Fault) : Ignores x mid (MonadExcept.throw f : Eval α) := lift nofun

theorem fail (cause : RuntimeCause) : Ignores x mid (fail cause : Eval α) := throw _

theorem bind {g : α → Eval β} (hc : Ignores x mid c) (hg : ∀ a, mid a → Ignores x post (g a)) :
    Ignores x post (c >>= g) := by
  intro v w k s t hdiffer homits
  obtain ⟨r, s', t', hs, ht, hdiffer, homits, hmid⟩ := hc hdiffer homits
  rw [bind_apply, bind_apply, hs, ht]
  cases r with
  | error f => exact ⟨_, s', t', rfl, rfl, hdiffer, homits, nofun⟩
  | ok a => exact hg a (hmid a rfl) hdiffer homits

theorem weaken {mid' : α → Prop} (hc : Ignores x mid c) (h : ∀ a, mid a → mid' a) :
    Ignores x mid' c := by
  intro v w k s t hdiffer homits
  obtain ⟨r, s', t', hs, ht, hdiffer, homits, hmid⟩ := hc hdiffer homits
  exact ⟨r, s', t', hs, ht, hdiffer, homits, fun a ha => h a (hmid a ha)⟩

theorem ite {p : Prop} [Decidable p] (hc : p → Ignores x mid c) (hc' : ¬p → Ignores x mid c') :
    Ignores x mid (if p then c else c') := by
  split
  next hp => exact hc hp
  next hp => exact hc' hp

theorem located (line : Option Nat) (hc : Ignores x mid c) : Ignores x mid (located line c) := by
  intro v w k s t hdiffer homits
  obtain ⟨r, s', t', hs, ht, hdiffer, homits, hmid⟩ := hc hdiffer homits
  rw [Eval.located, Eval.located, hs, ht]
  cases r with
  | error f => exact ⟨_, s', t', rfl, rfl, hdiffer, homits, fun a ha => by cases ha⟩
  | ok a => exact ⟨_, s', t', rfl, rfl, hdiffer, homits, hmid⟩

theorem inScope (hc : Ignores x mid c) : Ignores x mid (inScope c) := by
  intro v w k s t hdiffer homits
  obtain ⟨r, s', t', hs, ht, hdiffer, homits, hmid⟩ := hc hdiffer.push homits.push
  obtain ⟨hdiffer, homits⟩ := hdiffer.dropped homits
  refine ⟨r, s'.dropped 1, t'.dropped 1, ?_, ?_, hdiffer, homits, hmid⟩
  · rw [inScope_apply, hs]
  · rw [inScope_apply, ht]

/-! ### Names -/

section
variable {name : String} (hname : name ≠ x)
include hname

theorem lookup? : Ignores x (fun o => ∀ v, o = some v → v.Omits x) (lookup? name) := by
  intro v w k s t hdiffer homits
  refine ⟨.ok (s.environment.lookup? name), s, t, rfl, ?_, hdiffer, homits, ?_⟩
  · exact congrArg (fun o => (Except.ok o, t)) (hdiffer.stack.visible hname).symm
  · rintro _ ⟨⟩ u hu
    exact homits.visible ((Environment.visible_without hname _).trans hu)

theorem lookup : Ignores x (Value.Omits x) (lookup name) := by
  refine (lookup? hname).bind fun o ho => ?_
  cases o with
  | none => exact .fail _
  | some v => exact .pure (ho v rfl)

theorem define {u : Value} (hu : u.Omits x) : Ignores x (fun _ => True) (define name u) := by
  intro v w k s t hdiffer homits
  refine ⟨.ok (), _, _, rfl, rfl, ⟨hdiffer.output, hdiffer.supply, hdiffer.stack.put hname u⟩, ?_,
    fun _ _ => trivial⟩
  obtain ⟨hinnermost, houter⟩ := List.forall_mem_cons.mp homits
  refine List.forall_mem_cons.mpr ⟨?_, houter⟩
  change ∀ b ∈ (s.environment.innermost.put name u).without x, b.2.Omits x
  rw [Scope.without_put hname]
  exact Environment.all_put hinnermost hu

theorem assign {u : Value} (hu : u.Omits x) : Ignores x (fun _ => True) (assign name u) := by
  intro v w k s t hdiffer homits
  rw [assign_apply, assign_apply]
  rcases hdiffer.stack.assignIn hname u with ⟨hs, ht⟩ | ⟨ss, ts, hs, ht, hstack⟩
  · rw [Environment.assign?_of_eq_none hs, Environment.assign?_of_eq_none ht]
    exact ⟨_, s, t, rfl, rfl, hdiffer, homits, nofun⟩
  · obtain ⟨e, he, rfl⟩ := Environment.assign?_of_eq_some hs
    obtain ⟨e', he', rfl⟩ := Environment.assign?_of_eq_some ht
    rw [he, he']
    refine ⟨_, _, _, rfl, rfl, ⟨hdiffer.output, hdiffer.supply, hstack⟩, ?_, fun _ _ => trivial⟩
    have hwithout := Environment.assignIn_without hname u s.environment.stack
    rw [hs] at hwithout
    exact homits.assignIn hu hwithout

end

theorem write (text : String) : Ignores x (fun _ => True) (write text) := by
  intro v w k s t hdiffer homits
  have houtput := congrArg (· ++ text) hdiffer.output
  exact ⟨_, _, _, rfl, rfl, ⟨houtput, hdiffer.supply, hdiffer.stack⟩, homits, fun _ _ => trivial⟩

theorem freshIdentity : Ignores x (fun _ => True) freshIdentity := by
  intro v w k s t hdiffer homits
  have hsupply := congrArg (· + 1) hdiffer.supply
  have hread : Eval.freshIdentity t = (.ok s.supply, { t with supply := t.supply + 1 }) := by
    rw [hdiffer.supply]
    rfl
  exact ⟨_, _, _, rfl, hread, ⟨hdiffer.output, hsupply, hdiffer.stack⟩, homits,
    fun _ _ => trivial⟩

/-! ## Rules -/

section
variable {ev : Node → Eval Value} (hev : ∀ n, n.Omits x → Ignores x (Value.Omits x) (ev n))
  {n : Node} {ns : List Node}
include hev

theorem value (hn : n.Omits x) : Ignores x (Value.Omits x) (value ev n) :=
  (hev n hn).bind fun _ hv => .ite (fun _ => .pure hv) fun _ => .throw _

theorem values (hns : ∀ n ∈ ns, n.Omits x) :
    Ignores x (fun vs => ∀ v ∈ vs, v.Omits x) (values ev ns) := by
  induction ns with
  | nil => exact .pure (List.forall_mem_nil _)
  | cons n ns ih =>
    obtain ⟨hn, hns⟩ := List.forall_mem_cons.mp hns
    exact (value hev hn).bind fun v hv => (ih hns).bind fun vs hvs =>
      .pure (List.forall_mem_cons.mpr ⟨hv, hvs⟩)

theorem test (context : String) (hn : n.Omits x) :
    Ignores x (fun _ => True) (test ev context n) := by
  refine (hev n hn).bind fun v _ => ?_
  cases v with
  | bool b => exact .pure trivial
  | _ => exact .fail _

theorem statements (hns : ∀ n ∈ ns, n.Omits x) {last : Value} (hlast : last.Omits x) :
    Ignores x (Value.Omits x) (statements ev ns last) := by
  induction ns generalizing last with
  | nil => exact .pure hlast
  | cons n ns ih =>
    obtain ⟨hn, hns⟩ := List.forall_mem_cons.mp hns
    exact (hev n hn).bind fun v hv => .ite (fun _ => .pure hv) fun _ => ih hns hv

theorem block (hns : ∀ n ∈ ns, n.Omits x) : Ignores x (Value.Omits x) (block ev ns) :=
  (statements hev hns Value.omits_absent).inScope

omit hev in
/-- A break signal is dropped wherever it comes from. -/
theorem dropBreak {c : Eval Value} (hc : Ignores x (Value.Omits x) c) :
    Ignores x (Value.Omits x) (do
      let v ← c
      return if v.isBreak then .absent else v) :=
  hc.bind fun v hv => .pure (by split; exacts [rfl, hv])

theorem program (hns : ∀ n ∈ ns, n.Omits x) : Ignores x (Value.Omits x) (program ev ns) :=
  dropBreak (statements hev hns Value.omits_absent)

theorem rounds {condition : Node} (hcondition : condition.Omits x) (hns : ∀ n ∈ ns, n.Omits x)
    (count : Nat) : Ignores x (Value.Omits x) (rounds ev condition ns count) := by
  induction count with
  | zero => exact .throw _
  | succ count ih =>
    refine (test hev "while" hcondition).bind fun b _ => .ite (fun _ => ?_) fun _ => .pure rfl
    exact (block hev hns).bind fun v _ => .ite (fun _ => .pure rfl) fun _ => ih

theorem unary (op : String) (hn : n.Omits x) : Ignores x (Value.Omits x) (unary ev op n) :=
  (value hev hn).bind fun _ _ => .lift fun _ h => (Value.scalar_of_applyUnary h).omits

theorem binary (op : String) {l r : Node} (hl : l.Omits x) (hr : r.Omits x) :
    Ignores x (Value.Omits x) (binary ev op l r) := by
  refine .ite (fun _ => .fail _) fun _ => (value hev hl).bind fun a _ => ?_
  refine .ite (fun _ => .fail _) fun _ => (value hev hr).bind fun b _ => ?_
  exact .lift fun _ h => (Value.scalar_of_applyBinary h).omits

theorem index {a b : Node} (ha : a.Omits x) (hb : b.Omits x) :
    Ignores x (Value.Omits x) (index ev a b) := by
  refine (value hev ha).bind fun v hv => ?_
  refine (lift fun items => Value.omits_of_toItems hv).bind fun items hitems => ?_
  refine (value hev hb).bind fun w _ => ?_
  exact (liftAny _).bind fun i _ =>
    .lift fun _ => Value.omits_of_itemAt hitems

omit hev in
theorem functionValue {a b : Node} (ha : a.Omits x) (hb : b.Omits x) :
    Ignores x (Value.Omits x) (functionValue a b) := by
  refine (lift fun names => omits_of_parameterNames ha.child).bind fun names hnames => ?_
  exact freshIdentity.bind fun _ _ => .pure (Value.omits_function.mpr ⟨hnames, hb⟩)

/-! ### Bindings -/

omit hev in
/-- Binding again: the value that is made of the old one mentions no new name. -/
theorem settle {name : String} (hname : name ≠ x) {f : Value → Except Fault Value}
    (hf : ∀ old new, f old = .ok new → new.Omits x) :
    Ignores x (fun _ => True) (settle name f) :=
  (lookup hname).bind fun old _ => (lift (hf old)).bind fun _ hnew =>
    .ite (fun _ => assign hname hnew) fun _ => .fail _

theorem declare {name : String} (hname : name ≠ x) (hn : n.Omits x) (binding : Binding) :
    Ignores x (fun _ => True) (declare ev name n binding) := by
  cases binding with
  | fresh => exact (value hev hn).bind fun _ hv => define hname hv
  | again =>
    exact (lookup hname).bind fun _ _ => (value hev hn).bind fun new hnew =>
      settle hname fun _ _ h => Except.ok.inj h ▸ hnew
  | combine op =>
    exact (lookup hname).bind fun _ _ => (value hev hn).bind fun operand _ =>
      settle hname fun _ _ h => (Value.scalar_of_applyBinary h).omits

theorem declaration {target : Node} (kind : Node) (htarget : target.Omits x) (hn : n.Omits x) :
    Ignores x (Value.Omits x) (declaration ev target kind n) := by
  unfold Eval.declaration
  split
  next => exact .fail _
  next name hname =>
    exact (declare hev (htarget.name_ne hname) hn _).bind fun _ _ => .pure rfl

omit hev in
theorem arrayVariable (context : String) (hn : n.Omits x) :
    Ignores x (fun p => p.1 ≠ x ∧ ∀ v ∈ p.2, v.Omits x) (arrayVariable context n) := by
  unfold Eval.arrayVariable
  split
  next => exact .fail _
  next name hname =>
    have hne := hn.name_ne hname
    exact (lookup hne).bind fun v hv => (lift fun items => Value.omits_of_toItems hv).bind
      fun items hitems => .pure ⟨hne, hitems⟩

theorem pushItem {target item : Node} (htarget : target.Omits x) (hitem : item.Omits x) :
    Ignores x (Value.Omits x) (pushItem ev target item) := by
  refine (value hev hitem).bind fun v hv => ?_
  refine (arrayVariable "push" htarget).bind fun p ⟨hname, hitems⟩ => ?_
  have happended := List.forall_mem_append.mpr ⟨hitems, List.forall_mem_singleton.mpr hv⟩
  exact (assign hname (Value.omits_array.mpr happended)).bind fun _ _ => .pure hv

omit hev in
theorem length {target : Node} (htarget : target.Omits x) :
    Ignores x (Value.Omits x) (length target) :=
  (arrayVariable "len" htarget).bind fun _ _ => .pure rfl

/-! ### Calls -/

theorem bindArguments {xs : List String} (hxs : x ∉ xs) (hns : ∀ n ∈ ns, n.Omits x) :
    Ignores x (fun _ => True) (bindArguments ev xs ns) := by
  induction ns generalizing xs with
  | nil => cases xs <;> exact .pure trivial
  | cons n ns ih =>
    obtain ⟨hn, hns⟩ := List.forall_mem_cons.mp hns
    cases xs with
    | nil => exact .pure trivial
    | cons y xs =>
      have hy : y ≠ x := fun h => hxs (h ▸ List.mem_cons_self ..)
      exact (value hev hn).bind fun v hv => (define hy hv).bind fun _ _ =>
        ih (fun h => hxs (List.mem_cons_of_mem y h)) hns

theorem callFunction {xs : List String} {body : List Node} (hxs : x ∉ xs)
    (hbody : ∀ n ∈ body, n.Omits x) (hns : ∀ n ∈ ns, n.Omits x) :
    Ignores x (Value.Omits x) (callFunction ev xs body ns) :=
  dropBreak ((bindArguments hev hxs hns).bind fun _ _ => statements hev hbody Value.omits_absent).inScope

theorem call {name : String} (hname : name ≠ x) (hns : ∀ n ∈ ns, n.Omits x) :
    Ignores x (Value.Omits x) (call ev name ns) := by
  refine .ite (fun _ => ?_) fun _ => .ite (fun _ => ?_) fun _ => ?_
  · split
    next target item =>
      obtain ⟨htarget, hns⟩ := List.forall_mem_cons.mp hns
      exact pushItem hev htarget (List.forall_mem_singleton.mp hns)
    next => exact .fail _
  · split
    next target => exact length (List.forall_mem_singleton.mp hns)
    next => exact .fail _
  · refine (lookup? hname).bind fun o ho => ?_
    split
    next parameters body =>
      obtain ⟨hparameters, hbody⟩ := Value.omits_function.mp (ho _ rfl)
      exact .ite (fun _ => callFunction hev hparameters hbody.child hns) fun _ => .fail _
    next => exact .fail _

/-! ### Nodes -/

theorem node (count : Nat) (hn : n.Omits x) : Ignores x (Value.Omits x) (node ev count n) := by
  cases n with
  | leaf l =>
    rw [Eval.node, Eval.leaf]
    split
    next name hname => exact lookup (hn.name_ne hname)
    next => exact .fail _
  | bare _ | arguments _ _ | parameters _ _ | other _ _ _ => exact .fail _
  | literal v _ => exact .pure hn
  | array ns _ =>
    exact (values hev hn.child).bind fun _ hvs => .pure (Value.omits_array.mpr hvs)
  | unary op n _ =>
    obtain ⟨-, hn⟩ : _ ∧ n.Omits x := by simpa [Node.children] using hn.child
    exact unary hev op.text hn
  | binary op l r _ =>
    obtain ⟨-, hl, hr⟩ : _ ∧ l.Omits x ∧ r.Omits x := by simpa [Node.children] using hn.child
    exact binary hev op.text hl hr
  | index a b _ =>
    obtain ⟨ha, hb⟩ : a.Omits x ∧ b.Omits x := by simpa [Node.children] using hn.child
    exact index hev ha hb
  | call f a _ =>
    obtain ⟨hf, ha⟩ : f.Omits x ∧ a.Omits x := by simpa [Node.children] using hn.child
    rw [Eval.node]
    split
    next name hname => exact call hev (hf.name_ne hname) ha.child
    next => exact .fail _
  | function a b _ =>
    obtain ⟨ha, hb⟩ : a.Omits x ∧ b.Omits x := by simpa [Node.children] using hn.child
    exact functionValue ha hb
  | expression n _ =>
    exact hev n (by simpa [Node.children] using hn.child)
  | print n _ =>
    refine (value hev (by simpa [Node.children] using hn.child)).bind fun v _ => ?_
    exact (liftAny _).bind fun text _ =>
      (write _).bind fun _ _ => .pure rfl
  | declaration a b c _ =>
    obtain ⟨ha, -, hc⟩ : a.Omits x ∧ b.Omits x ∧ c.Omits x := by
      simpa [Node.children] using hn.child
    exact declaration hev b ha hc
  | branch a b c _ =>
    obtain ⟨ha, hb, hc⟩ : a.Omits x ∧ b.Omits x ∧ c.Omits x := by
      simpa [Node.children] using hn.child
    exact (test hev "if" ha).bind fun _ _ =>
      .ite (fun _ => block hev hb.child) fun _ => block hev hc.child
  | loop a b _ =>
    obtain ⟨ha, hb⟩ : a.Omits x ∧ b.Omits x := by simpa [Node.children] using hn.child
    exact rounds hev ha hb.child count
  | block ns _ => exact block hev hn.child
  | exit _ => exact .pure rfl

end

theorem evalNode {n : Node} (rounds depth : Nat) (hn : n.Omits x) :
    Ignores x (Value.Omits x) (evalNode rounds depth n) := by
  induction depth generalizing n with
  | zero => exact .throw _
  | succ depth ih => exact (node (fun _ => ih) rounds hn).located n.line?

theorem execute {p : Node} (limits : Limits) (hp : p.Omits x) :
    Ignores x (Value.Omits x) (execute limits p) :=
  program (fun _ => evalNode limits.rounds limits.depth) hp.child

theorem same (hc : Ignores x mid c) {v w : Option Value} {k : Nat} {s t : State}
    (hdiffer : State.Differ x v w k s t) (homits : s.Omits x) :
    (c s).1 = (c t).1 ∧ State.Differ x v w k (c s).2 (c t).2 ∧ (c s).2.Omits x := by
  obtain ⟨r, s', t', hs, ht, hdiffer, homits, -⟩ := hc hdiffer homits
  rw [hs, ht]
  exact ⟨rfl, hdiffer, homits⟩

end Ignores

end Eval

/-- A name that neither the tree nor any function that other names stand for mentions is neither
read nor written: if two states differ in one binding of it, which one of them may lack, a node
or a program ends in the same way on both and leaves them with that difference, in output and
bindings, and with functions that do not mention the name. -/
theorem unmentioned_names_neither_read_nor_written :
    (∀ rounds depth (n : Node) x v w k (s t : State), n.Omits x → s.Omits x →
      State.Differ x v w k s t →
      (evalNode rounds depth n s).1 = (evalNode rounds depth n t).1 ∧
      State.Differ x v w k (evalNode rounds depth n s).2 (evalNode rounds depth n t).2 ∧
      (evalNode rounds depth n s).2.Omits x) ∧
    ∀ limits (p : Node) x v w k (s t : State), p.Omits x → s.Omits x →
      State.Differ x v w k s t →
      (execute limits p s).1 = (execute limits p t).1 ∧
      State.Differ x v w k (execute limits p s).2 (execute limits p t).2 ∧
      (execute limits p s).2.Omits x :=
  ⟨fun rounds depth _ _ _ _ _ _ _ hn homits hdiffer =>
      (Eval.Ignores.evalNode rounds depth hn).same hdiffer homits,
    fun limits _ _ _ _ _ _ _ hp homits hdiffer =>
      (Eval.Ignores.execute limits hp).same hdiffer homits⟩

/-- `f(true)` where `f` prints its parameter `y`, with and without an `x` in the base scope. -/
theorem call_ignores_unmentioned_name : ∃ (n p : Node) (s t : State),
    n.Omits "x" ∧ p.Omits "x" ∧ s.Omits "x" ∧
    State.Differ "x" none (some (.bool false)) 0 s t ∧
    (evalNode 5 5 n s).1 = (evalNode 5 5 n t).1 ∧
    State.Differ "x" none (some (.bool false)) 0 (evalNode 5 5 n s).2 (evalNode 5 5 n t).2 ∧
    (execute ⟨5, 6, 5, 5⟩ p s).1 = (execute ⟨5, 6, 5, 5⟩ p t).1 ∧
    (execute ⟨5, 6, 5, 5⟩ p s).2.output = "true\n" ∧
    (execute ⟨5, 6, 5, 5⟩ p t).2.output = "true\n" := by
  let f : Value := .function 0 ["y"] (.block [.print (.leaf ⟨"IDENT", "y", none, none⟩) none] none)
  let n : Node := .call (.leaf ⟨"IDENT", "f", some 1, some 1⟩)
    (.arguments [.literal (.bool true) none] none) (some 1)
  let p : Node := .block [.expression n (some 1)] none
  let s : State := { environment := ⟨[("f", f)], []⟩ }
  let t : State := { environment := ⟨[("x", .bool false), ("f", f)], []⟩ }
  have hs : s.Omits "x" :=
    List.forall_mem_singleton.mpr (List.forall_mem_singleton.mpr (by decide))
  have hdiffer : State.Differ "x" none (some (.bool false)) 0 s t :=
    ⟨rfl, rfl, .here rfl rfl rfl⟩
  obtain ⟨hnode, hprogram⟩ := unmentioned_names_neither_read_nor_written
  obtain ⟨hresult, hkept, -⟩ := hnode 5 5 n "x" _ _ _ s t (by decide) hs hdiffer
  obtain ⟨hprogram, hends, -⟩ := hprogram ⟨5, 6, 5, 5⟩ p "x" _ _ _ s t (by decide) hs hdiffer
  have houtput : (execute ⟨5, 6, 5, 5⟩ p s).2.output = "true\n" := rfl
  exact ⟨n, p, s, t, by decide, by decide, hs, hdiffer, hresult, hkept, hprogram,
    houtput, hends.output.symm.trans houtput⟩

end ScopeScript
