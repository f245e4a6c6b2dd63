import ScopeScript.Proofs.Environment.Stack
import ScopeScript.Proofs.Eval.Stable
import ScopeScript.Proofs.Value.Genuine

/-!
# Evaluation in sound states

In a sound state every name is bound to a genuine value. Evaluating a part of a
program keeps states sound, has no internal fault, and ends with the break
signal only if the part can leave a loop around it. Each rule is followed under
the assumption that the evaluator of the parts does so.
-/

namespace ScopeScript

/-! ## Leaving a loop -/

mutual

/-- A break statement, or a branch or a block with a statement in it that can leave a loop
around it. -/
def Node.breakOpen : Node → Bool
  | .exit _ => true
  | .branch _ b c _ => b.breakOpen || c.breakOpen
  | .block ns _ => Node.anyBreakOpen ns
  | _ => false

def Node.anyBreakOpen : List Node → Bool
  | [] => false
  | n :: ns => n.breakOpen || Node.anyBreakOpen ns

end

theorem Node.anyBreakOpen_of_mem {n : Node} {ns : List Node} (hn : n ∈ ns)
    (h : n.breakOpen = true) : Node.anyBreakOpen ns = true := by
  induction ns with
  | nil => cases hn
  | cons m ns ih =>
    rw [Node.anyBreakOpen, Bool.or_eq_true]
    rcases List.mem_cons.mp hn with rfl | hn
    · exact .inl h
    · exact .inr (ih hn)

/-- What evaluating a part of a program may end with. -/
inductive Value.Outcome (mayBreak : Bool) : Value → Prop where
  | genuine {v : Value} : v.Genuine → Outcome mayBreak v
  | absent : Outcome mayBreak .absent
  | breakSignal : mayBreak = true → Outcome mayBreak .breakSignal

namespace Value

variable {v : Value} {b c : Bool}

theorem Outcome.mono (h : Outcome b v) (hbc : b = true → c = true) : Outcome c v := by
  cases h with
  | genuine h => exact .genuine h
  | absent => exact .absent
  | breakSignal hb => exact .breakSignal (hbc hb)

theorem Outcome.of_not_break (h : Outcome b v) (hv : ¬v.isBreak = true) : Outcome c v := by
  cases h with
  | genuine h => exact .genuine h
  | absent => exact .absent
  | breakSignal _ => exact absurd rfl hv

theorem Outcome.genuine_of_isResult (h : Outcome b v) (hv : v.isResult = true) : v.Genuine := by
  cases h with
  | genuine h => exact h
  | absent | breakSignal _ => cases hv

/-- What is left of an outcome where a break signal is dropped. -/
theorem Outcome.dropped (h : Outcome b v) :
    Outcome false (if v.isBreak then .absent else v) := by
  split
  next => exact .absent
  next hv => exact h.of_not_break hv

end Value

/-! ## Sound states -/

namespace Environment

variable {P : Value → Prop} {s : Scope} {ss ts : List Scope} {x : String} {v : Value}

/-- All values on a stack of scopes have a property. -/
def AllBound (P : Value → Prop) (ss : List Scope) : Prop := ∀ s ∈ ss, ∀ b ∈ s, P b.2

theorem all_put (h : ∀ b ∈ s, P b.2) (hv : P v) : ∀ b ∈ s.put x v, P b.2 := by
  induction s with
  | nil => exact List.forall_mem_singleton.mpr hv
  | cons c s ih =>
    obtain ⟨hc, hs⟩ := List.forall_mem_cons.mp h
    rw [Scope.put]
    split
    · exact List.forall_mem_cons.mpr ⟨hv, hs⟩
    · exact List.forall_mem_cons.mpr ⟨hc, ih hs⟩

theorem AllBound.assignIn (h : AllBound P ss) (hv : P v)
    (hts : assignIn x v ss = some ts) : AllBound P ts := by
  induction ss generalizing ts with
  | nil => cases hts
  | cons s ss ih =>
    obtain ⟨hs, hss⟩ := List.forall_mem_cons.mp h
    rw [Environment.assignIn] at hts
    split at hts
    next =>
      cases hts
      exact List.forall_mem_cons.mpr ⟨all_put hs hv, hss⟩
    next =>
      obtain ⟨us, hus, rfl⟩ := Option.map_eq_some_iff.mp hts
      exact List.forall_mem_cons.mpr ⟨hs, ih hss hus⟩

theorem AllBound.visible (h : AllBound P ss) (hv : visible x ss = some v) : P v := by
  obtain ⟨s, hs, hlookup⟩ := List.exists_of_findSome?_eq_some hv
  obtain ⟨_, _, rfl, -⟩ := List.lookup_eq_some_iff.mp hlookup
  exact h _ hs (x, v) (List.mem_append_right _ (List.mem_cons_self ..))

theorem AllBound.dropInnermost {e : Environment} (h : AllBound P e.stack) :
    AllBound P e.dropInnermost.stack := by
  obtain ⟨s, ss⟩ := e
  cases ss with
  | nil => exact h
  | cons t ts => exact fun u hu => h u (List.mem_cons_of_mem s hu)

end Environment

/-- A state in which every name, in every scope, is bound to a genuine value. -/
def State.Sound (s : State) : Prop := Environment.AllBound Value.Genuine s.environment.stack

namespace Eval

open Value (Genuine Outcome)
open Fault (Yields)

variable {α β : Type} {mid : α → Prop} {post : β → Prop} {x : Eval α}

/-- From a sound state the computation leads to a sound one; its result has a property, and
its fault is not an internal one. -/
def Ensures (post : α → Prop) (x : Eval α) : Prop :=
  ∀ s : State, s.Sound → (x s).2.Sound ∧ Yields post (x s).1

namespace Ensures

theorem lift {r : Except Fault α} (h : Yields mid r) : Ensures mid (lift r) :=
  fun _ hs => ⟨hs, h⟩

theorem pure {a : α} (h : mid a) : Ensures mid (Pure.pure a) := lift (.ok h)

theorem throw {f : Fault} (h : f.isInternal = false) :
    Ensures mid (MonadExcept.throw f : Eval α) := lift (.error h)

theorem bind {f : α → Eval β} (hx : Ensures mid x) (hf : ∀ a, mid a → Ensures post (f a)) :
    Ensures post (x >>= f) := by
  intro s hs
  obtain ⟨ht, hresult⟩ := hx s hs
  rw [bind_apply]
  rcases hxs : x s with ⟨a | a, t⟩ <;> rw [hxs] at ht hresult
  · cases hresult with
    | error hf => exact ⟨ht, .error hf⟩
  · cases hresult with
    | ok ha => exact hf a ha t ht

theorem weaken {mid' : α → Prop} (hx : Ensures mid x) (h : ∀ a, mid a → mid' a) :
    Ensures mid' x := by
  intro s hs
  obtain ⟨ht, hresult⟩ := hx s hs
  exact ⟨ht, hresult.mono h⟩

theorem ite {c : Prop} [Decidable c] {y : Eval α} (hx : c → Ensures mid x)
    (hy : ¬c → Ensures mid y) : Ensures mid (if c then x else y) := by
  split
  next hc => exact hx hc
  next hc => exact hy hc

theorem located (line : Option Nat) (hx : Ensures mid x) : Ensures mid (located line x) := by
  intro s hs
  obtain ⟨ht, hresult⟩ := hx s hs
  unfold Eval.located
  rcases hxs : x s with ⟨f | a, t⟩ <;> rw [hxs] at ht hresult
  · cases hresult with
    | error hf => exact ⟨ht, .error ((Fault.isInternal_locate line f).trans hf)⟩
  · exact ⟨ht, hresult⟩

theorem inScope (hx : Ensures mid x) : Ensures mid (inScope x) := by
  intro s hs
  have hpush : State.Sound { s with environment := s.environment.push } :=
    List.forall_mem_cons.mpr ⟨List.forall_mem_nil _, hs⟩
  obtain ⟨ht, hresult⟩ := hx _ hpush
  exact ⟨ht.dropInnermost, hresult⟩

/-! ### Names -/

theorem lookup? (name : String) : Ensures (fun o => ∀ v, o = some v → v.Genuine) (lookup? name) :=
  fun _ hs => ⟨hs, .ok fun _ hv => hs.visible hv⟩

theorem lookup (name : String) : Ensures Genuine (lookup name) := by
  refine (lookup? name).bind fun o ho => ?_
  cases o with
  | none => exact .throw rfl
  | some v => exact .pure (ho v rfl)

theorem define (name : String) {v : Value} (hv : v.Genuine) :
    Ensures (fun _ => True) (define name v) := by
  intro s hs
  obtain ⟨hinnermost, houter⟩ := List.forall_mem_cons.mp hs
  exact ⟨List.forall_mem_cons.mpr ⟨Environment.all_put hinnermost hv, houter⟩, .ok trivial⟩

theorem assign (name : String) {v : Value} (hv : v.Genuine) :
    Ensures (fun _ => True) (assign name v) := by
  intro s hs
  rw [assign_apply]
  split
  next e he => exact ⟨hs.assignIn hv (Environment.assign?_eq_some.mp he), .ok trivial⟩
  next => exact ⟨hs, .error rfl⟩

theorem write (text : String) : Ensures (fun _ => True) (write text) :=
  fun _ hs => ⟨hs, .ok trivial⟩

theorem freshIdentity : Ensures (fun _ => True) freshIdentity :=
  fun _ hs => ⟨hs, .ok trivial⟩

end Ensures

/-! ## Rules -/

section
variable {ev : Node → Eval Value} {n : Node} {b : Bool}

theorem ensures_value (hn : Ensures (Outcome b) (ev n)) : Ensures Genuine (value ev n) :=
  hn.bind fun _ hv => .ite (fun h => .pure (hv.genuine_of_isResult h)) fun _ => .throw rfl

theorem ensures_values {ns : List Node} (hns : ∀ n ∈ ns, Ensures (Outcome b) (ev n)) :
    Ensures (fun vs => ∀ v ∈ vs, v.Genuine) (values ev ns) := by
  induction ns with
  | nil => exact .pure (List.forall_mem_nil _)
  | cons n ns ih =>
    obtain ⟨hn, hns⟩ := List.forall_mem_cons.mp hns
    exact (ensures_value hn).bind fun v hv => (ih hns).bind fun vs hvs =>
      .pure (List.forall_mem_cons.mpr ⟨hv, hvs⟩)

theorem ensures_test (context : String) (hn : Ensures (Outcome b) (ev n)) :
    Ensures (fun _ => True) (test ev context n) := by
  refine hn.bind fun v _ => ?_
  cases v with
  | bool t => exact .pure trivial
  | _ => exact .throw rfl

theorem ensures_unary {op : String} (hop : op = "-" ∨ op = "!")
    (hn : Ensures (Outcome b) (ev n)) : Ensures Genuine (unary ev op n) :=
  (ensures_value hn).bind fun v _ => .lift (Value.applyUnary_yields hop v)

theorem ensures_binary {op : String} {l r : Node}
    (hop : op = "." ∨ op = "+=" ∨ op = "-=" ∨ op ∈ Value.binarySpellings)
    (hl : Ensures (Outcome b) (ev l)) (hr : Ensures (Outcome b) (ev r)) :
    Ensures Genuine (binary ev op l r) := by
  refine .ite (fun _ => .throw rfl) fun hassign => (ensures_value hl).bind fun v _ => ?_
  refine .ite (fun _ => .throw rfl) fun hdot => (ensures_value hr).bind fun w _ => ?_
  have hspelled : op ∈ Value.binarySpellings := by
    rcases hop with hop | hop | hop | hop
    · exact absurd hop hdot
    · exact absurd (.inl hop) hassign
    · exact absurd (.inr hop) hassign
    · exact hop
  exact .lift (Value.applyBinary_yields hspelled v w)

theorem ensures_index {collection position : Node} (hc : Ensures (Outcome b) (ev collection))
    (hp : Ensures (Outcome b) (ev position)) : Ensures Genuine (index ev collection position) := by
  refine (ensures_value hc).bind fun v hv => ?_
  refine (Ensures.lift (Value.toItems_yields _ hv)).bind fun items hitems => ?_
  refine (ensures_value hp).bind fun w _ => ?_
  exact (Ensures.lift (Value.toIndex_yields w)).bind fun i _ =>
    .lift (Value.itemAt_yields hitems i)

/-! ### Bindings -/

/-- Binding again: the value that is made of the old one is genuine. -/
theorem ensures_settle (name : String) {f : Value → Except Fault Value}
    (hf : ∀ old, Yields Genuine (f old)) : Ensures (fun _ => True) (settle name f) :=
  (Ensures.lookup name).bind fun old _ => (Ensures.lift (hf old)).bind fun _ hnew =>
    .ite (fun _ => .assign name hnew) fun _ => .throw rfl

/-- The operators that combine an old value with a new one. -/
theorem ensures_declare (name : String) {kind : Binding}
    (hkind : ∀ op, kind = .combine op → op ∈ Value.binarySpellings)
    (hn : Ensures (Outcome b) (ev n)) : Ensures (fun _ => True) (declare ev name n kind) := by
  cases kind with
  | fresh => exact (ensures_value hn).bind fun _ hv => .define name hv
  | again =>
    exact (Ensures.lookup name).bind fun _ _ => (ensures_value hn).bind fun _ hnew =>
      ensures_settle name fun _ => .ok hnew
  | combine op =>
    exact (Ensures.lookup name).bind fun _ _ => (ensures_value hn).bind fun operand _ =>
      ensures_settle name fun old => Value.applyBinary_yields (hkind op rfl) old operand

theorem ofNode_combine {kind : Node} {op : String} (h : Binding.ofNode kind = .combine op) :
    op ∈ Value.binarySpellings := by
  unfold Binding.ofNode at h
  split at h
  · split at h
    · cases h
    split at h
    · cases h
      decide
    split at h
    · cases h
      decide
    · cases h
  · cases h

theorem ensures_declaration {x : Leaf} {kind : Node} (hx : x.IsName)
    (hn : Ensures (Outcome b) (ev n)) :
    Ensures (fun v => v = .absent) (declaration ev (.leaf x) kind n) := by
  have hname : (Node.leaf x).name? = some x.text := if_pos hx.1
  unfold declaration
  rw [hname]
  exact (ensures_declare x.text (fun _ => ofNode_combine) hn).bind fun _ _ => .pure rfl

/-! ### Arrays by name -/

theorem ensures_arrayVariable (context : String) (n : Node) :
    Ensures (fun p => ∀ v ∈ p.2, v.Genuine) (arrayVariable context n) := by
  unfold arrayVariable
  split
  next => exact .throw rfl
  next name _ =>
    exact (Ensures.lookup name).bind fun v hv =>
      (Ensures.lift (Value.toItems_yields context hv)).bind fun _ hitems => .pure hitems

theorem ensures_pushItem {target item : Node} (hitem : Ensures (Outcome b) (ev item)) :
    Ensures Genuine (pushItem ev target item) := by
  refine (ensures_value hitem).bind fun v hv => ?_
  refine (ensures_arrayVariable "push" target).bind fun p hp => ?_
  have hitems : ∀ w ∈ p.2 ++ [v], w.Genuine :=
    List.forall_mem_append.mpr ⟨hp, List.forall_mem_singleton.mpr hv⟩
  exact (Ensures.assign p.1 (.array hitems)).bind fun _ _ => .pure hv

theorem ensures_length (target : Node) : Ensures Genuine (length target) :=
  (ensures_arrayVariable "len" target).bind fun _ _ => .pure (.int _)

/-! ### Statements -/

theorem ensures_statements {ns : List Node}
    (hns : ∀ n ∈ ns, Ensures (Outcome n.breakOpen) (ev n)) {last : Value}
    (hlast : Outcome false last) :
    Ensures (Outcome (Node.anyBreakOpen ns)) (statements ev ns last) := by
  induction ns generalizing last with
  | nil => exact .pure hlast
  | cons n ns ih =>
    obtain ⟨hn, hns⟩ := List.forall_mem_cons.mp hns
    refine hn.bind fun v hv => .ite (fun _ => .pure ?_) fun hbreak => ?_
    · exact hv.mono fun h => Node.anyBreakOpen_of_mem (List.mem_cons_self ..) h
    · refine (ih hns (hv.of_not_break hbreak)).weaken fun w hw => hw.mono fun h => ?_
      rw [Node.anyBreakOpen, h, Bool.or_true]

theorem ensures_block {ns : List Node}
    (hns : ∀ n ∈ ns, Ensures (Outcome n.breakOpen) (ev n)) :
    Ensures (Outcome (Node.anyBreakOpen ns)) (block ev ns) :=
  (ensures_statements hns .absent).inScope

theorem ensures_program {ns : List Node}
    (hns : ∀ n ∈ ns, Ensures (Outcome n.breakOpen) (ev n)) :
    Ensures (Outcome false) (program ev ns) :=
  (ensures_statements hns .absent).bind fun _ hv => .pure hv.dropped

theorem ensures_rounds {condition : Node} {body : List Node}
    (hcondition : Ensures (Outcome b) (ev condition))
    (hbody : ∀ n ∈ body, Ensures (Outcome n.breakOpen) (ev n)) (count : Nat) :
    Ensures (fun v => v = .absent) (rounds ev condition body count) := by
  induction count with
  | zero => exact .throw rfl
  | succ count ih =>
    refine (ensures_test "while" hcondition).bind fun t _ => .ite (fun _ => ?_) fun _ => .pure rfl
    exact (ensures_block hbody).bind fun v _ => .ite (fun _ => .pure rfl) fun _ => ih

/-! ### Calls -/

theorem ensures_bindArguments {ns : List Node} (xs : List String)
    (hns : ∀ n ∈ ns, Ensures (Outcome b) (ev n)) :
    Ensures (fun _ => True) (bindArguments ev xs ns) := by
  induction ns generalizing xs with
  | nil => cases xs <;> exact .pure trivial
  | cons n ns ih =>
    obtain ⟨hn, hns⟩ := List.forall_mem_cons.mp hns
    cases xs with
    | nil => exact .pure trivial
    | cons x xs =>
      exact (ensures_value hn).bind fun v hv => (Ensures.define x hv).bind fun _ _ => ih xs hns

theorem ensures_callFunction {body ns : List Node} (xs : List String)
    (hbody : ∀ n ∈ body, Ensures (Outcome n.breakOpen) (ev n))
    (hns : ∀ n ∈ ns, Ensures (Outcome b) (ev n)) :
    Ensures (Outcome false) (callFunction ev xs body ns) := by
  have hinside : Ensures (Outcome (Node.anyBreakOpen body))
      (do bindArguments ev xs ns; statements ev body .absent) :=
    (ensures_bindArguments xs hns).bind fun _ _ => ensures_statements hbody .absent
  exact hinside.inScope.bind fun _ hv => .pure hv.dropped

end

/-! ## Parts of programs -/

/-- The evaluator of the parts keeps to what the rules assume of it. -/
structure Obeys (ev : Node → Eval Value) : Prop where
  expression {n : Node} : n.IsRead → n.WellFormed Binary64.IsLiteral .expression →
    Ensures (Outcome false) (ev n)
  statement {n : Node} : n.IsRead → n.WellFormed Binary64.IsLiteral .statement →
    Ensures (Outcome n.breakOpen) (ev n)

section
variable {ev : Node → Eval Value} (hev : Obeys ev) {n : Node}
include hev

/-- The statements of a block that was read. -/
theorem Obeys.block (hread : n.IsRead) (hn : n.WellFormed Binary64.IsLiteral .block) :
    n.breakOpen = Node.anyBreakOpen n.children ∧
      ∀ m ∈ n.children, Ensures (Outcome m.breakOpen) (ev m) := by
  cases hn with
  | statements hns =>
    refine ⟨by rw [Node.breakOpen]; rfl, fun m hm => ?_⟩
    exact hev.statement (hread.child hm) (hns m hm)

theorem ensures_call (name : String) {ns : List Node}
    (hns : ∀ n ∈ ns, Ensures (Outcome false) (ev n)) :
    Ensures (Outcome false) (call ev name ns) := by
  refine .ite (fun _ => ?_) fun _ => .ite (fun _ => ?_) fun _ => ?_
  · split
    next target item =>
      have hitem := hns item (List.mem_cons_of_mem _ (List.mem_singleton_self _))
      exact (ensures_pushItem hitem).weaken fun _ => .genuine
    next => exact .throw rfl
  · split
    next target => exact (ensures_length target).weaken fun _ => .genuine
    next => exact .throw rfl
  · refine (Ensures.lookup? name).bind fun o ho => ?_
    split
    next parameters body =>
      refine .ite (fun _ => ?_) fun _ => .throw rfl
      cases ho _ rfl with
      | function hread hbody =>
        exact ensures_callFunction parameters (hev.block hread hbody).2 hns
    next => exact .throw rfl

omit hev in
theorem parameterNames_yields {ps : List Node}
    (hps : ∀ p ∈ ps, ∃ l : Leaf, p = .leaf l ∧ l.IsName) :
    Yields (fun _ => True) (parameterNames ps) := by
  induction ps with
  | nil => exact .ok trivial
  | cons p ps ih =>
    obtain ⟨⟨l, rfl, hl⟩, hrest⟩ := List.forall_mem_cons.mp hps
    have hname : (Node.leaf l).name? = some l.text := if_pos hl.1
    rw [parameterNames, hname]
    exact (ih hrest).map fun _ _ => trivial

theorem ensures_expression (rounds : Nat) (hread : n.IsRead)
    (hn : n.WellFormed Binary64.IsLiteral .expression) :
    Ensures (Outcome false) (node ev rounds n) := by
  cases hn with
  | int _ => exact .pure (.genuine (.int _))
  | float _ => exact .pure (.genuine (.float _))
  | string => exact .pure (.genuine (.string _))
  | bool => exact .pure (.genuine (.bool _))
  | @name l hl =>
    have hname : l.name? = some l.text := if_pos hl.1
    rw [node, leaf, hname]
    exact (Ensures.lookup l.text).weaken fun _ => .genuine
  | unary hk hop ha =>
    have ha := hev.expression (hread.child (List.mem_cons_of_mem _ (List.mem_cons_self ..))) ha
    exact (ensures_unary (hop.unary hk) ha).weaken fun _ => .genuine
  | binary hk hop hl hr =>
    have hl := hev.expression (hread.child (List.mem_cons_of_mem _ (List.mem_cons_self ..))) hl
    have hr := hev.expression (hread.child
      (List.mem_cons_of_mem _ (List.mem_cons_of_mem _ (List.mem_cons_self ..)))) hr
    exact (ensures_binary (hop.binary hk) hl hr).weaken fun _ => .genuine
  | index ha hb =>
    have ha := hev.expression (hread.child (List.mem_cons_self ..)) ha
    have hb := hev.expression (hread.child (List.mem_cons_of_mem _ (List.mem_cons_self ..))) hb
    exact (ensures_index ha hb).weaken fun _ => .genuine
  | @call f ns _ _ hf hns =>
    have hname : (Node.leaf f).name? = some f.text := if_pos hf.1
    have harguments := hread.child (List.mem_cons_of_mem _ (List.mem_cons_self ..))
    rw [node, hname]
    exact ensures_call hev f.text fun n hn => hev.expression (harguments.child hn) (hns n hn)
  | array hns =>
    have hitems := ensures_values fun n hn => hev.expression (hread.child hn) (hns n hn)
    exact hitems.bind fun _ hvs => .pure (.genuine (.array hvs))
  | function hps hbody =>
    have hread := hread.child (List.mem_cons_of_mem _ (List.mem_cons_self ..))
    exact (Ensures.lift (parameterNames_yields hps)).bind fun _ _ =>
      Ensures.freshIdentity.bind fun _ _ => .pure (.genuine (.function hread hbody))

theorem ensures_statement (rounds : Nat) (hread : n.IsRead)
    (hn : n.WellFormed Binary64.IsLiteral .statement) :
    Ensures (Outcome n.breakOpen) (node ev rounds n) := by
  cases hn with
  | block hn =>
    obtain ⟨hopen, hns⟩ := hev.block hread hn
    rw [hopen]
    cases hn with
    | statements _ => exact ensures_block hns
  | expression ha =>
    exact (hev.expression (hread.child (List.mem_cons_self ..)) ha).weaken fun _ hv =>
      hv.mono nofun
  | print ha =>
    have ha := hev.expression (hread.child (List.mem_cons_self ..)) ha
    exact (ensures_value ha).bind fun v _ => (Ensures.lift (Value.display?_yields v)).bind
      fun text _ => (Ensures.write _).bind fun _ _ => .pure .absent
  | fresh hx _ ha | assign hx _ _ ha =>
    have ha := hev.expression (hread.child
      (List.mem_cons_of_mem _ (List.mem_cons_of_mem _ (List.mem_cons_self ..)))) ha
    exact (ensures_declaration hx ha).weaken fun v hv => hv ▸ .absent
  | branch ha hb hc =>
    have ha := hev.expression (hread.child (List.mem_cons_self ..)) ha
    obtain ⟨hbopen, hb⟩ := hev.block (hread.child
      (List.mem_cons_of_mem _ (List.mem_cons_self ..))) hb
    obtain ⟨hcopen, hc⟩ := hev.block (hread.child
      (List.mem_cons_of_mem _ (List.mem_cons_of_mem _ (List.mem_cons_self ..)))) hc
    rw [Node.breakOpen, hbopen, hcopen]
    refine (ensures_test "if" ha).bind fun t _ => .ite (fun _ => ?_) fun _ => ?_
    · exact (ensures_block hb).weaken fun v hv => hv.mono fun h => by rw [h, Bool.true_or]
    · exact (ensures_block hc).weaken fun v hv => hv.mono fun h => by rw [h, Bool.or_true]
  | loop ha hb =>
    have ha := hev.expression (hread.child (List.mem_cons_self ..)) ha
    obtain ⟨-, hb⟩ := hev.block (hread.child (List.mem_cons_of_mem _ (List.mem_cons_self ..))) hb
    exact (ensures_rounds ha hb rounds).weaken fun v hv => hv ▸ .absent
  | exit => exact .pure (.breakSignal (by rw [Node.breakOpen]))

end

theorem evalNode_obeys (rounds depth : Nat) : Obeys (evalNode rounds depth) := by
  induction depth with
  | zero => exact ⟨fun _ _ => .throw rfl, fun _ _ => .throw rfl⟩
  | succ depth ih =>
    exact {
      expression := fun hread hn => (ensures_expression ih rounds hread hn).located _
      statement := fun hread hn => (ensures_statement ih rounds hread hn).located _ }

end Eval

end ScopeScript
