import ScopeScript.Proofs.Eval.Frame
import ScopeScript.Proofs.Eval.Trail

/-!
# Arguments

A call evaluates each argument in the new scope, after the parameters before it
are bound there. An expression without calls reads names and takes identities
for its function literals; nothing else goes in or out. So unless an argument
mentions a parameter before its own, the arguments could as well be evaluated
where the call stands, and their values be bound afterwards.
-/

namespace ScopeScript

/-! ## Expressions without calls -/

namespace Node

/-- An expression without calls whose names have the property `P`. What is inside of a function
literal does not matter: evaluating the literal leaves it as it is. -/
inductive CallFree (P : String → Prop) : Node → Prop where
  | leaf {l : Leaf} : (∀ x, l.name? = some x → P x) → CallFree P (.leaf l)
  | literal {v : Value} {line : Option Nat} : CallFree P (.literal v line)
  | function {a b : Node} {line : Option Nat} : CallFree P (.function a b line)
  | unary {op : Leaf} {n : Node} {line : Option Nat} : CallFree P n →
    CallFree P (.unary op n line)
  | binary {op : Leaf} {a b : Node} {line : Option Nat} : CallFree P a → CallFree P b →
    CallFree P (.binary op a b line)
  | index {a b : Node} {line : Option Nat} : CallFree P a → CallFree P b →
    CallFree P (.index a b line)
  | array {ns : List Node} {line : Option Nat} : (∀ n ∈ ns, CallFree P n) →
    CallFree P (.array ns line)

theorem CallFree.mono {P Q : String → Prop} {n : Node} (h : n.CallFree P)
    (hPQ : ∀ x, P x → Q x) : n.CallFree Q := by
  induction h with
  | leaf hl => exact .leaf fun x hx => hPQ x (hl x hx)
  | literal => exact .literal
  | function => exact .function
  | unary _ ih => exact .unary ih
  | binary _ _ iha ihb => exact .binary iha ihb
  | index _ _ iha ihb => exact .index iha ihb
  | array _ ih => exact .array ih

end Node

namespace Eval

variable {α β : Type} {P : String → Prop} {c : Eval α} {ev : Node → Eval Value}
  {n : Node} {ns : List Node}

/-- Nothing changes but the supply of identities. The result and the supply depend on the supply
and on what names with the property `P` stand for. -/
def ReadsOnly (P : String → Prop) (c : Eval α) : Prop :=
  ∀ ⦃s t : State⦄, s.supply = t.supply →
    (∀ x, P x → s.environment.lookup? x = t.environment.lookup? x) →
    ∃ r supply, c s = (r, { s with supply := supply }) ∧ c t = (r, { t with supply := supply })

namespace ReadsOnly

theorem lift (r : Except Fault α) : ReadsOnly P (lift r) := by
  intro s t hsupply _
  exact ⟨r, s.supply, rfl, hsupply ▸ rfl⟩

theorem pure (a : α) : ReadsOnly P (Pure.pure a : Eval α) := lift (.ok a)

theorem throw (f : Fault) : ReadsOnly P (MonadExcept.throw f : Eval α) := lift (.error f)

theorem fail (cause : RuntimeCause) : ReadsOnly P (fail cause : Eval α) := throw _

theorem bind {f : α → Eval β} (hc : ReadsOnly P c) (hf : ∀ a, ReadsOnly P (f a)) :
    ReadsOnly P (c >>= f) := by
  intro s t hsupply hnames
  obtain ⟨r, supply, hs, ht⟩ := hc hsupply hnames
  cases r with
  | error fault => exact ⟨_, supply, bind_of_error hs, bind_of_error ht⟩
  | ok a =>
    have hsame : State.supply { s with supply := supply } =
        State.supply { t with supply := supply } := rfl
    obtain ⟨r, supply', hs', ht'⟩ := hf a hsame hnames
    exact ⟨r, supply', (bind_of_ok hs).trans hs', (bind_of_ok ht).trans ht'⟩

theorem located (line : Option Nat) (hc : ReadsOnly P c) : ReadsOnly P (located line c) := by
  intro s t hsupply hnames
  obtain ⟨r, supply, hs, ht⟩ := hc hsupply hnames
  unfold Eval.located
  rw [hs, ht]
  cases r with
  | error fault | ok a => exact ⟨_, supply, rfl, rfl⟩

theorem lookup {name : String} (hname : P name) : ReadsOnly P (lookup name) := by
  intro s t hsupply hnames
  have hsame := hnames name hname
  cases hs : s.environment.lookup? name with
  | none =>
    have ht := lookup_of_unbound (hsame.symm.trans hs)
    exact ⟨_, s.supply, lookup_of_unbound hs, hsupply ▸ ht⟩
  | some v =>
    have ht := lookup_of_bound (hsame.symm.trans hs)
    exact ⟨_, s.supply, lookup_of_bound hs, hsupply ▸ ht⟩

theorem freshIdentity : ReadsOnly P freshIdentity := by
  intro s t hsupply _
  refine ⟨.ok s.supply, s.supply + 1, rfl, ?_⟩
  rw [hsupply]
  rfl

theorem value (hn : ReadsOnly P (ev n)) : ReadsOnly P (value ev n) := by
  refine hn.bind fun v => ?_
  split
  · exact .pure v
  · exact .throw _

theorem values (hns : ∀ n ∈ ns, ReadsOnly P (ev n)) : ReadsOnly P (values ev ns) := by
  induction ns with
  | nil => exact .pure []
  | cons n ns ih =>
    obtain ⟨hn, hns⟩ := List.forall_mem_cons.mp hns
    exact hn.value.bind fun v => (ih hns).bind fun vs => .pure (v :: vs)

theorem leaf {l : Leaf} (hl : ∀ x, l.name? = some x → P x) : ReadsOnly P (leaf l) := by
  unfold Eval.leaf
  split
  next x hx => exact .lookup (hl x hx)
  next => exact .fail _

theorem binary {a b : Node} (op : String) (ha : ReadsOnly P (ev a)) (hb : ReadsOnly P (ev b)) :
    ReadsOnly P (binary ev op a b) := by
  unfold Eval.binary
  split
  · exact .fail _
  refine ha.value.bind fun v => ?_
  split
  · exact .fail _
  · exact hb.value.bind fun w => .lift _

theorem index {a b : Node} (ha : ReadsOnly P (ev a)) (hb : ReadsOnly P (ev b)) :
    ReadsOnly P (index ev a b) :=
  ha.value.bind fun _ => (lift _).bind fun _ => hb.value.bind fun _ => (lift _).bind fun _ =>
    lift _

theorem functionValue (a b : Node) : ReadsOnly P (functionValue a b) :=
  (lift _).bind fun _ => freshIdentity.bind fun _ => pure _

/-- The names of an expression without calls are all that it reads. -/
theorem evalNode (rounds depth : Nat) (hn : n.CallFree P) :
    ReadsOnly P (evalNode rounds depth n) := by
  induction depth generalizing n with
  | zero => exact .throw _
  | succ depth ih =>
    refine .located _ ?_
    cases hn with
    | leaf hl => exact .leaf hl
    | literal => exact .pure _
    | function => exact .functionValue _ _
    | unary hn => exact (ih hn).value.bind fun _ => .lift _
    | binary ha hb => exact .binary _ (ih ha) (ih hb)
    | index ha hb => exact .index (ih ha) (ih hb)
    | array hns => exact (values fun n hn => ih (hns n hn)).bind fun _ => .pure _

end ReadsOnly

end Eval

/-! ## The scope of a call -/

namespace Scope

/-- Binds names to values one after the other. -/
def putAll (s : Scope) : List String → List Value → Scope
  | x :: xs, v :: vs => (s.put x v).putAll xs vs
  | _, _ => s

variable {x y : String} {xs : List String} {vs : List Value}

theorem has_put_of_ne (s : Scope) (v : Value) (hy : y ≠ x) : (s.put x v).has y = s.has y := by
  rw [has, lookup_put, if_neg hy, has]

theorem lookup_putAll_of_not_mem (s : Scope) (hy : y ∉ xs) :
    (s.putAll xs vs).lookup y = s.lookup y := by
  fun_induction putAll s xs vs with
  | case1 s x xs v vs ih =>
    obtain ⟨hne, hxs⟩ := not_or.mp (mt List.mem_cons.mpr hy)
    rw [ih hxs, lookup_put, if_neg hne]
  | case2 => rfl

/-- The last of several values for one name wins. -/
theorem lookup_putAll_of_last (s : Scope) {i : Nat} (hlength : vs.length = xs.length)
    (hi : xs[i]? = some y) (hlast : y ∉ xs.drop (i + 1)) :
    (s.putAll xs vs).lookup y = vs[i]? := by
  induction xs generalizing s vs i with
  | nil => cases hi
  | cons x xs ih => cases vs with
    | nil => cases hlength
    | cons v vs => cases i with
      | zero =>
        obtain rfl : x = y := Option.some.inj hi
        have hxs : x ∉ xs := hlast
        rw [putAll, lookup_putAll_of_not_mem _ hxs, lookup_put, if_pos rfl]
        rfl
      | succ i => exact ih (s.put x v) (Nat.succ.inj hlength) hi hlast

end Scope

namespace State

/-- The state in a new innermost scope. -/
def entering (scope : Scope) (s : State) : State :=
  { s with environment := ⟨scope, s.environment.stack⟩ }

theorem lookup_entering {scope : Scope} {x : String} (hx : scope.has x = false) (s : State) :
    (s.entering scope).environment.lookup? x = s.environment.lookup? x := by
  have hscope : scope.lookup x = none := Scope.lookup_of_not_has (Bool.eq_false_iff.mp hx)
  rw [Environment.lookup?_eq, entering, Environment.stack, Environment.visible_cons, hscope]
  rfl

end State

namespace Eval

variable {ev : Node → Eval Value}

/-- Evaluates the body of a function in a new scope, in which the parameters are bound to values.
The scope is dropped however the body ends, and a break signal is no value. -/
def runBody (ev : Node → Eval Value) (parameters : List String) (body : List Node)
    (vs : List Value) : Eval Value := fun s =>
  match statements ev body .absent (s.entering (Scope.putAll [] parameters vs)) with
  | (r, t) => (r.map fun v => if v.isBreak then .absent else v,
      { t with environment := t.environment.dropInnermost })

theorem values_cons_of_ok {n : Node} {ns : List Node} {v : Value} {s t : State}
    (hn : value ev n s = (.ok v, t)) :
    values ev (n :: ns) s = ((values ev ns t).1.map (v :: ·), (values ev ns t).2) := by
  rw [values, bind_of_ok hn, bind_apply]
  rcases values ev ns t with ⟨_ | vs, u⟩ <;> rfl

/-- In a scope that binds none of their names the arguments have the values that they have outside
of it, if none of them mentions a parameter before its own either. So it does not matter that the
parameters are bound there one after the other. -/
theorem bindArguments_entering {xs : List String} {ns : List Node} (scope : Scope)
    (hev : ∀ P (n : Node), n.CallFree P → ReadsOnly P (ev n)) (hlength : ns.length = xs.length)
    (hns : ∀ j (n : Node), ns[j]? = some n →
      n.CallFree fun x => scope.has x = false ∧ x ∉ xs.take j) (s : State) :
    ∃ r supply scope', values ev ns s = (r, { s with supply := supply }) ∧
      bindArguments ev xs ns (s.entering scope) =
        (r.map fun _ => (), State.entering scope' { s with supply := supply }) ∧
      ∀ vs, r = .ok vs → vs.length = xs.length ∧ scope' = scope.putAll xs vs := by
  induction xs generalizing ns scope s with
  | nil =>
    obtain rfl := List.eq_nil_of_length_eq_zero hlength
    refine ⟨.ok [], s.supply, scope, rfl, rfl, ?_⟩
    rintro _ ⟨⟩
    exact ⟨rfl, rfl⟩
  | cons x xs ih => cases ns with
    | nil => cases hlength
    | cons n ns =>
      have hread := (hev _ n (hns 0 n rfl)).value
      obtain ⟨r, supply, hs, hentered⟩ := hread (s := s) (t := s.entering scope) rfl
        fun y hy => (s.lookup_entering hy.1).symm
      cases r with
      | error fault =>
        exact ⟨.error fault, supply, scope, bind_of_error hs, bind_of_error hentered, nofun⟩
      | ok v =>
        have hrest : ∀ j (m : Node), ns[j]? = some m →
            m.CallFree fun y => (scope.put x v).has y = false ∧ y ∉ xs.take j := by
          intro j m hm
          refine (hns (j + 1) m hm).mono fun y ⟨hscope, hy⟩ => ?_
          obtain ⟨hne, hxs⟩ := not_or.mp (mt List.mem_cons.mpr hy)
          exact ⟨(scope.has_put_of_ne v hne).trans hscope, hxs⟩
        obtain ⟨r, supply', scope', hvalues, hbound, hok⟩ := ih _ (Nat.succ.inj hlength) hrest
          { s with supply := supply }
        have hfirst : bindArguments ev (x :: xs) (n :: ns) (s.entering scope) =
            (r.map fun _ => (), State.entering scope' { s with supply := supply' }) :=
          (bind_of_ok hentered).trans hbound
        refine ⟨r.map (v :: ·), supply', scope', ?_, ?_, ?_⟩
        · rw [values_cons_of_ok hs, hvalues]
        · cases r with
          | error fault | ok vs => exact hfirst
        · intro ws hws
          obtain ⟨vs, hvs, rfl⟩ := Fault.map_eq_ok_iff.mp hws
          obtain ⟨hlength, rfl⟩ := hok vs hvs
          exact ⟨congrArg Nat.succ hlength, rfl⟩

/-- The arguments change nothing but the supply, and the call is that of the body on their
values. -/
theorem callFunction_apply {xs : List String} {ns : List Node} (body : List Node)
    (hev : ∀ P (n : Node), n.CallFree P → ReadsOnly P (ev n)) (hlength : ns.length = xs.length)
    (hns : ∀ j (n : Node), ns[j]? = some n → n.CallFree fun x => x ∉ xs.take j) (s : State) :
    ∃ r supply, values ev ns s = (r, { s with supply := supply }) ∧
      (∀ vs, r = .ok vs → vs.length = xs.length) ∧
      callFunction ev xs body ns s = (values ev ns >>= runBody ev xs body) s := by
  obtain ⟨r, supply, scope, hvalues, hbound, hok⟩ := bindArguments_entering []
    hev hlength (fun j n hn => (hns j n hn).mono fun x hx => ⟨rfl, hx⟩) s
  refine ⟨r, supply, hvalues, fun vs hvs => (hok vs hvs).1, ?_⟩
  cases r with
  | error fault =>
    have hscope : inScope (bindArguments ev xs ns >>= fun _ => statements ev body .absent) s =
        (.error fault, { s with supply := supply }) := by
      rw [inScope_apply, bind_of_error (s := s.push) hbound]
      rfl
    rw [bind_of_error hvalues]
    exact bind_of_error hscope
  | ok vs =>
    obtain ⟨-, rfl⟩ := hok vs rfl
    rw [bind_of_ok hvalues, callFunction, bind_apply, inScope_apply,
      bind_of_ok (s := s.push) hbound, runBody]
    rcases statements ev body .absent _ with ⟨_ | v, t⟩
    · rfl
    · rfl

theorem Calls.evalNode_eq {f a body : Node} {xs : List String} {s : State}
    (h : Calls f a s xs body) (rounds depth : Nat) (line : Option Nat) :
    evalNode rounds (depth + 1) (.call f a line) s =
      located line (callFunction (evalNode rounds depth) xs body.children a.children) s := by
  change located line (node (evalNode rounds depth) rounds (.call f a line)) s = _
  rw [located, located, h.run]

end Eval

/-- A call of a function whose arguments contain no call, and none of which mentions a parameter
before its own, is by value. The arguments are evaluated from the left where the call stands; they
change neither a binding nor the output. The first fault among them is that of the call. If there
is none, the call is that of the body in a new scope with each parameter bound to its value, the
last one of a name that is repeated. The scopes of the call stay, with their names, however it
ends. -/
theorem call_by_value_unless_captured (rounds depth : Nat) (s : State) (f a body : Node)
    (parameters : List String) (line : Option Nat) (hcalls : Eval.Calls f a s parameters body)
    (harguments : ∀ j (n : Node), a.children[j]? = some n →
      n.CallFree fun x => x ∉ parameters.take j) :
    let ev := evalNode rounds depth
    let outcome := evalNode rounds (depth + 1) (.call f a line) s
    (∀ fault t, Eval.values ev a.children s = (.error fault, t) →
      t.environment = s.environment ∧ t.output = s.output ∧
      outcome = (.error (fault.locate line), t)) ∧
    (∀ vs t, Eval.values ev a.children s = (.ok vs, t) →
      t.environment = s.environment ∧ t.output = s.output ∧
      outcome = Eval.located line (Eval.runBody ev parameters body.children vs) t ∧
      vs.length = parameters.length ∧ ∀ x,
        (x ∉ parameters → (Scope.putAll [] parameters vs).lookup x = none) ∧
        ∀ i, parameters[i]? = some x → x ∉ parameters.drop (i + 1) →
          (Scope.putAll [] parameters vs).lookup x = vs[i]?) ∧
    outcome.2.environment.layout = s.environment.layout := by
  intro ev outcome
  have hev : ∀ P (n : Node), n.CallFree P → Eval.ReadsOnly P (ev n) :=
    fun P n hn => .evalNode rounds depth hn
  have houtcome : outcome = Eval.located line
      (Eval.callFunction ev parameters body.children a.children) s :=
    hcalls.evalNode_eq rounds depth line
  obtain ⟨-, -, -, -, -, -, hlength⟩ := hcalls
  obtain ⟨r, supply, hvalues, hok, hcall⟩ :=
    Eval.callFunction_apply body.children hev hlength harguments s
  have hcalm : State.Calm s outcome.2 := by
    have hall : ∀ n, Eval.Within State.Grown _ (ev n) := Eval.scoped_within.evalNode rounds depth
    rw [houtcome]
    exact Eval.scoped_within.inner.located line
      (Eval.scoped_within.callFunction parameters (fun n _ => hall n) fun n _ => hall n) s
  refine ⟨?_, ?_, hcalm.keeps.1⟩
  · intro fault t ht
    obtain ⟨rfl, rfl⟩ := Prod.mk.inj (hvalues.symm.trans ht)
    refine ⟨rfl, rfl, ?_⟩
    rw [houtcome, Eval.located, hcall, Eval.bind_of_error hvalues]
  · intro vs t ht
    obtain ⟨rfl, rfl⟩ := Prod.mk.inj (hvalues.symm.trans ht)
    have hvs := hok vs rfl
    refine ⟨rfl, rfl, ?_, hvs, fun x => ⟨fun hx => ?_, fun i hi hlast => ?_⟩⟩
    · rw [houtcome, Eval.located, Eval.located, hcall, Eval.bind_of_ok hvalues]
    · exact Scope.lookup_putAll_of_not_mem [] hx
    · exact Scope.lookup_putAll_of_last [] hvs hi hlast

/-- The later argument reads the parameter `x`, not the `x` around the call. -/
example :
    let x : Node := .leaf ⟨"IDENT", "x", none, none⟩
    let body : Node := .block [.expression (.leaf ⟨"IDENT", "y", none, none⟩) none] none
    let s : State :=
      { environment := ⟨[("f", .function 0 ["x", "y"] body), ("x", .int 7)], []⟩ }
    (evalNode 1 4 (.call (.leaf ⟨"IDENT", "f", none, none⟩)
      (.arguments [.literal (.int 1) none, x] none) none) s).1 = .ok (.int 1) := rfl

/-- `f(z, fn() {}, !z)` where `f` prints its parameter `x`, the first and the last one, and
leaves a loop that is not there. -/
theorem call_with_repeated_parameter :
    let z : Node := .leaf ⟨"IDENT", "z", some 1, some 3⟩
    let bang : Leaf := ⟨"NEG", "!", none, none⟩
    let literal : Node := .function (.parameters [] none) (.block [] none) (some 1)
    let arguments : List Node := [z, literal, .unary bang z (some 1)]
    let body : Node :=
      .block [.print (.leaf ⟨"IDENT", "x", some 1, some 7⟩) (some 1), .exit (some 1)] none
    let call : Node := .call (.leaf ⟨"IDENT", "f", some 1, some 1⟩) (.arguments arguments none)
      (some 1)
    let s : State := { environment :=
      ⟨[("f", .function 0 ["x", "y", "x"] body), ("z", .bool true)], []⟩, supply := 1 }
    let vs : List Value := [.bool true, .function 1 [] (.block [] none), .bool false]
    Eval.values (evalNode 1 4) arguments s = (.ok vs, { s with supply := 2 }) ∧
    evalNode 1 5 call s = Eval.located (some 1)
      (Eval.runBody (evalNode 1 4) ["x", "y", "x"] body.children vs) { s with supply := 2 } ∧
    evalNode 1 5 call s = (.ok .absent, { s with output := "false\n", supply := 2 }) ∧
    (Scope.putAll [] ["x", "y", "x"] vs).lookup "x" = some (.bool false) := by
  intro z bang literal arguments body call s vs
  have hvalues : Eval.values (evalNode 1 4) arguments s = (.ok vs, { s with supply := 2 }) := rfl
  have harguments : ∀ j (n : Node), arguments[j]? = some n →
      n.CallFree fun x => x ∉ ["x", "y", "x"].take j := by
    have hz : ∀ j, z.CallFree fun x => x ∉ ["x", "y", "x"].take j := by
      intro j
      refine .leaf ?_
      rintro _ ⟨⟩ hmem
      exact absurd (List.mem_of_mem_take hmem) (by decide)
    intro j n hn
    match j, hn with
    | 0, rfl => exact hz 0
    | 1, rfl => exact .function
    | 2, rfl => exact .unary (hz 2)
  have hcalls : Eval.Calls (.leaf ⟨"IDENT", "f", some 1, some 1⟩) (.arguments arguments none) s
      ["x", "y", "x"] body := ⟨"f", 0, rfl, by decide, by decide, rfl, rfl⟩
  obtain ⟨-, hok, -⟩ := call_by_value_unless_captured 1 4 s _ _ _ _ (some 1) hcalls harguments
  obtain ⟨-, -, hcall, -, hscope⟩ := hok vs { s with supply := 2 } hvalues
  exact ⟨hvalues, hcall, hcall.trans rfl, (hscope "x").2 2 rfl (by decide)⟩

end ScopeScript
