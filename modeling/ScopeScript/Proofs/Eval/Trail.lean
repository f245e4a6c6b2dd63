import ScopeScript.Proofs.Eval.Break
import ScopeScript.Proofs.Eval.Relocated

/-!
# Where a run-time error arises

A rule evaluates parts of its node one after another and fails as soon as one
of them does. So a run-time error has a trail: the nodes under evaluation when
it arose, from the outermost one down to the one whose own rule failed, or
that had no value where one was needed. The error carries the line of the
innermost node on its trail that has a line.

The trail is told without the lines of faults: by which part of which node is
evaluated in which state, through blocks, loops, arguments and bodies of
functions.
-/

namespace ScopeScript

namespace Eval

open Fault (Bare)

variable {α β : Type} {ev : Node → Eval Value} {count : Nat} {n m : Node} {ns : List Node}
  {s t u : State} {v : Value} {f : Fault} {needed : Bool}

/-! ## Failing computations -/

def Fails (x : Eval α) (s : State) (f : Fault) : Prop := (x s).1 = .error f

section
variable {x : Eval α} {g : α → Eval β}

theorem Fails.bind_left (h : Fails x s f) : Fails (x >>= g) s f := by
  rw [Fails] at h ⊢
  rw [bind_apply]
  rcases hx : x s with ⟨r, t⟩
  rw [hx] at h
  rw [show r = .error f from h]

theorem Fails.bind_right {a : α} (hx : x s = (.ok a, t)) (h : Fails (g a) t f) :
    Fails (x >>= g) s f := by
  rw [Fails, bind_apply, hx]
  exact h

theorem fails_bind_iff : Fails (x >>= g) s f ↔
    Fails x s f ∨ ∃ a t, x s = (.ok a, t) ∧ Fails (g a) t f := by
  refine ⟨fun h => ?_, fun h => h.elim .bind_left fun ⟨a, t, hx, hg⟩ => .bind_right hx hg⟩
  rw [Fails, bind_apply] at h
  rw [Fails]
  revert h
  rcases x s with ⟨e | a, t⟩
  · exact fun h => .inl (congrArg Except.error (Except.error.inj h))
  · exact fun h => .inr ⟨a, t, rfl, h⟩

theorem not_fails_pure {a : α} : ¬Fails (pure a) s f := nofun

end

theorem fails_value_iff : Fails (value ev n) s f ↔ Fails (ev n) s f ∨
    ∃ v t, ev n s = (.ok v, t) ∧ v.isResult = false ∧
      f = .runtime (.mismatch .noValue) n.line? := by
  rw [value, fails_bind_iff]
  refine or_congr_right (exists₂_congr fun v t => and_congr_right fun _ => ?_)
  cases v.isResult with
  | true => exact iff_of_false not_fails_pure nofun
  | false => exact ⟨fun h => ⟨rfl, (Except.error.inj h).symm⟩, fun h => congrArg _ h.2.symm⟩

/-- No fault of the computation has a line: it evaluates no nodes. -/
def Plain (x : Eval α) : Prop := ∀ s f, Fails x s f → f.lineless = f

namespace Plain

variable {x : Eval α} {g : α → Eval β}

theorem lift {r : Except Fault α} (hr : Bare r) : Plain (Eval.lift r) := by
  intro s f h
  rw [show r = .error f from h] at hr
  exact (Except.error.inj hr).symm

theorem fail (cause : RuntimeCause) : Plain (Eval.fail cause : Eval α) := by
  intro s f h
  rw [← Except.error.inj h]
  rfl

theorem pure (a : α) : Plain (Pure.pure a : Eval α) := fun _ _ h => absurd h not_fails_pure

theorem bind (hx : Plain x) (hg : ∀ a, Plain (g a)) : Plain (x >>= g) := fun s f h =>
  (fails_bind_iff.mp h).elim (hx s f) fun ⟨a, t, _, ha⟩ => hg a t f ha

theorem freshIdentity : Plain Eval.freshIdentity := fun _ _ h => nomatch h

theorem lookup (name : String) : Plain (Eval.lookup name) := by
  have hlookup : Plain (Eval.lookup? name) := fun s f h => by cases h
  refine hlookup.bind fun o => ?_
  cases o with
  | none => exact fail _
  | some v => exact pure v

theorem assign (name : String) (v : Value) : Plain (Eval.assign name v) := by
  intro s f h
  rw [Fails, assign_apply] at h
  cases ha : s.environment.assign? name v with
  | none =>
    rw [ha] at h
    exact fail _ s f h
  | some e =>
    rw [ha] at h
    cases h

theorem arrayVariable (context : String) (n : Node) : Plain (Eval.arrayVariable context n) := by
  rw [Eval.arrayVariable]
  cases n.name? with
  | none => exact fail _
  | some name =>
    exact (lookup name).bind fun v => (lift (Value.bare_toItems _ v)).bind fun items => pure _

theorem settle (name : String) {make : Value → Except Fault Value}
    (hmake : ∀ old, Bare (make old)) : Plain (settle name make) :=
  (lookup name).bind fun old => (lift (hmake old)).bind fun new => by
    split
    · exact assign name new
    · exact fail _

end Plain

/-! ## Lists of parts -/

/-- The values of a list are needed in turn: the one of `m` in the state `t`. -/
inductive Lists (ev : Node → Eval Value) : List Node → State → Node → State → Prop where
  | here {m : Node} {ns : List Node} {s : State} : Lists ev (m :: ns) s m s
  | later {n m : Node} {ns : List Node} {s t u : State} {v : Value} :
    value ev n s = (.ok v, t) → Lists ev ns t m u → Lists ev (n :: ns) s m u

/-- Arguments are bound to parameters in turn, where `m` is next in the state `t`. -/
inductive Passes (ev : Node → Eval Value) :
    List String → List Node → State → Node → State → Prop where
  | here {x : String} {xs : List String} {m : Node} {ns : List Node} {s : State} :
    Passes ev (x :: xs) (m :: ns) s m s
  | later {x : String} {xs : List String} {n m : Node} {ns : List Node} {s t u : State}
    {v : Value} : value ev n s = (.ok v, t) → Passes ev xs ns (define x v t).2 m u →
    Passes ev (x :: xs) (n :: ns) s m u

theorem statements_fails_iff {last : Value} (hlast : ¬last.isBreak = true) :
    Fails (statements ev ns last) s f ↔ ∃ before m after v t, ns = before ++ m :: after ∧
      statements ev before last s = (.ok v, t) ∧ ¬v.isBreak = true ∧ Fails (ev m) t f := by
  constructor
  · intro h
    induction ns generalizing s last with
    | nil => exact absurd h not_fails_pure
    | cons n ns ih =>
      rw [statements] at h
      rcases fails_bind_iff.mp h with h | ⟨v, t, hv, h⟩
      · exact ⟨[], n, ns, last, s, rfl, rfl, hlast, h⟩
      · by_cases hbreak : v.isBreak = true
        · rw [if_pos hbreak] at h
          exact absurd h not_fails_pure
        · rw [if_neg hbreak] at h
          obtain ⟨before, m, after, w, u, rfl, hbefore, hw, hm⟩ := ih hbreak h
          refine ⟨n :: before, m, after, w, u, rfl, ?_, hw, hm⟩
          rw [statements, bind_apply, hv]
          exact (congrFun (if_neg hbreak) t).trans hbefore
  · rintro ⟨before, m, after, v, t, rfl, hbefore, hv, hm⟩
    rw [statements_append _ _ hlast]
    refine .bind_right hbefore ?_
    rw [if_neg hv]
    exact hm.bind_left

theorem enters_fails_iff : Fails (statements ev ns .absent) s f ↔
    ∃ m t, Enters ev ns s m t ∧ Fails (ev m) t f := by
  have habsent : ¬Value.absent.isBreak = true := nofun
  rw [statements_fails_iff habsent]
  constructor
  · rintro ⟨before, m, after, v, t, hns, hbefore, hv, hm⟩
    exact ⟨m, t, ⟨before, after, v, hns, hbefore, hv⟩, hm⟩
  · rintro ⟨m, t, ⟨before, after, v, hns, hbefore, hv⟩, hm⟩
    exact ⟨before, m, after, v, t, hns, hbefore, hv, hm⟩

theorem Enters.mem (h : Enters ev ns s m t) : m ∈ ns := by
  obtain ⟨before, after, _, rfl, _⟩ := h
  exact List.mem_append_right _ (List.mem_cons_self ..)

theorem program_fails_iff : Fails (program ev ns) s f ↔
    ∃ m t, Enters ev ns s m t ∧ Fails (ev m) t f := by
  rw [← enters_fails_iff, program, fails_bind_iff]
  refine or_iff_left ?_
  rintro ⟨_, _, _, h⟩
  exact not_fails_pure h

theorem values_fails_iff : Fails (values ev ns) s f ↔
    ∃ m t, Lists ev ns s m t ∧ Fails (value ev m) t f := by
  induction ns generalizing s with
  | nil => exact iff_of_false not_fails_pure nofun
  | cons n ns ih =>
    rw [values, fails_bind_iff]
    constructor
    · rintro (h | ⟨v, t, hv, h⟩)
      · exact ⟨n, s, .here, h⟩
      · rcases fails_bind_iff.mp h with h | ⟨_, _, _, h⟩
        · obtain ⟨m, u, hlists, hm⟩ := ih.mp h
          exact ⟨m, u, .later hv hlists, hm⟩
        · exact absurd h not_fails_pure
    · rintro ⟨m, u, hlists, hm⟩
      cases hlists with
      | here => exact .inl hm
      | later hv hlists => exact .inr ⟨_, _, hv, (ih.mpr ⟨m, u, hlists, hm⟩).bind_left⟩

theorem bindArguments_fails_iff {xs : List String} : Fails (bindArguments ev xs ns) s f ↔
    ∃ m t, Passes ev xs ns s m t ∧ Fails (value ev m) t f := by
  induction ns generalizing xs s with
  | nil => cases xs <;> exact iff_of_false not_fails_pure nofun
  | cons n ns ih =>
    cases xs with
    | nil => exact iff_of_false not_fails_pure nofun
    | cons x xs =>
      rw [bindArguments, fails_bind_iff]
      constructor
      · rintro (h | ⟨v, t, hv, h⟩)
        · exact ⟨n, s, .here, h⟩
        · obtain ⟨m, u, hpasses, hm⟩ := ih.mp h
          exact ⟨m, u, .later hv hpasses, hm⟩
      · rintro ⟨m, u, hpasses, hm⟩
        cases hpasses with
        | here => exact .inl hm
        | later hv hpasses => exact .inr ⟨_, _, hv, ih.mpr ⟨m, u, hpasses, hm⟩⟩

/-! ## Loops -/

theorem test_fails {context : String} (h : Fails (test ev context n) s f) :
    Fails (ev n) s f ∨ f.lineless = f := by
  rcases fails_bind_iff.mp h with h | ⟨v, t, _, h⟩
  · exact .inl h
  · cases v with
    | bool b => exact absurd h not_fails_pure
    | _ => exact .inr (Plain.fail _ _ _ h)

theorem Rounds.fails {condition : Node} {body : List Node} {done : Nat}
    (h : Rounds ev condition body done s t) (hcount : done < count)
    (hfails : Fails (test ev "while" condition) t f ∨ ∃ u,
      test ev "while" condition t = (.ok true, u) ∧ Fails (block ev body) u f) :
    Fails (rounds ev condition body count) s f := by
  induction h generalizing count with
  | none =>
    obtain ⟨count, rfl⟩ := Nat.exists_eq_add_of_lt hcount
    rw [Nat.zero_add, rounds]
    rcases hfails with htest | ⟨u, htest, hbody⟩
    · exact htest.bind_left
    · exact .bind_right htest hbody.bind_left
  | more hfirst hblock hv _ ih =>
    cases count with
    | zero => exact absurd hcount (Nat.not_lt_zero _)
    | succ count =>
      refine .bind_right hfirst (.bind_right hblock ?_)
      rw [if_neg hv]
      exact ih (Nat.lt_of_succ_lt_succ hcount) hfails

/-- A loop fails in a test or in the body of some round, or for want of further rounds. -/
theorem rounds_fails {condition : Node} {body : List Node}
    (h : Fails (rounds ev condition body count) s f) : f = .iterationLimit ∨
      ∃ done t, done < count ∧ Rounds ev condition body done s t ∧
        (Fails (test ev "while" condition) t f ∨ ∃ u,
          test ev "while" condition t = (.ok true, u) ∧ Fails (block ev body) u f) := by
  induction count generalizing s with
  | zero => exact .inl (Except.error.inj h).symm
  | succ count ih =>
    rw [rounds] at h
    rcases fails_bind_iff.mp h with h | ⟨b, t, htest, h⟩
    · exact .inr ⟨0, s, Nat.succ_pos _, .none, .inl h⟩
    · cases b with
      | false => exact absurd h not_fails_pure
      | true =>
        rcases fails_bind_iff.mp h with h | ⟨v, u, hblock, h⟩
        · exact .inr ⟨0, s, Nat.succ_pos _, .none, .inr ⟨t, htest, h⟩⟩
        · by_cases hv : v.isBreak = true
          · rw [if_pos hv] at h
            exact absurd h not_fails_pure
          · rw [if_neg hv] at h
            refine (ih h).imp_right ?_
            rintro ⟨done, w, hdone, hrounds, hw⟩
            exact ⟨done + 1, w, Nat.succ_lt_succ hdone, .more htest hblock hv hrounds, hw⟩

/-! ## Parts of a node -/

/-- In the state `s` the call of `callee` with `arguments` runs `body` on parameters `xs`. -/
def Calls (callee arguments : Node) (s : State) (xs : List String) (body : Node) : Prop :=
  ∃ name identity, callee.name? = some name ∧ name ≠ "push" ∧ name ≠ "len" ∧
    s.environment.lookup? name = some (.function identity xs body) ∧
    arguments.children.length = xs.length

/-- The rule of `n`, begun in the state `s`, comes to the part `m` in the state `t`; the flag
tells whether it needs a value of the part or any end will do. -/
inductive Part (ev : Node → Eval Value) (count : Nat) :
    Node → State → Bool → Node → State → Prop where
  -- Operands and elements.
  | element {ns : List Node} {line : Option Nat} {m : Node} {s t : State} :
    Lists ev ns s m t → Part ev count (.array ns line) s true m t
  | operand {op : Leaf} {line : Option Nat} {m : Node} {s : State} :
    Part ev count (.unary op m line) s true m s
  | left {op : Leaf} {r m : Node} {line : Option Nat} {s : State} :
    ¬(op.text = "+=" ∨ op.text = "-=") → Part ev count (.binary op m r line) s true m s
  | right {op : Leaf} {l m : Node} {line : Option Nat} {s t : State} {v : Value} :
    ¬(op.text = "+=" ∨ op.text = "-=") → value ev l s = (.ok v, t) → op.text ≠ "." →
    Part ev count (.binary op l m line) s true m t
  | collection {b m : Node} {line : Option Nat} {s : State} :
    Part ev count (.index m b line) s true m s
  | position {a m : Node} {line : Option Nat} {s t : State} {items : List Value} :
    value ev a s = (.ok (.array items), t) → Part ev count (.index a m line) s true m t
  -- Calls: the item of a push is the only argument of a built-in function that is evaluated.
  | item {f a target m : Node} {line : Option Nat} {s : State} : f.name? = some "push" →
    a.children = [target, m] → Part ev count (.call f a line) s true m s
  | argument {f a body m : Node} {line : Option Nat} {s t : State} {xs : List String} :
    Calls f a s xs body → Passes ev xs a.children s.push m t →
    Part ev count (.call f a line) s true m t
  | bodyOfCall {f a body m : Node} {line : Option Nat} {s t u : State} {xs : List String} :
    Calls f a s xs body → bindArguments ev xs a.children s.push = (.ok (), t) →
    Enters ev body.children t m u →
    Part ev count (.call f a line) s false m u
  -- Statements.
  | wrapped {m : Node} {line : Option Nat} {s : State} :
    Part ev count (.expression m line) s false m s
  | printed {m : Node} {line : Option Nat} {s : State} : Part ev count (.print m line) s true m s
  | bound {target kind m : Node} {name : String} {line : Option Nat} {s : State} :
    target.name? = some name →
    Binding.ofNode kind = .fresh ∨ (s.environment.lookup? name).isSome = true →
    Part ev count (.declaration target kind m line) s true m s
  | condition {b c m : Node} {line : Option Nat} {s : State} :
    Part ev count (.branch m b c line) s false m s
  | consequence {a b c m : Node} {line : Option Nat} {s t u : State} :
    test ev "if" a s = (.ok true, t) → Enters ev b.children t.push m u →
    Part ev count (.branch a b c line) s false m u
  | alternative {a b c m : Node} {line : Option Nat} {s t u : State} :
    test ev "if" a s = (.ok false, t) → Enters ev c.children t.push m u →
    Part ev count (.branch a b c line) s false m u
  -- Loops: a part is reached in each round that the bound allows.
  | guard {b m : Node} {line : Option Nat} {s t : State} {done : Nat} :
    done < count → Rounds ev m b.children done s t → Part ev count (.loop m b line) s false m t
  | bodyOfLoop {a b m : Node} {line : Option Nat} {s t u w : State} {done : Nat} :
    done < count → Rounds ev a b.children done s t → test ev "while" a t = (.ok true, u) →
    Enters ev b.children u.push m w → Part ev count (.loop a b line) s false m w
  -- Blocks.
  | statement {ns : List Node} {m : Node} {line : Option Nat} {s t : State} :
    Enters ev ns s.push m t → Part ev count (.block ns line) s false m t

/-- What a rule asks of a part. -/
def request (ev : Node → Eval Value) (needed : Bool) (m : Node) : Eval Value :=
  if needed then value ev m else ev m

theorem lookup_of_isSome {name : String} (h : (s.environment.lookup? name).isSome = true) :
    ∃ v, lookup name s = (.ok v, s) := by
  obtain ⟨v, hv⟩ := Option.isSome_iff_exists.mp h
  exact ⟨v, lookup_of_bound hv⟩

theorem lookup_ok {name : String} (h : lookup name s = (.ok v, t)) :
    t = s ∧ (s.environment.lookup? name).isSome = true := by
  cases hname : s.environment.lookup? name with
  | none => cases (lookup_of_unbound hname).symm.trans h
  | some w =>
    cases (lookup_of_bound hname).symm.trans h
    exact ⟨rfl, rfl⟩

theorem Calls.run {callee arguments body : Node} {xs : List String} {line : Option Nat}
    (h : Calls callee arguments s xs body) : node ev count (.call callee arguments line) s =
      callFunction ev xs body.children arguments.children s := by
  obtain ⟨name, identity, hname, hpush, hlen, hbody, harity⟩ := h
  have hread : lookup? name s = (.ok (some (.function identity xs body)), s) :=
    congrArg (fun o => (Except.ok o, s)) hbody
  simp only [node, hname, call, if_neg hpush, if_neg hlen]
  rw [bind_apply, hread]
  dsimp only
  rw [if_pos harity]

/-- A call fails in an argument or in a statement of the body. -/
theorem callFunction_fails_iff {xs : List String} {body arguments : List Node} :
    Fails (callFunction ev xs body arguments) s f ↔
      (∃ m t, Passes ev xs arguments s.push m t ∧ Fails (value ev m) t f) ∨
      ∃ u m t, bindArguments ev xs arguments s.push = (.ok (), u) ∧ Enters ev body u m t ∧
        Fails (ev m) t f := by
  have hinside : Fails (callFunction ev xs body arguments) s f ↔
      Fails (bindArguments ev xs arguments >>= fun _ => statements ev body .absent) s.push f := by
    rw [callFunction, fails_bind_iff]
    refine or_iff_left ?_
    rintro ⟨_, _, _, h⟩
    exact not_fails_pure h
  rw [hinside, fails_bind_iff, bindArguments_fails_iff]
  refine or_congr_right ⟨?_, ?_⟩
  · rintro ⟨_, u, hbind, h⟩
    obtain ⟨m, t, henters, hm⟩ := enters_fails_iff.mp h
    exact ⟨u, m, t, hbind, henters, hm⟩
  · rintro ⟨u, m, t, hbind, henters, hm⟩
    exact ⟨(), u, hbind, enters_fails_iff.mpr ⟨m, t, henters, hm⟩⟩

theorem declare_fails {name : String} {binding : Binding}
    (hbound : binding = .fresh ∨ (s.environment.lookup? name).isSome = true)
    (h : Fails (value ev n) s f) : Fails (declare ev name n binding) s f := by
  cases binding with
  | fresh => exact h.bind_left
  | again | combine op =>
    obtain ⟨v, hv⟩ := lookup_of_isSome (hbound.resolve_left nofun)
    exact .bind_right hv h.bind_left

/-- A node fails with its part. -/
theorem Part.fails (h : Part ev count n s needed m t) (hm : Fails (request ev needed m) t f) :
    Fails (node ev count n) s f := by
  cases h with
  | element hlists => exact (values_fails_iff.mpr ⟨m, t, hlists, hm⟩).bind_left
  | operand | collection | printed => exact hm.bind_left
  | left hop =>
    rw [node, binary, if_neg hop]
    exact hm.bind_left
  | right hop hleft hdot =>
    rw [node, binary, if_neg hop]
    refine .bind_right hleft ?_
    rw [if_neg hdot]
    exact hm.bind_left
  | position hcollection => exact .bind_right hcollection (.bind_right rfl hm.bind_left)
  | item hname harguments =>
    simp only [node, hname, call, if_pos, harguments]
    exact hm.bind_left
  | argument hcall hpasses =>
    rw [Fails, hcall.run]
    exact callFunction_fails_iff.mpr (.inl ⟨m, t, hpasses, hm⟩)
  | bodyOfCall hcall hbind henters =>
    rw [Fails, hcall.run]
    exact callFunction_fails_iff.mpr (.inr ⟨_, m, t, hbind, henters, hm⟩)
  | wrapped => exact hm
  | bound hname hbound =>
    rw [node, declaration, hname]
    exact (declare_fails hbound hm).bind_left
  | condition => exact hm.bind_left.bind_left
  | consequence htest henters =>
    exact .bind_right htest (enters_fails_iff.mpr ⟨m, t, henters, hm⟩)
  | alternative htest henters =>
    exact .bind_right htest (enters_fails_iff.mpr ⟨m, t, henters, hm⟩)
  | guard hdone hrounds => exact hrounds.fails hdone (.inl hm.bind_left)
  | bodyOfLoop hdone hrounds htest henters =>
    exact hrounds.fails hdone (.inr ⟨_, htest, enters_fails_iff.mpr ⟨m, t, henters, hm⟩⟩)
  | statement henters => exact enters_fails_iff.mpr ⟨m, t, henters, hm⟩

/-- A node fails for itself, without a line, or with one of its parts. -/
def Explained (ev : Node → Eval Value) (count : Nat) (n : Node) (s : State) (f : Fault) : Prop :=
  f.lineless = f ∨ ∃ needed m t, Part ev count n s needed m t ∧ Fails (request ev needed m) t f

theorem index_explained {a b : Node} {line : Option Nat} (h : Fails (index ev a b) s f) :
    Explained ev count (.index a b line) s f := by
  rcases fails_bind_iff.mp h with h | ⟨v, t, hv, h⟩
  · exact .inr ⟨true, a, s, .collection, h⟩
  rcases fails_bind_iff.mp h with h | ⟨items, u, hitems, h⟩
  · exact .inl (Plain.lift (Value.bare_toItems _ v) _ _ h)
  · cases v with
    | array vs =>
      cases hitems
      rcases fails_bind_iff.mp h with h | ⟨w, r, _, h⟩
      · exact .inr ⟨true, b, t, .position hv, h⟩
      · exact .inl (((Plain.lift (Value.bare_toIndex w)).bind fun i =>
          .lift (Value.bare_itemAt items i)) _ _ h)
    | _ => cases hitems

theorem binary_explained {op : Leaf} {l r : Node} {line : Option Nat}
    (h : Fails (binary ev op.text l r) s f) : Explained ev count (.binary op l r line) s f := by
  rw [binary] at h
  by_cases hop : op.text = "+=" ∨ op.text = "-="
  · rw [if_pos hop] at h
    exact .inl (Plain.fail _ _ _ h)
  rw [if_neg hop] at h
  rcases fails_bind_iff.mp h with h | ⟨a, t, ha, h⟩
  · exact .inr ⟨true, l, s, .left hop, h⟩
  by_cases hdot : op.text = "."
  · rw [if_pos hdot] at h
    exact .inl (Plain.fail _ _ _ h)
  rw [if_neg hdot] at h
  rcases fails_bind_iff.mp h with h | ⟨b, u, _, h⟩
  · exact .inr ⟨true, r, t, .right hop ha hdot, h⟩
  · exact .inl (Plain.lift (Value.bare_applyBinary op.text a b) _ _ h)

/-- Binding again fails for itself unless the name is bound and its new value fails. -/
theorem rebind_explained {name : String} {g : Value → Eval Unit} (hg : ∀ v, Plain (g v))
    (h : Fails (lookup name >>= fun _ => value ev n >>= g) s f) :
    f.lineless = f ∨
      (s.environment.lookup? name).isSome = true ∧ Fails (value ev n) s f := by
  rcases fails_bind_iff.mp h with h | ⟨_, t, hv, hrest⟩
  · exact .inl (Plain.lookup name _ _ h)
  obtain ⟨rfl, hsome⟩ := lookup_ok hv
  rcases fails_bind_iff.mp hrest with h | ⟨v, _, _, h⟩
  · exact .inr ⟨hsome, h⟩
  · exact .inl (hg v _ _ h)

theorem declare_explained {name : String} {binding : Binding}
    (h : Fails (declare ev name n binding) s f) : f.lineless = f ∨
      (binding = .fresh ∨ (s.environment.lookup? name).isSome = true) ∧
        Fails (value ev n) s f := by
  cases binding with
  | fresh =>
    rcases fails_bind_iff.mp h with h | ⟨_, _, _, h⟩
    · exact .inr ⟨.inl rfl, h⟩
    · cases h
  | again =>
    have hplain (new : Value) := Plain.settle name fun _ => (rfl : Bare (.ok new))
    exact (rebind_explained hplain h).imp_right (.imp_left .inr)
  | combine op =>
    have hplain (operand : Value) :=
      Plain.settle name fun old => Value.bare_applyBinary op old operand
    exact (rebind_explained hplain h).imp_right (.imp_left .inr)

theorem declaration_explained {target kind : Node} {line : Option Nat}
    (h : Fails (declaration ev target kind n) s f) :
    Explained ev count (.declaration target kind n line) s f := by
  rw [declaration] at h
  cases hname : target.name? with
  | none =>
    rw [hname] at h
    exact .inl (Plain.fail _ _ _ h)
  | some name =>
    rw [hname] at h
    rcases fails_bind_iff.mp h with h | ⟨_, _, _, h⟩
    · refine (declare_explained h).imp_right ?_
      rintro ⟨hbound, h⟩
      exact ⟨true, n, s, .bound hname hbound, h⟩
    · exact absurd h not_fails_pure

theorem call_explained {callee arguments : Node} {name : String} {line : Option Nat}
    (hname : callee.name? = some name) (h : Fails (call ev name arguments.children) s f) :
    Explained ev count (.call callee arguments line) s f := by
  unfold call at h
  by_cases hpush : name = "push"
  · rw [if_pos hpush] at h
    split at h
    next target item harguments =>
      rcases fails_bind_iff.mp h with h | ⟨v, t, _, h⟩
      · exact .inr ⟨true, item, s, .item (hpush ▸ hname) harguments, h⟩
      · exact .inl (((Plain.arrayVariable "push" target).bind fun p =>
          (Plain.assign p.1 _).bind fun _ => .pure v) _ _ h)
    next => exact .inl (Plain.fail _ _ _ h)
  rw [if_neg hpush] at h
  by_cases hlen : name = "len"
  · rw [if_pos hlen] at h
    split at h
    next target harguments =>
      exact .inl (((Plain.arrayVariable "len" target).bind fun p => .pure _) _ _ h)
    next => exact .inl (Plain.fail _ _ _ h)
  rw [if_neg hlen] at h
  rcases fails_bind_iff.mp h with h | ⟨o, t, ho, h⟩
  · cases h
  cases ho
  split at h
  next identity xs body hbody =>
    by_cases harity : arguments.children.length = xs.length
    · rw [if_pos harity] at h
      have hcall : Calls callee arguments s xs body :=
        ⟨name, identity, hname, hpush, hlen, hbody, harity⟩
      rcases callFunction_fails_iff.mp h with ⟨m, t, hpasses, hm⟩ | ⟨u, m, t, hbind, henters, hm⟩
      · exact .inr ⟨true, m, t, .argument hcall hpasses, hm⟩
      · exact .inr ⟨false, m, t, .bodyOfCall hcall hbind henters, hm⟩
    · rw [if_neg harity] at h
      exact .inl (Plain.fail _ _ _ h)
  next => exact .inl (Plain.fail _ _ _ h)

theorem node_explained (h : Fails (node ev count n) s f) : Explained ev count n s f := by
  cases n with
  | leaf l =>
    rw [node, leaf] at h
    cases hname : l.name? with
    | none =>
      rw [hname] at h
      exact .inl (Plain.fail _ _ _ h)
    | some name =>
      rw [hname] at h
      exact .inl (Plain.lookup name _ _ h)
  | bare _ | arguments _ _ | parameters _ _ | other _ _ _ => exact .inl (Plain.fail _ _ _ h)
  | literal _ _ | exit _ => exact absurd h not_fails_pure
  | array ns _ =>
    rcases fails_bind_iff.mp h with h | ⟨_, _, _, h⟩
    · obtain ⟨m, t, hlists, hm⟩ := values_fails_iff.mp h
      exact .inr ⟨true, m, t, .element hlists, hm⟩
    · exact absurd h not_fails_pure
  | unary op n _ =>
    rcases fails_bind_iff.mp h with h | ⟨v, _, _, h⟩
    · exact .inr ⟨true, n, s, .operand, h⟩
    · exact .inl (Plain.lift (Value.bare_applyUnary op.text v) _ _ h)
  | binary op l r _ => exact binary_explained h
  | index a b _ => exact index_explained h
  | call callee arguments _ =>
    rw [node] at h
    cases hname : callee.name? with
    | none =>
      rw [hname] at h
      exact .inl (Plain.fail _ _ _ h)
    | some name =>
      rw [hname] at h
      exact call_explained hname h
  | function a b _ =>
    exact .inl (((Plain.lift (Moves.bare_parameterNames _)).bind fun names =>
      Plain.freshIdentity.bind fun identity => .pure _) _ _ h)
  | expression n _ => exact .inr ⟨false, n, s, .wrapped, h⟩
  | print n _ =>
    rcases fails_bind_iff.mp h with h | ⟨v, _, _, h⟩
    · exact .inr ⟨true, n, s, .printed, h⟩
    · rcases fails_bind_iff.mp h with h | ⟨_, _, _, h⟩
      · exact .inl (Plain.lift (Value.bare_display? v) _ _ h)
      · cases h
  | declaration target kind n _ => exact declaration_explained h
  | branch a b c _ =>
    rcases fails_bind_iff.mp h with h | ⟨t, u, htest, h⟩
    · exact (test_fails h).symm.imp_right fun h => ⟨false, a, s, .condition, h⟩
    · cases t with
      | true =>
        obtain ⟨m, w, henters, hm⟩ := enters_fails_iff.mp h
        exact .inr ⟨false, m, w, .consequence htest henters, hm⟩
      | false =>
        obtain ⟨m, w, henters, hm⟩ := enters_fails_iff.mp h
        exact .inr ⟨false, m, w, .alternative htest henters, hm⟩
  | loop a b _ =>
    rcases rounds_fails h with rfl | ⟨done, t, hdone, hrounds, h | ⟨u, htest, h⟩⟩
    · exact .inl rfl
    · exact (test_fails h).symm.imp_right fun h => ⟨false, a, t, .guard hdone hrounds, h⟩
    · obtain ⟨m, w, henters, hm⟩ := enters_fails_iff.mp h
      exact .inr ⟨false, m, w, .bodyOfLoop hdone hrounds htest henters, hm⟩
  | block ns _ =>
    obtain ⟨m, t, henters, hm⟩ := enters_fails_iff.mp h
    exact .inr ⟨false, m, t, .statement henters, hm⟩

/-! ## Trails -/

/-- The line of the innermost node that has one, on a path from the outermost node inwards. -/
def innermostLine (path : List Node) : Option Nat := path.reverse.findSome? Node.line?

theorem innermostLine_cons (n : Node) (path : List Node) :
    innermostLine (n :: path) = (innermostLine path).or n.line? := by
  rw [innermostLine, innermostLine, List.reverse_cons, List.findSome?_append,
    List.findSome?_singleton]

/-- Evaluating `n` from the state `s`, with `depth` levels left, meets a run-time error when
the nodes of a path are under evaluation, `n` first. -/
inductive Trail (rounds : Nat) : Nat → Node → State → List Node → RuntimeCause → Prop where
  /-- The rule of `n` fails, and none of the parts that it comes to. -/
  | own {depth : Nat} {n : Node} {s : State} {cause : RuntimeCause} :
    Fails (node (evalNode rounds depth) rounds n) s (.runtime cause none) →
    (∀ needed m t f, Part (evalNode rounds depth) rounds n s needed m t →
      ¬Fails (request (evalNode rounds depth) needed m) t f) →
    Trail rounds (depth + 1) n s [n] cause
  /-- The rule of `n` needs a value of a part that has none. -/
  | noValue {depth : Nat} {n m : Node} {s t u : State} {v : Value} :
    Part (evalNode rounds depth) rounds n s true m t →
    evalNode rounds depth m t = (.ok v, u) → v.isResult = false →
    Trail rounds (depth + 1) n s [n, m] (.mismatch .noValue)
  | inside {depth : Nat} {needed : Bool} {n m : Node} {s t : State} {path : List Node}
    {cause : RuntimeCause} :
    Part (evalNode rounds depth) rounds n s needed m t → Trail rounds depth m t path cause →
    Trail rounds (depth + 1) n s (n :: path) cause

variable {rounds depth : Nat} {path : List Node} {cause : RuntimeCause} {line : Option Nat}

theorem fails_succ_iff : Fails (evalNode rounds (depth + 1) n) s f ↔
    ∃ g, Fails (node (evalNode rounds depth) rounds n) s g ∧ g.locate n.line? = f := by
  rw [Fails, evalNode, located]
  constructor
  · intro h
    rcases hrun : node (evalNode rounds depth) rounds n s with ⟨g | _, t⟩
    · rw [hrun] at h
      exact ⟨g, congrArg Prod.fst hrun, Except.error.inj h⟩
    · rw [hrun] at h
      cases h
  · rintro ⟨g, hg, rfl⟩
    rcases hrun : node (evalNode rounds depth) rounds n s with ⟨_ | _, t⟩
    · rw [Fails, hrun] at hg
      cases hg
      rfl
    · rw [Fails, hrun] at hg
      cases hg

/-- A node hands on the line of its part, and puts its own where there is none. -/
theorem locate_eq_iff {g : Fault} {line' : Option Nat} :
    g.locate line' = .runtime cause line ↔ ∃ l, g = .runtime cause l ∧ l.or line' = line := by
  constructor
  · intro h
    cases g with
    | runtime c l => cases l <;> cases h <;> exact ⟨_, rfl, rfl⟩
    | _ => cases h
  · rintro ⟨_ | l, rfl, rfl⟩ <;> rfl

theorem request_of_fails (h : Fails (ev m) t f) (needed : Bool) :
    Fails (request ev needed m) t f := by
  cases needed with
  | true => exact h.bind_left
  | false => exact h

theorem Trail.fails (h : Trail rounds depth n s path cause) :
    Fails (evalNode rounds depth n) s (.runtime cause (innermostLine path)) := by
  induction h with
  | @own depth n s cause hrule _ =>
    exact fails_succ_iff.mpr
      ⟨_, hrule, locate_eq_iff.mpr ⟨none, rfl, (innermostLine_cons n []).symm⟩⟩
  | @noValue depth n m s t u v hpart hm hv =>
    have hvalue := fails_value_iff.mpr (.inr ⟨v, u, hm, hv, rfl⟩)
    refine fails_succ_iff.mpr ⟨_, hpart.fails hvalue, locate_eq_iff.mpr ⟨_, rfl, ?_⟩⟩
    rw [innermostLine_cons, innermostLine_cons]
    rfl
  | inside hpart _ ih =>
    exact fails_succ_iff.mpr ⟨_, hpart.fails (request_of_fails ih _),
      locate_eq_iff.mpr ⟨_, rfl, (innermostLine_cons _ _).symm⟩⟩

theorem Trail.head (h : Trail rounds depth n s path cause) : ∃ rest, path = n :: rest := by
  cases h <;> exact ⟨_, rfl⟩

/-- A part fails for itself, or for want of a value. -/
theorem exists_path_of_part {needed : Bool}
    (ih : ∀ {m : Node} {t : State} {line : Option Nat},
      Fails (evalNode rounds depth m) t (.runtime cause line) →
      ∃ path, Trail rounds depth m t path cause ∧ innermostLine path = line)
    (hpart : Part (evalNode rounds depth) rounds n s needed m t)
    (hm : Fails (request (evalNode rounds depth) needed m) t (.runtime cause line)) :
    ∃ path, Trail rounds (depth + 1) n s (n :: path) cause ∧ innermostLine path = line := by
  cases needed with
  | false =>
    obtain ⟨path, htrail, hline⟩ := ih hm
    exact ⟨path, .inside hpart htrail, hline⟩
  | true =>
    rcases fails_value_iff.mp hm with hpath | ⟨v, u, hend, hv, hf⟩
    · obtain ⟨path, htrail, hline⟩ := ih hpath
      exact ⟨path, .inside hpart htrail, hline⟩
    · obtain ⟨rfl, rfl⟩ := Fault.runtime.inj hf
      exact ⟨[m], .noValue hpart hend hv, innermostLine_cons m []⟩

theorem exists_trail (h : Fails (evalNode rounds depth n) s (.runtime cause line)) :
    ∃ path, Trail rounds depth n s path cause ∧ innermostLine path = line := by
  induction depth generalizing n s line with
  | zero => cases h
  | succ depth ih =>
    obtain ⟨g, hg, hlocate⟩ := fails_succ_iff.mp h
    obtain ⟨l, rfl, rfl⟩ := locate_eq_iff.mp hlocate
    by_cases hparts : ∃ needed m t f, Part (evalNode rounds depth) rounds n s needed m t ∧
        Fails (request (evalNode rounds depth) needed m) t f
    · obtain ⟨needed, m, t, f, hpart, hm⟩ := hparts
      obtain rfl : f = .runtime cause l := Except.error.inj ((hpart.fails hm).symm.trans hg)
      obtain ⟨path, htrail, rfl⟩ := exists_path_of_part ih hpart hm
      exact ⟨n :: path, htrail, innermostLine_cons n path⟩
    · have hown := fun needed m t f hpart hm => hparts ⟨needed, m, t, f, hpart, hm⟩
      rcases node_explained hg with hbare | ⟨needed, m, t, hpart, hm⟩
      · obtain rfl := (Fault.runtime.inj hbare).2
        exact ⟨[n], .own hg hown, innermostLine_cons n []⟩
      · exact absurd hm (hown needed m t _ hpart)

/-- Run-time errors are those that have a trail, and carry the innermost line on it. -/
theorem fails_iff_trail : Fails (evalNode rounds depth n) s (.runtime cause line) ↔
    ∃ path, Trail rounds depth n s path cause ∧ innermostLine path = line :=
  ⟨exists_trail, fun ⟨_, htrail, hline⟩ => hline ▸ htrail.fails⟩

end Eval

end ScopeScript
