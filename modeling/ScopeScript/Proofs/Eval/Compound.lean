import ScopeScript.Proofs.Eval.Depth
import ScopeScript.Proofs.Eval.Frame
import ScopeScript.Proofs.Eval.Relocated

/-!
# Compound assignment

`x += e` reads `x` after `e`, and `x = x + e` before. Where `e` leaves the
value of `x` alone both end in the same way, whatever else `e` does and in
whichever order the errors of both arise: an unbound name, a fault of `e` or
no value of it, operands that cannot be combined, another variant.
-/

namespace ScopeScript

/-- `+=` and `-=`. -/
inductive Compound where
  | plus
  | minus

namespace Compound

/-- The operator that combines the old value with the operand. -/
def spelling : Compound → String
  | plus => "+"
  | minus => "-"

def operatorKind : Compound → Kind
  | plus => .plus
  | minus => .minus

def assignmentKind : Compound → Kind
  | plus => .plusAssign
  | minus => .minusAssign

def operator (c : Compound) : Leaf := ⟨c.operatorKind.label, c.spelling, none, none⟩

def assignment (c : Compound) : Leaf := ⟨c.assignmentKind.label, c.spelling ++ "=", none, none⟩

/-- `x += e` or `x -= e`. -/
def short (c : Compound) (x : Leaf) (e : Node) (line : Option Nat) : Node :=
  .declaration (.leaf x) (.leaf c.assignment) e line

/-- `x = x + e` or `x = x - e`. -/
def long (c : Compound) (x y : Leaf) (e : Node) (line line' : Option Nat) : Node :=
  .declaration (.leaf x) (.leaf ⟨Kind.assign.label, "=", none, none⟩)
    (.binary c.operator (.leaf y) e line') line

theorem ofNode_assignment (c : Compound) :
    Binding.ofNode (.leaf c.assignment) = .combine c.spelling := by
  cases c <;> rfl

end Compound

namespace Eval

variable {α β : Type} {s t : State} {name op : String} {old v : Value} {e n : Node}
  {ev : Node → Eval Value}

/-! ## Ends that differ in a line at most -/

/-- The same state, and the same result or faults that differ in their lines at most. -/
def SameButLine (p q : Except Fault α × State) : Prop :=
  p.2 = q.2 ∧ Fault.strip id p.1 = Fault.strip id q.1

theorem SameButLine.refl (p : Except Fault α × State) : SameButLine p p := ⟨rfl, rfl⟩

theorem SameButLine.of_eq {p q : Except Fault α × State} (h : p = q) : SameButLine p q :=
  h ▸ .refl p

theorem SameButLine.symm {p q : Except Fault α × State} (h : SameButLine p q) : SameButLine q p :=
  ⟨h.1.symm, h.2.symm⟩

theorem SameButLine.trans {p q r : Except Fault α × State} (h : SameButLine p q)
    (h' : SameButLine q r) : SameButLine p r :=
  ⟨h.1.trans h'.1, h.2.trans h'.2⟩

theorem SameButLine.limit {p q : Except Fault α × State} (h : SameButLine p q)
    (hq : q.1 = .error .nestingLimit) : p.1 = .error .nestingLimit := by
  have hresult := h.2
  rw [hq] at hresult
  cases hp : p.1 with
  | ok a =>
    rw [hp] at hresult
    cases hresult
  | error f =>
    rw [hp] at hresult
    have hf : f.lineless = .nestingLimit := Except.error.inj hresult
    cases f with
    | nestingLimit => rfl
    | _ => cases hf

theorem lineless_locate (line : Option Nat) (f : Fault) :
    (f.locate line).lineless = f.lineless := by
  unfold Fault.locate
  split <;> rfl

theorem located_sameButLine (line : Option Nat) (x : Eval α) (s : State) :
    SameButLine (located line x s) (x s) := by
  unfold located
  rcases x s with ⟨f | a, t⟩
  · exact ⟨rfl, congrArg Except.error (lineless_locate line f)⟩
  · exact .refl _

theorem SameButLine.bind {x y : Eval α} {f : α → Eval β} (h : SameButLine (x s) (y s)) :
    SameButLine ((x >>= f) s) ((y >>= f) s) := by
  rcases hx : x s with ⟨r, t⟩
  rcases hy : y s with ⟨r', t'⟩
  rw [hx, hy] at h
  obtain ⟨rfl, hresult⟩ := h
  cases r with
  | error fault => cases r' with
    | error fault' =>
      rw [bind_of_error hx, bind_of_error hy]
      exact ⟨rfl, congrArg Except.error (Except.error.inj hresult)⟩
    | ok a => cases hresult
  | ok a => cases r' with
    | error fault => cases hresult
    | ok a' =>
      obtain rfl : a = a' := Except.ok.inj hresult
      rw [bind_of_ok hx, bind_of_ok hy]
      exact .refl _

/-! ## Binding again -/

theorem declare_of_unbound (hname : s.environment.lookup? name = none) {binding : Binding}
    (hbinding : binding ≠ .fresh) : declare ev name n binding s =
      (.error (.runtime (.undefinedVariable name) none), s) := by
  cases binding with
  | fresh => exact absurd rfl hbinding
  | again | combine _ => exact bind_of_error (lookup_of_unbound hname)

theorem declare_again_of_bound (hname : s.environment.lookup? name = some old) :
    declare ev name n .again s =
      (value ev n >>= fun new => settle name fun _ => .ok new) s :=
  bind_of_ok (lookup_of_bound hname)

theorem declare_combine_of_bound (hname : s.environment.lookup? name = some old) :
    declare ev name n (.combine op) s =
      (value ev n >>= fun v => settle name fun old => old.applyBinary op v) s :=
  bind_of_ok (lookup_of_bound hname)

theorem settle_of_bound {f : Value → Except Fault Value}
    (hname : s.environment.lookup? name = some old) :
    settle name f s = (lift (f old) >>= fun new =>
      if new.variant = old.variant then assign name new
      else fail (.mismatch (.assignment new.variant name old.variant))) s :=
  bind_of_ok (lookup_of_bound hname)

/-- Combining uses the value that the name holds after its operand. -/
theorem declare_combine_apply {new : Value} (hname : (s.environment.lookup? name).isSome = true)
    (hn : value ev n s = (.ok v, t)) (hnew : t.environment.lookup? name = some new) :
    declare ev name n (.combine op) s = (lift (new.applyBinary op v) >>= fun u =>
      if u.variant = new.variant then assign name u
      else fail (.mismatch (.assignment u.variant name new.variant))) t := by
  obtain ⟨old, hold⟩ := Option.isSome_iff_exists.mp hname
  rw [declare_combine_of_bound hold, bind_of_ok hn, settle_of_bound hnew]

/-- What the value of a name makes can be found first and the name be bound again to it. -/
theorem settle_value {f : Value → Except Fault Value}
    (hname : s.environment.lookup? name = some old) :
    settle name f s = (lift (f old) >>= fun new => settle name fun _ => .ok new) s := by
  rw [settle_of_bound hname]
  cases f old with
  | error fault => rfl
  | ok new => exact (settle_of_bound (f := fun _ => .ok new) hname).symm

/-! ## The operand -/

theorem value_of_isResult (hn : ev n s = (.ok v, t)) (hv : v.isResult = true) :
    value ev n s = (.ok v, t) :=
  (bind_of_ok hn).trans (congrFun (if_pos hv) t)

theorem isResult_of_value (h : value ev n s = (.ok v, t)) :
    ev n s = (.ok v, t) ∧ v.isResult = true := by
  rcases hn : ev n s with ⟨f | w, u⟩
  · cases (bind_of_error hn).symm.trans h
  · have hw : (if w.isResult = true then (pure w : Eval Value)
        else throw (.runtime (.mismatch .noValue) n.line?)) u = (.ok v, t) :=
      (bind_of_ok hn).symm.trans h
    split at hw
    next hresult =>
      cases hw
      exact ⟨rfl, hresult⟩
    next => cases hw

/-- Combining two values gives one that a name can hold. -/
theorem value_combined (a b : Value) (f : Fault) :
    (lift (a.applyBinary op b) >>= fun v => if v.isResult then pure v else throw f) =
      lift (a.applyBinary op b) := by
  cases h : a.applyBinary op b with
  | error f => rfl
  | ok v => exact if_pos (Value.scalar_of_applyBinary h).genuine.isResult

theorem binary_spelling (c : Compound) (a b : Node) :
    binary ev c.spelling a b = value ev a >>= fun v => value ev b >>= fun w =>
      lift (v.applyBinary c.spelling w) := by
  cases c with
  | plus | minus =>
    unfold binary
    rw [if_neg (by decide)]
    rfl

theorem sum_sameButLine (c : Compound) (a b : Node) (line : Option Nat) (rounds d : Nat)
    (s : State) : SameButLine (value (evalNode rounds (d + 1)) (.binary c.operator a b line) s)
      ((value (evalNode rounds d) a >>= fun v => value (evalNode rounds d) b >>= fun w =>
        lift (v.applyBinary c.spelling w)) s) := by
  have hsum : SameButLine (evalNode rounds (d + 1) (.binary c.operator a b line) s)
      (binary (evalNode rounds d) c.spelling a b s) :=
    located_sameButLine line _ s
  have hvalue := hsum.bind (f := fun v => if v.isResult then pure v
    else throw (.runtime (.mismatch .noValue) line))
  rw [binary_spelling] at hvalue
  simp only [bind_assoc, value_combined] at hvalue
  exact hvalue

/-! ## Both forms -/

section
variable {rounds d : Nat} {x y : Leaf} (c : Compound) (hx : x.name? = some name)
  (line line' : Option Nat)
include hx

theorem evalNode_short : evalNode rounds (d + 1) (c.short x e line) =
    located line (declare (evalNode rounds d) name e (.combine c.spelling) >>= fun _ =>
      pure .absent) := by
  have hdeclaration : declaration (evalNode rounds d) (.leaf x) (.leaf c.assignment) e =
      declare (evalNode rounds d) name e (.combine c.spelling) >>= fun _ => pure .absent := by
    rw [declaration, Node.name?, hx, c.ofNode_assignment]
  exact congrArg (located line) hdeclaration

theorem evalNode_long : evalNode rounds (d + 1) (c.long x y e line line') =
    located line (declare (evalNode rounds d) name (.binary c.operator (.leaf y) e line') .again
      >>= fun _ => pure .absent) := by
  have hdeclaration : declaration (evalNode rounds d) (.leaf x)
      (.leaf ⟨Kind.assign.label, "=", none, none⟩) (.binary c.operator (.leaf y) e line') =
      declare (evalNode rounds d) name (.binary c.operator (.leaf y) e line') .again
        >>= fun _ => pure .absent := by
    rw [declaration, Node.name?, hx]
    rfl
  exact congrArg (located line) hdeclaration

theorem short_of_ok (h : declare (evalNode rounds d) name e (.combine c.spelling) s = (.ok (), t)) :
    evalNode rounds (d + 1) (c.short x e line) s = (.ok .absent, t) := by
  rw [evalNode_short c hx, located, bind_of_ok h]
  rfl

theorem short_of_error {f : Fault}
    (h : declare (evalNode rounds d) name e (.combine c.spelling) s = (.error f, t)) :
    evalNode rounds (d + 1) (c.short x e line) s = (.error (f.locate line), t) := by
  rw [evalNode_short c hx, located, bind_of_error h]

theorem short_of_unbound (hname : s.environment.lookup? name = none) :
    SameButLine (evalNode rounds (d + 1) (c.short x e line) s)
      (.error (.runtime (.undefinedVariable name) none), s) := by
  rw [evalNode_short c hx]
  refine (located_sameButLine line _ s).trans (.of_eq ?_)
  exact bind_of_error (declare_of_unbound hname nofun)

theorem long_of_unbound (hname : s.environment.lookup? name = none) :
    SameButLine (evalNode rounds (d + 1) (c.long x y e line line') s)
      (.error (.runtime (.undefinedVariable name) none), s) := by
  rw [evalNode_long c hx]
  refine (located_sameButLine line _ s).trans (.of_eq ?_)
  exact bind_of_error (declare_of_unbound hname nofun)

variable (hbound : s.environment.lookup? name = some old)
include hbound

/-- The short form combines the value that the name has after `e` with the value of `e`. -/
theorem short_sameButLine : SameButLine (evalNode rounds (d + 1) (c.short x e line) s)
    (((value (evalNode rounds d) e >>= fun v =>
      settle name fun old => old.applyBinary c.spelling v) >>= fun _ => pure .absent) s) := by
  rw [evalNode_short c hx]
  refine (located_sameButLine line _ s).trans (SameButLine.bind ?_)
  exact .of_eq (declare_combine_of_bound hbound)

/-- The long form binds the name again to the sum or the difference. -/
theorem long_sameButLine : SameButLine (evalNode rounds (d + 2) (c.long x y e line line') s)
    ((((value (evalNode rounds d) (.leaf y) >>= fun v => value (evalNode rounds d) e >>= fun w =>
      lift (v.applyBinary c.spelling w)) >>= fun new => settle name fun _ => .ok new) >>=
        fun _ => pure .absent) s) := by
  rw [evalNode_long c hx]
  refine (located_sameButLine line _ s).trans (SameButLine.bind ?_)
  rw [declare_again_of_bound hbound]
  exact (sum_sameButLine c _ _ line' _ _ s).bind

/-- With fewer than three levels the long form does not come to `e`. -/
theorem long_of_few_levels (hd : d < 3) :
    (evalNode rounds d (c.long x y e line line') s).1 = .error .nestingLimit := by
  match d, hd with
  | 0, _ => rfl
  | 1, _ =>
    rw [evalNode_long c hx]
    have hdeclare : SameButLine (declare (evalNode rounds 0) name
        (.binary c.operator (.leaf y) e line') .again s) _ :=
      .of_eq (declare_again_of_bound hbound)
    exact ((located_sameButLine line _ s).trans hdeclare.bind).limit rfl
  | 2, _ => exact (long_sameButLine c hx line line' hbound).limit rfl

/-- The long form combines the value that the name has before `e` with the value of `e`. -/
theorem long_combines (hy : y.name? = some name) (hold : old.isResult = true) :
    SameButLine (evalNode rounds (d + 3) (c.long x y e line line') s)
      (((value (evalNode rounds (d + 1)) e >>= fun w => lift (old.applyBinary c.spelling w) >>=
        fun new => settle name fun _ => .ok new) >>= fun _ => pure .absent) s) := by
  have hname : evalNode rounds (d + 1) (.leaf y) s = (.ok old, s) := by
    have hleaf : leaf y s = (.ok old, s) := by
      rw [leaf, hy]
      exact lookup_of_bound hbound
    change located y.line (leaf y) s = _
    rw [located, hleaf]
  refine (long_sameButLine c hx line line' hbound).trans (SameButLine.bind (.of_eq ?_))
  rw [bind_assoc, bind_of_ok (value_of_isResult hname hold), bind_assoc]

end

/-- Where `e` leaves the value of a name alone, it makes no difference whether the value is
read before `e` or after it, nor how many levels are left over. -/
theorem settle_after_eq {rounds d d' : Nat} (hd : d ≤ d')
    (hkept : ∀ v t, evalNode rounds d e s = (.ok v, t) → t.environment.lookup? name = some old)
    (hlimit : (value (evalNode rounds d) e s).1 ≠ .error .nestingLimit) :
    (value (evalNode rounds d') e >>= fun v => settle name fun old => old.applyBinary op v) s =
      (value (evalNode rounds d) e >>= fun v => lift (old.applyBinary op v) >>=
        fun new => settle name fun _ => .ok new) s := by
  -- In the short form `e` stands one level higher than in the long one.
  have hvalue : value (evalNode rounds d') e s = value (evalNode rounds d) e s :=
    Extends.value (fun n => evalNode_extends hd n) e s hlimit
  rcases he : value (evalNode rounds d) e s with ⟨f | v, t⟩
  · rw [bind_of_error he, bind_of_error (hvalue.trans he)]
  · rw [bind_of_ok he, bind_of_ok (hvalue.trans he)]
    exact settle_value (hkept v t (isResult_of_value he).1)

end Eval

/-- `x += e` is `x = x + e`, and `x -= e` is `x = x - e`, whatever the leaves and lines of both.
Unless the long form runs out of levels they end in the same state, with the same result or with
faults that differ in their lines at most, if `x` holds what a name can hold and `e` fails or
leaves that value alone. In any case `x += e` combines the value that `x` has after `e`: it fails
if the two cannot be combined or make another variant, and binds `x` again if not. -/
theorem compound_assignment_is_assignment_of_result (rounds depth : Nat) (s : State)
    (c : Compound) (name : String) (x y z : Leaf) (hx : x.name? = some name)
    (hy : y.name? = some name) (hz : z.name? = some name) (e : Node)
    (line line' line'' : Option Nat) :
    ((∀ old, s.environment.lookup? name = some old → old.isResult = true) →
      (∀ v t, evalNode rounds (depth - 2) e s = (.ok v, t) →
        t.environment.lookup? name = s.environment.lookup? name) →
      (evalNode rounds depth (c.long y z e line' line'') s).1 ≠ .error .nestingLimit →
      Eval.SameButLine (evalNode rounds depth (c.short x e line) s)
        (evalNode rounds depth (c.long y z e line' line'') s)) ∧
    ∀ v t, (s.environment.lookup? name).isSome = true →
      evalNode rounds depth e s = (.ok v, t) → v.isResult = true →
      ∃ new, t.environment.lookup? name = some new ∧
        (∀ f, new.applyBinary c.spelling v = .error f →
          evalNode rounds (depth + 1) (c.short x e line) s = (.error (f.locate line), t)) ∧
        ∀ u, new.applyBinary c.spelling v = .ok u →
          (u.variant = new.variant → ∃ after, t.environment.assign? name u = some after ∧
            evalNode rounds (depth + 1) (c.short x e line) s =
              (.ok .absent, { t with environment := after })) ∧
          (u.variant ≠ new.variant → evalNode rounds (depth + 1) (c.short x e line) s =
            (.error (.runtime (.mismatch (.assignment u.variant name new.variant)) line), t)) := by
  refine ⟨fun hresult hkept hlimit => ?_, fun v t hbound he hv => ?_⟩
  · cases hbound : s.environment.lookup? name with
    | none =>
      cases depth with
      | zero => exact absurd rfl hlimit
      | succ d =>
        exact (Eval.short_of_unbound c hx line hbound).trans
          (Eval.long_of_unbound c hy line' line'' hbound).symm
    | some old =>
      -- Three levels: the assignment, the sum, and its operands.
      have hdepth : ¬depth < 3 := fun hd =>
        hlimit (Eval.long_of_few_levels c hy line' line'' hbound hd)
      obtain ⟨d, rfl⟩ : ∃ d, depth = d + 3 := ⟨depth - 3, by omega⟩
      have hlong : Eval.SameButLine (evalNode rounds (d + 3) (c.long y z e line' line'') s) _ :=
        Eval.long_combines c hy line' line'' hbound hz (hresult old hbound)
      refine (Eval.short_sameButLine c hx line hbound).trans (.trans (.bind (.of_eq ?_)) hlong.symm)
      refine Eval.settle_after_eq (Nat.le_succ (d + 1)) ?_ ?_
      · intro v t he
        exact (hkept v t he).trans hbound
      · intro hvalue
        exact hlimit (hlong.limit (Eval.bind_fails (Eval.bind_fails hvalue)))
  · have hgrown : State.Grown s t := by
      have hwithin := Eval.scoped_within.evalNode rounds depth e s
      rwa [he] at hwithin
    obtain ⟨new, hnew⟩ := Option.isSome_iff_exists.mp (hgrown.bound hbound)
    have hdeclare : Eval.declare (evalNode rounds depth) name e (.combine c.spelling) s = _ :=
      Eval.declare_combine_apply hbound (Eval.value_of_isResult he hv) hnew
    refine ⟨new, hnew, fun f hf => ?_, fun u hu => ⟨fun hsame => ?_, fun hother => ?_⟩⟩
    · rw [hf] at hdeclare
      exact Eval.short_of_error c hx line hdeclare
    · obtain ⟨after, hafter⟩ := Environment.exists_assign? (hgrown.bound hbound) u
      rw [hu, Eval.lift_ok_bind, if_pos hsame, Eval.assign_apply, hafter] at hdeclare
      exact ⟨after, hafter, Eval.short_of_ok c hx line hdeclare⟩
    · rw [hu, Eval.lift_ok_bind, if_neg hother] at hdeclare
      exact Eval.short_of_error c hx line hdeclare

/-- `push` leaves the name of the target alone; the function `f` binds it again. -/
theorem compound_assignment_of_push_and_call :
    let x : Leaf := ⟨"IDENT", "x", some 1, some 1⟩
    let y : Leaf := ⟨"IDENT", "x", some 1, some 3⟩
    let push : Node := .call (.leaf ⟨"IDENT", "push", some 1, some 6⟩)
      (.arguments [.leaf ⟨"IDENT", "xs", some 1, some 11⟩, .literal (.int 2) none] none) (some 1)
    let call : Node := .call (.leaf ⟨"IDENT", "f", some 1, some 6⟩) (.arguments [] none) (some 1)
    let body : Node := .block [.declaration (.leaf x)
      (.leaf ⟨Kind.assign.label, "=", none, none⟩) (.literal (.int 5) none) (some 1),
      .expression (.literal (.int 2) none) (some 1)] none
    let s : State :=
      { environment := ⟨[("x", .int 1), ("xs", .array []), ("f", .function 0 [] body)], []⟩ }
    parse 20 "x += push(xs, 2)".toList = .ok (.block [Compound.plus.short x push (some 1)] none) ∧
    parse 20 "x=x+ push(xs, 2)".toList =
      .ok (.block [Compound.plus.long x y push (some 1) (some 1)] none) ∧
    (evalNode 1 6 (Compound.plus.long x y push (some 1) (some 1)) s).1 = .ok .absent ∧
    Eval.SameButLine (evalNode 1 6 (Compound.plus.short x push (some 1)) s)
      (evalNode 1 6 (Compound.plus.long x y push (some 1) (some 1)) s) ∧
    ∃ t after, evalNode 1 5 call s = (.ok (.int 2), t) ∧
      t.environment.lookup? "x" = some (.int 5) ∧ t.environment.assign? "x" (.int 3) = some after ∧
      evalNode 1 6 (Compound.minus.short x call (some 1)) s =
        (.ok .absent, { t with environment := after }) := by
  intro x y push call body s
  have hshort : tokenize "x += push(xs, 2)".toList = .ok [⟨.name, .text "x", 1, 1, ['x']⟩,
      ⟨.plusAssign, .text "+=", 1, 3, "+=".toList⟩, ⟨.name, .text "push", 1, 6, "push".toList⟩,
      ⟨.openParen, .text "(", 1, 10, ['(']⟩, ⟨.name, .text "xs", 1, 11, "xs".toList⟩,
      ⟨.comma, .text ",", 1, 13, [',']⟩, ⟨.number, .int 2, 1, 15, ['2']⟩,
      ⟨.closeParen, .text ")", 1, 16, [')']⟩, ⟨.endOfInput, .absent, 1, 17, []⟩] :=
    Fault.eq_ok_of_toOption (by decide +kernel)
  have hlong : tokenize "x=x+ push(xs, 2)".toList = .ok [⟨.name, .text "x", 1, 1, ['x']⟩,
      ⟨.assign, .text "=", 1, 2, ['=']⟩, ⟨.name, .text "x", 1, 3, ['x']⟩,
      ⟨.plus, .text "+", 1, 4, ['+']⟩, ⟨.name, .text "push", 1, 6, "push".toList⟩,
      ⟨.openParen, .text "(", 1, 10, ['(']⟩, ⟨.name, .text "xs", 1, 11, "xs".toList⟩,
      ⟨.comma, .text ",", 1, 13, [',']⟩, ⟨.number, .int 2, 1, 15, ['2']⟩,
      ⟨.closeParen, .text ")", 1, 16, [')']⟩, ⟨.endOfInput, .absent, 1, 17, []⟩] :=
    Fault.eq_ok_of_toOption (by decide +kernel)
  have hpush : evalNode 1 4 push s = (.ok (.int 2), { s with environment :=
      ⟨[("x", .int 1), ("xs", .array [.int 2]), ("f", .function 0 [] body)], []⟩ }) := rfl
  have hcall : evalNode 1 5 call s = (.ok (.int 2), { s with environment :=
      ⟨[("x", .int 5), ("xs", .array []), ("f", .function 0 [] body)], []⟩ }) := rfl
  obtain ⟨hsame, -⟩ := compound_assignment_is_assignment_of_result 1 6 s .plus "x" x x y rfl rfl
    rfl push (some 1) (some 1) (some 1)
  obtain ⟨-, hnew⟩ := compound_assignment_is_assignment_of_result 1 5 s .minus "x" x x y rfl rfl
    rfl call (some 1) (some 1) (some 1)
  obtain ⟨new, hx, -, hsettles⟩ := hnew _ _ rfl hcall rfl
  obtain rfl : Value.int 5 = new := Option.some.inj hx
  obtain ⟨after, hafter, hshorts⟩ := (hsettles (.int 3) rfl).1 rfl
  refine ⟨Fault.bind_eq_ok_iff.mpr ⟨_, hshort, rfl⟩, Fault.bind_eq_ok_iff.mpr ⟨_, hlong, rfl⟩,
    rfl, hsame ?_ ?_ nofun, _, after, hcall, rfl, hafter, hshorts⟩
  · intro old hold
    obtain rfl : Value.int 1 = old := Option.some.inj hold
    rfl
  · intro v t ht
    cases hpush.symm.trans ht
    rfl

end ScopeScript
