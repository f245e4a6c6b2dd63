import ScopeScript.Proofs.Eval.Stable

/-!
# Levels to spare

A node that is evaluated without running out of levels is evaluated in the same
way with more of them. So the limit on nesting decides whether there is an
outcome, and never which one.
-/

namespace ScopeScript

namespace Eval

variable {α β : Type}

theorem bind_fails {x : Eval α} {f : α → Eval β} {s : State} {e : Fault}
    (h : (x s).1 = .error e) : ((x >>= f) s).1 = .error e := by
  rcases hx : x s with ⟨r, t⟩
  rw [hx] at h
  subst h
  rw [bind_of_error hx]

/-- Unless `x` runs out of levels, `y` ends in the same way. -/
def Extends (x y : Eval α) : Prop := ∀ s, (x s).1 ≠ .error .nestingLimit → y s = x s

namespace Extends

variable {x y z : Eval α}

theorem refl (x : Eval α) : Extends x x := fun _ _ => rfl

theorem trans (h : Extends x y) (h' : Extends y z) : Extends x z := by
  intro s hs
  have hy : y s = x s := h s hs
  rw [← hy] at hs
  exact (h' s hs).trans hy

theorem nestingLimit (y : Eval α) : Extends (throw .nestingLimit) y :=
  fun _ hs => absurd rfl hs

theorem bind {f g : α → Eval β} (h : Extends x y) (hf : ∀ a, Extends (f a) (g a)) :
    Extends (x >>= f) (y >>= g) := by
  intro s hs
  have hsame : y s = x s := h s fun hlimit => hs (bind_fails hlimit)
  rcases hx : x s with ⟨e | a, t⟩
  · rw [bind_of_error hx, bind_of_error (hsame.trans hx)]
  · rw [bind_of_ok hx] at hs ⊢
    rw [bind_of_ok (hsame.trans hx)]
    exact hf a t hs

/-- The first step is the same. -/
theorem step {f g : α → Eval β} (hf : ∀ a, Extends (f a) (g a)) : Extends (x >>= f) (x >>= g) :=
  (refl x).bind hf

theorem map (h : Extends x y) (f : α → Eval β) : Extends (x >>= f) (y >>= f) :=
  h.bind fun a => refl (f a)

theorem ite {c : Prop} [Decidable c] {x' y' : Eval α} (h : Extends x y) (h' : Extends x' y') :
    Extends (if c then x else x') (if c then y else y') := by
  split
  · exact h
  · exact h'

theorem located (line : Option Nat) (h : Extends x y) :
    Extends (located line x) (located line y) := by
  intro s hs
  have hinner : (x s).1 ≠ .error .nestingLimit := by
    intro hlimit
    rcases hx : x s with ⟨r, t⟩
    rw [hx] at hlimit
    subst hlimit
    rw [Eval.located, hx] at hs
    exact hs rfl
  rw [Eval.located, Eval.located, h s hinner]

theorem inScope (h : Extends x y) : Extends (inScope x) (inScope y) := by
  intro s hs
  exact congrArg (fun p : Except Fault α × State =>
    (p.1, { p.2 with environment := p.2.environment.dropInnermost })) (h _ hs)

section
variable {ev ev' : Node → Eval Value} (h : ∀ n, Extends (ev n) (ev' n))
include h

theorem value (n : Node) : Extends (value ev n) (value ev' n) := (h n).map _

theorem values (ns : List Node) : Extends (values ev ns) (values ev' ns) := by
  induction ns with
  | nil => exact refl _
  | cons n ns ih => exact (value h n).bind fun v => ih.map _

theorem statements (ns : List Node) (last : Value) :
    Extends (statements ev ns last) (statements ev' ns last) := by
  induction ns generalizing last with
  | nil => exact refl _
  | cons n ns ih => exact (h n).bind fun v => .ite (refl _) (ih v)

theorem block (ns : List Node) : Extends (block ev ns) (block ev' ns) :=
  (statements h ns .absent).inScope

theorem test (context : String) (n : Node) : Extends (test ev context n) (test ev' context n) :=
  (h n).map _

theorem rounds (condition : Node) (body : List Node) (count : Nat) :
    Extends (rounds ev condition body count) (rounds ev' condition body count) := by
  induction count with
  | zero => exact refl _
  | succ count ih =>
    refine (test h "while" condition).bind fun b => .ite ?_ (refl _)
    exact (block h body).bind fun v => .ite (refl _) ih

theorem unary (op : String) (n : Node) : Extends (unary ev op n) (unary ev' op n) :=
  (value h n).map _

theorem binary (op : String) (l r : Node) : Extends (binary ev op l r) (binary ev' op l r) :=
  .ite (refl _) ((value h l).bind fun _ => .ite (refl _) ((value h r).map _))

theorem index (a b : Node) : Extends (index ev a b) (index ev' a b) :=
  (value h a).bind fun _ => .step fun _ => (value h b).map _

theorem declare (name : String) (n : Node) (binding : Binding) :
    Extends (declare ev name n binding) (declare ev' name n binding) := by
  cases binding with
  | fresh => exact (value h n).map _
  | again => exact .step fun _ => (value h n).map _
  | combine op => exact .step fun _ => (value h n).map _

theorem declaration (target kind n : Node) :
    Extends (declaration ev target kind n) (declaration ev' target kind n) := by
  unfold Eval.declaration
  cases target.name? with
  | none => exact refl _
  | some name => exact (declare h name n _).map _

theorem pushItem (target item : Node) :
    Extends (pushItem ev target item) (pushItem ev' target item) :=
  (value h item).map _

theorem bindArguments (xs : List String) (ns : List Node) :
    Extends (bindArguments ev xs ns) (bindArguments ev' xs ns) := by
  induction ns generalizing xs with
  | nil => cases xs <;> exact refl _
  | cons n ns ih =>
    cases xs with
    | nil => exact refl _
    | cons x xs => exact (value h n).bind fun v => .step fun _ => ih xs

theorem callFunction (parameters : List String) (body arguments : List Node) :
    Extends (callFunction ev parameters body arguments)
      (callFunction ev' parameters body arguments) :=
  ((bindArguments h parameters arguments).bind fun _ =>
    statements h body .absent).inScope.map _

theorem call (name : String) (arguments : List Node) :
    Extends (call ev name arguments) (call ev' name arguments) := by
  refine .ite ?_ (.ite (refl _) (.step fun o => ?_))
  · split
    next target item => exact pushItem h target item
    next => exact refl _
  · split
    next parameters body => exact .ite (callFunction h parameters body.children arguments) (refl _)
    next => exact refl _

theorem node (count : Nat) (n : Node) : Extends (node ev count n) (node ev' count n) := by
  cases n with
  | leaf _ | bare _ | literal _ _ | arguments _ _ | parameters _ _ | function _ _ _ | exit _
  | other _ _ _ => exact refl _
  | array ns _ => exact (values h ns).map _
  | unary op n _ => exact unary h op.text n
  | binary op l r _ => exact binary h op.text l r
  | index a b _ => exact index h a b
  | call f a _ =>
    rw [Eval.node, Eval.node]
    cases f.name? with
    | some name => exact call h name a.children
    | none => exact refl _
  | expression n _ => exact h n
  | print n _ => exact (value h n).map _
  | declaration a b c _ => exact declaration h a b c
  | branch a b c _ =>
    exact (test h "if" a).bind fun t => .ite (block h b.children) (block h c.children)
  | loop a b _ => exact rounds h a b.children count
  | block ns _ => exact block h ns

end

end Extends

end Eval

theorem evalNode_extends_succ (rounds depth : Nat) (n : Node) :
    Eval.Extends (evalNode rounds depth n) (evalNode rounds (depth + 1) n) := by
  induction depth generalizing n with
  | zero => exact .nestingLimit _
  | succ depth ih => exact .located _ (.node ih rounds n)

/-- More levels than are needed make no difference. -/
theorem evalNode_extends {rounds depth depth' : Nat} (h : depth ≤ depth') (n : Node) :
    Eval.Extends (evalNode rounds depth n) (evalNode rounds depth' n) := by
  induction h with
  | refl => exact .refl _
  | step _ ih => exact ih.trans (evalNode_extends_succ rounds _ n)

end ScopeScript
