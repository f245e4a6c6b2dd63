import ScopeScript.Proofs.Value.Genuine

/-!
# Names in trees and values

A tree mentions the names of its leaves; a function value mentions its
parameters and the names of its body. Neither operators nor indices bring in
a name that their operands omit.
-/

namespace ScopeScript

mutual

def Value.mentions (x : String) : Value → Bool
  | .array items => Value.anyMentions x items
  | .function _ parameters body => parameters.contains x || body.mentions x
  | _ => false

def Value.anyMentions (x : String) : List Value → Bool
  | [] => false
  | v :: vs => v.mentions x || Value.anyMentions x vs

/-- Whether a name stands in the tree, also in a function value that a literal holds. -/
def Node.mentions (x : String) : Node → Bool
  | .leaf l => l.name? == some x
  | .bare v | .literal v _ => v.mentions x
  | .unary op n _ => op.name? == some x || n.mentions x
  | .binary op a b _ => op.name? == some x || a.mentions x || b.mentions x
  | .expression n _ | .print n _ => n.mentions x
  | .index a b _ | .call a b _ | .function a b _ | .loop a b _ => a.mentions x || b.mentions x
  | .declaration a b c _ | .branch a b c _ => a.mentions x || b.mentions x || c.mentions x
  | .array ns _ | .arguments ns _ | .parameters ns _ | .block ns _ | .other _ ns _ =>
    Node.anyMentions x ns
  | .exit _ => false

def Node.anyMentions (x : String) : List Node → Bool
  | [] => false
  | n :: ns => n.mentions x || Node.anyMentions x ns

end

def Value.Omits (x : String) (v : Value) : Prop := v.mentions x = false

def Node.Omits (x : String) (n : Node) : Prop := n.mentions x = false

instance (x : String) (v : Value) : Decidable (v.Omits x) :=
  inferInstanceAs (Decidable (v.mentions x = false))

instance (x : String) (n : Node) : Decidable (n.Omits x) :=
  inferInstanceAs (Decidable (n.mentions x = false))

namespace Node

variable {x name : String} {n m : Node} {ns : List Node}

theorem anyMentions_eq_false : anyMentions x ns = false ↔ ∀ n ∈ ns, n.Omits x := by
  induction ns with
  | nil => exact iff_of_true rfl (List.forall_mem_nil _)
  | cons n ns ih => rw [anyMentions, Bool.or_eq_false_iff, ih, List.forall_mem_cons, Omits]

theorem Omits.child (h : n.Omits x) : ∀ m ∈ n.children, m.Omits x := by
  cases n <;>
    simp_all [Omits, mentions, children, anyMentions_eq_false, Bool.or_eq_false_iff]

theorem Omits.name_ne (h : n.Omits x) (hname : n.name? = some name) : name ≠ x := by
  rintro rfl
  cases n with
  | leaf l =>
    rw [Omits, mentions, show l.name? = some name from hname, beq_self_eq_true] at h
    cases h
  | _ => cases hname

end Node

namespace Value

variable {x op context : String} {v a b : Value} {vs : List Value}

theorem anyMentions_eq_false : anyMentions x vs = false ↔ ∀ v ∈ vs, v.Omits x := by
  induction vs with
  | nil => exact iff_of_true rfl (List.forall_mem_nil _)
  | cons v vs ih => rw [anyMentions, Bool.or_eq_false_iff, ih, List.forall_mem_cons, Omits]

theorem omits_absent : Value.absent.Omits x := rfl

theorem omits_array : (Value.array vs).Omits x ↔ ∀ v ∈ vs, v.Omits x := by
  rw [Omits, mentions, anyMentions_eq_false]

theorem omits_function {identity : Nat} {parameters : List String} {body : Node} :
    (Value.function identity parameters body).Omits x ↔ x ∉ parameters ∧ body.Omits x := by
  rw [Omits, mentions, Bool.or_eq_false_iff, Node.Omits, List.contains_eq_mem,
    decide_eq_false_iff_not]

theorem Scalar.omits (h : v.Scalar) : v.Omits x := by
  cases h <;> rfl

theorem omits_of_toItems (hv : v.Omits x) {items : List Value}
    (h : v.toItems context = .ok items) : ∀ w ∈ items, w.Omits x := by
  cases v with
  | array _ =>
    cases h
    exact omits_array.mp hv
  | _ => cases h

theorem omits_of_itemAt {index : Nat} (hvs : ∀ w ∈ vs, w.Omits x)
    (h : itemAt vs index = .ok v) : v.Omits x := by
  unfold itemAt at h
  split at h
  next w hw =>
    cases h
    exact hvs v (List.mem_of_getElem? hw)
  next => split at h <;> cases h

end Value

end ScopeScript
