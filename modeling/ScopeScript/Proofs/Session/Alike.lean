import ScopeScript.Session
import ScopeScript.Proofs.Eval.Reached
import ScopeScript.Proofs.Eval.Relocated
import ScopeScript.Proofs.Parser.Places

/-!
# Sessions that differ in columns

Nothing that a program does depends on its columns. Two texts whose trees are
the same up to columns do the same to two sessions that are, print the same and
report the same faults. What tells them apart is the recorded source, the
columns in the bodies of functions and, if it is kept, the log, which counts
characters.
-/

namespace ScopeScript

abbrev Value.columnless (v : Value) : Value := v.relocated PlaceMap.columnless.relocation

abbrev Node.columnless (n : Node) : Node := n.relocated PlaceMap.columnless.relocation

abbrev State.columnless (s : State) : State := s.relocated PlaceMap.columnless.relocation

/-- How a computation ends, up to columns. -/
abbrev Eval.columnless (r : Except Fault Value × State) : Except Fault Value × State :=
  Eval.moved PlaceMap.columnless.relocation Value.columnless r

/-- Faults of programs have lines and no columns. -/
theorem Fault.relocated_columnless (f : Fault) :
    f.relocated PlaceMap.columnless.relocation = f := by
  cases f with
  | runtime cause line => exact congrArg (Fault.runtime cause) (congrFun Option.map_id line)
  | _ => rfl

theorem Fault.moved_columnless_cases {α β : Type} {f : α → β} {r r' : Except Fault α}
    (h : Fault.moved PlaceMap.columnless.relocation f r =
      Fault.moved PlaceMap.columnless.relocation f r') :
    (∃ a b, r = .ok a ∧ r' = .ok b ∧ f a = f b) ∨ ∃ e, r = .error e ∧ r' = .error e := by
  cases r <;> cases r'
  case ok.ok a b => exact .inl ⟨a, b, rfl, rfl, Except.ok.inj h⟩
  case error.error e e' =>
    have heq := Except.error.inj h
    rw [relocated_columnless, relocated_columnless] at heq
    exact .inr ⟨e, rfl, heq ▸ rfl⟩
  all_goals cases h

variable {p q : Node} {s t : State}

/-- Programs that are the same up to columns do the same up to columns; a fault has the same
line. -/
theorem execute_columnless (limits : Limits) (hpq : p.columnless = q.columnless)
    (hst : s.columnless = t.columnless) :
    Eval.columnless (execute limits p s) = Eval.columnless (execute limits q t) := by
  have hev := evalNode_relocated (.ofMap id (Option.map fun _ => 0)) limits.rounds limits.depth
  have hmoves (n : Node) (s : State) : Eval.program (evalNode limits.rounds limits.depth)
      (n.children.map Node.columnless) s.columnless = Eval.columnless (execute limits n s) :=
    Eval.Moves.program hev n.children s
  have hchildren := congrArg Node.children hpq
  rw [Node.relocated_children, Node.relocated_children] at hchildren
  rw [← hmoves, ← hmoves, hchildren, hst]

theorem endsWithExpression_relocated (r : Relocation) (p : Node) :
    endsWithExpression (p.relocated r) = endsWithExpression p := by
  rw [endsWithExpression, endsWithExpression, Node.relocated_children, List.getLast?_map]
  cases p.children.getLast? with
  | none => rfl
  | some n => cases n <;> rfl

namespace Session

variable {u v w : Session} {cs ds : List Char}

/-- The same up to columns, the recorded source and the log. -/
structure Alike (u v : Session) : Prop where
  limits : u.limits = v.limits
  state : u.state.columnless = v.state.columnless
  traceback : u.traceback = v.traceback
  logging : u.logging = v.logging
  errors : u.logging = false → u.errors = v.errors

namespace Alike

theorem refl (u : Session) : Alike u u := ⟨rfl, rfl, rfl, rfl, fun _ => rfl⟩

theorem symm (h : Alike u v) : Alike v u :=
  ⟨h.limits.symm, h.state.symm, h.traceback.symm, h.logging.symm,
    fun hlogging => (h.errors (h.logging.trans hlogging)).symm⟩

theorem trans (h : Alike u v) (h' : Alike v w) : Alike u w :=
  ⟨h.limits.trans h'.limits, h.state.trans h'.state, h.traceback.trans h'.traceback,
    h.logging.trans h'.logging,
    fun hlogging => (h.errors hlogging).trans (h'.errors (h.logging ▸ hlogging))⟩

theorem print (h : Alike u v) (line : String) : Alike (u.print line) (v.print line) := by
  refine ⟨h.limits, ?_, h.traceback, h.logging, h.errors⟩
  exact congrArg (fun s : State => { s with output := s.output ++ line ++ "\n" }) h.state

theorem complain (h : Alike u v) (line : String) : Alike (u.complain line) (v.complain line) :=
  ⟨h.limits, h.state, h.traceback, h.logging,
    fun hlogging => congrArg (· ++ line ++ "\n") (h.errors hlogging)⟩

theorem report (h : Alike u v) (f : Fault) : Alike (u.report f) (v.report f) := by
  have hcomplained := h.complain ("Error: " ++ f.message)
  unfold Session.report
  dsimp only
  rw [hcomplained.traceback]
  split
  · exact (hcomplained.complain _).complain _
  · exact hcomplained

/-- An entry of the log is seen in the log only. -/
theorem log (stage : Stage) (u : Session) : Alike (u.log stage) u := by
  unfold Session.log
  split
  next hlogging => exact ⟨rfl, rfl, rfl, rfl, fun h => absurd (hlogging.symm.trans h) nofun⟩
  next => exact refl u

theorem logs (stages : List Stage) (u : Session) :
    Alike (stages.foldl (fun s stage => s.log stage) u) u := by
  induction stages generalizing u with
  | nil => exact refl u
  | cons stage stages ih => exact (ih _).trans (log stage u)

theorem read (hp : parse u.limits.nesting cs = .ok p) :
    (u.read cs).1 = .ok p ∧ Alike (u.read cs).2 u := by
  have hresult := readProgram_result u.limits cs
  rw [hp] at hresult
  rw [Session.read]
  dsimp only
  rw [hresult]
  have hlogs := logs (readProgram u.limits cs).1 u
  exact ⟨rfl, hlogs.limits, hlogs.state, hlogs.traceback, hlogs.logging, hlogs.errors⟩

theorem execute (h : Alike u v) (hpq : p.columnless = q.columnless) :
    Fault.moved PlaceMap.columnless.relocation Value.columnless (u.execute p).1 =
      Fault.moved PlaceMap.columnless.relocation Value.columnless (v.execute q).1 ∧
    Alike (u.execute p).2 (v.execute q).2 := by
  have hends := execute_columnless u.limits hpq h.state
  unfold Session.execute
  rw [← h.limits]
  exact ⟨congrArg Prod.fst hends, rfl, congrArg Prod.snd hends, h.traceback, h.logging, h.errors⟩

theorem evaluate (h : Alike u v) (hp : parse u.limits.nesting cs = .ok p)
    (hq : parse v.limits.nesting ds = .ok q) (hpq : p.columnless = q.columnless) :
    Fault.moved PlaceMap.columnless.relocation (Prod.map Value.columnless id) (u.evaluate cs).1 =
      Fault.moved PlaceMap.columnless.relocation (Prod.map Value.columnless id)
        (v.evaluate ds).1 ∧
    Alike (u.evaluate cs).2 (v.evaluate ds).2 := by
  obtain ⟨hu, hread⟩ := read hp
  obtain ⟨hv, hread'⟩ := read hq
  have hends : endsWithExpression p = endsWithExpression q :=
    calc endsWithExpression p
      _ = endsWithExpression p.columnless := (endsWithExpression_relocated _ p).symm
      _ = endsWithExpression q.columnless := congrArg endsWithExpression hpq
      _ = endsWithExpression q := endsWithExpression_relocated _ q
  have hu : u.read cs = (.ok p, (u.read cs).2) := Prod.ext hu rfl
  have hv : v.read ds = (.ok q, (v.read ds).2) := Prod.ext hv rfl
  obtain ⟨hresult, hafter⟩ := ((hread.trans h).trans hread'.symm).execute hpq
  rw [Session.evaluate, Session.evaluate, hu, hv]
  refine ⟨?_, hafter⟩
  dsimp only
  rw [hends]
  rcases Fault.moved_columnless_cases hresult with ⟨a, b, ha, hb, hab⟩ | ⟨e, he, he'⟩
  · rw [ha, hb]
    exact congrArg (fun a => Except.ok (a, !endsWithExpression q)) hab
  · rw [he, he']

theorem present_of_ne {a : Value} (ha : a ≠ .absent) : u.present a = match a.display? with
    | .ok text => (.ok (), u.print text)
    | .error f => (.error f, u) := by
  unfold Session.present
  split
  · exact absurd rfl ha
  · rfl

theorem present (h : Alike u v) {a b : Value} (hab : a.columnless = b.columnless) :
    (u.present a).1 = (v.present b).1 ∧ Alike (u.present a).2 (v.present b).2 := by
  have hdisplay : a.display? = b.display? :=
    calc a.display?
      _ = a.columnless.display? := (Value.relocated_display? _ a).symm
      _ = b.columnless.display? := congrArg Value.display? hab
      _ = b.display? := Value.relocated_display? _ b
  have habsent : (a = .absent ↔ b = .absent) := by
    cases a <;> cases b <;> simp [Value.columnless, Value.relocated] at hab ⊢
  by_cases ha : a = .absent
  · rw [ha, habsent.mp ha]
    exact ⟨rfl, h⟩
  · rw [present_of_ne ha, present_of_ne (mt habsent.mpr ha), hdisplay]
    cases b.display? with
    | ok text => exact ⟨rfl, h.print text⟩
    | error f => exact ⟨rfl, h⟩

/-- Texts with trees that are the same up to columns are echoed alike. -/
theorem echo (h : Alike u v) (hp : parse u.limits.nesting cs = .ok p)
    (hq : parse v.limits.nesting ds = .ok q) (hpq : p.columnless = q.columnless) :
    (u.echo cs).1 = (v.echo ds).1 ∧ Alike (u.echo cs).2 (v.echo ds).2 := by
  obtain ⟨hresult, hafter⟩ := h.evaluate hp hq hpq
  unfold Session.echo
  generalize u.evaluate cs = r at hresult hafter ⊢
  generalize v.evaluate ds = r' at hresult hafter ⊢
  obtain ⟨r, u'⟩ := r
  obtain ⟨r', v'⟩ := r'
  rcases Fault.moved_columnless_cases hresult with
    ⟨⟨a, isStatement⟩, ⟨b, isStatement'⟩, rfl, rfl, hab⟩ | ⟨e, rfl, rfl⟩
  · obtain ⟨hvalues, rfl : isStatement = isStatement'⟩ := Prod.mk.inj hab
    dsimp only
    split
    · exact ⟨rfl, hafter⟩
    · exact hafter.present hvalues
  · dsimp only
    split
    · exact ⟨rfl, hafter.report e⟩
    · exact ⟨rfl, hafter⟩

end Alike

end Session

end ScopeScript
