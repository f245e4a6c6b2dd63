import ScopeScript.Proofs.Node.Relocated
import ScopeScript.Proofs.Parser.Exact

/-!
# Tokens in other places

Parsers look at the kinds and at the data of tokens only, and copy their places
into trees and faults. So moving the tokens before parsing, or the tree after
it, comes to the same, and the texts of the tokens make no difference.
-/

namespace ScopeScript

/-- What is done to the places of tokens. -/
structure PlaceMap where
  line : Nat → Nat
  column : Nat → Nat

namespace PlaceMap

variable (m : PlaceMap)

def token (t : Token) : Token := { t with line := m.line t.line, column := m.column t.column }

/-- The same for the places that a tree has recorded. -/
def relocation : Relocation := ⟨Option.map m.line, Option.map m.column⟩

abbrev node : Node → Node := Node.relocated m.relocation

/-- All columns become one, and the lines stay. -/
def columnless : PlaceMap := ⟨id, fun _ => 0⟩

def fault : Fault → Fault
  | .grammar cause line column => .grammar cause (m.line line) (m.column column)
  | f => f

end PlaceMap

/-- What is done to the places and to the texts of tokens; an empty text stays empty. -/
structure TokenMap extends PlaceMap where
  text : List Char → List Char
  text_nil : text [] = []

namespace TokenMap

variable (m : TokenMap)

def token (t : Token) : Token := { m.toPlaceMap.token t with text := m.text t.text }

variable {α β : Type}

/-- How a parser ends on changed tokens. -/
def ending (f : α → β) : Except Fault (α × List Token) → Except Fault (β × List Token)
  | .ok (a, ts) => .ok (f a, ts.map m.token)
  | .error e => .error (m.fault e)

end TokenMap

/-- Texts are kept when places are changed alone. -/
def PlaceMap.withTexts (m : PlaceMap) : TokenMap := ⟨m, id, rfl⟩

/-- Nothing is changed but the texts, which are dropped. -/
def TokenMap.textless : TokenMap := ⟨⟨id, id⟩, fun _ => [], rfl⟩

namespace Parser

open TokenMap (token)

variable {α β γ δ : Type} {m : TokenMap} {f : α → β} {g : γ → δ} {ctx : Context} {d : Descent}

def Context.placed (m : TokenMap) (ctx : Context) : Context :=
  { ctx with endToken := m.token ctx.endToken }

/-- On changed tokens `q` ends as `p` does on the tokens themselves, with the same changes. -/
def Carries (m : TokenMap) (f : α → β) (p : Parser α) (q : Parser β) : Prop :=
  ∀ ts, q (ts.map m.token) = m.ending f (p ts)

namespace Carries

variable {p p' : Parser α} {q q' : Parser β}

theorem pure {a : α} {b : β} (h : f a = b) : Carries m f (Pure.pure a) (Pure.pure b) := by
  intro ts
  rw [← h]
  rfl

theorem bind {h : α → Parser γ} {k : β → Parser δ} (hp : Carries m f p q)
    (hh : ∀ a, Carries m g (h a) (k (f a))) : Carries m g (p >>= h) (q >>= k) := by
  intro ts
  change (q (ts.map m.token) >>= fun x => k x.1 x.2) = m.ending g (p ts >>= fun x => h x.1 x.2)
  rw [hp ts]
  cases p ts with
  | ok x => exact hh x.1 x.2
  | error e => rfl

theorem ite {c c' : Prop} [Decidable c] [Decidable c'] (hc : c' ↔ c) (hp : Carries m f p q)
    (hp' : Carries m f p' q') : Carries m f (if c then p else p') (if c' then q else q') := by
  by_cases h : c
  · rwa [if_pos h, if_pos (hc.mpr h)]
  · rwa [if_neg h, if_neg (mt hc.mp h)]

theorem failAt (t : Token) (cause : ParseCause) :
    Carries m f (failAt t cause) (failAt (m.token t) cause) := fun _ => rfl

theorem nestingLimit : Carries m f (throw .nestingLimit) (throw .nestingLimit) := fun _ => rfl

theorem iterationLimit : Carries m f (throw .iterationLimit) (throw .iterationLimit) :=
  fun _ => rfl

theorem get : Carries m (List.map m.token) (MonadState.get : Parser (List Token))
    MonadState.get := fun _ => rfl

theorem headD (t : Token) (ts : List Token) :
    (ts.map m.token).headD (m.token t) = m.token (ts.headD t) := by
  cases ts <;> rfl

theorem current : Carries m m.token (current ctx) (current (ctx.placed m)) :=
  get.bind fun ts => pure (headD ctx.endToken ts).symm

theorem second : Carries m m.token (second ctx) (second (ctx.placed m)) := by
  refine get.bind fun ts => pure ?_
  rw [← List.map_tail]
  exact (headD ctx.endToken ts.tail).symm

theorem advance : Carries m id advance advance := by
  intro ts
  change Except.ok ((), (ts.map m.token).tail) = .ok ((), ts.tail.map m.token)
  rw [List.map_tail]

theorem skip (kinds : List Kind) : Carries m id (skip kinds) (skip kinds) := by
  intro ts
  exact congrArg (fun us => Except.ok ((), us)) List.dropWhile_map

theorem expect (kind : Kind) (what : Expectation) :
    Carries m m.token (expect ctx kind what) (expect (ctx.placed m) kind what) :=
  current.bind fun t => .ite Iff.rfl (advance.bind fun _ => pure rfl) (.failAt t _)

theorem accept (kind : Kind) : Carries m id (accept ctx kind) (accept (ctx.placed m) kind) :=
  current.bind fun _ => .ite Iff.rfl (advance.bind fun _ => pure rfl) (pure rfl)

end Carries

/-- The parsers one level down move with the tokens. -/
structure Descent.Placed (d : Descent) (m : TokenMap) : Prop where
  statement (ctx : Context) :
    Carries m (Option.map m.node) (d.statement ctx) (d.statement (ctx.placed m))
  branch (ctx : Context) : Carries m m.node (d.branch ctx) (d.branch (ctx.placed m))
  expression (ctx : Context) (power : Nat) :
    Carries m m.node (d.expression ctx power) (d.expression (ctx.placed m) power)

theorem Descent.bottom_placed (m : TokenMap) : Descent.bottom.Placed m where
  statement _ := .nestingLimit
  branch _ := .nestingLimit
  expression _ _ := .nestingLimit

section
variable (hd : d.Placed m)

theorem ofOperator_placed (t : Token) :
    (Leaf.ofOperator t).relocated m.relocation = .ofOperator (m.token t) := by
  have hkind : (m.token t).kind = t.kind := rfl
  unfold Leaf.ofOperator
  rw [hkind]
  split <;> rfl

theorem toValue_placed (v : Datum) : v.toValue.relocated m.relocation = v.toValue := by
  cases v <;> rfl

/-! ## Lists -/

include hd in
theorem items_placed (close : Kind) (fuel : Nat) : Carries m (List.map m.node)
    (items ctx d close fuel) (items (ctx.placed m) d close fuel) := by
  induction fuel with
  | zero => exact .iterationLimit
  | succ fuel ih =>
    refine Carries.current.bind fun t => .ite Iff.rfl (.pure rfl) ?_
    refine (hd.expression ctx 0).bind fun n => (Carries.skip _).bind fun _ => ?_
    refine (Carries.accept .comma).bind fun b => .ite Iff.rfl ?_ (.pure rfl)
    exact (Carries.skip _).bind fun _ => ih.bind fun ns => .pure rfl

include hd in
theorem enclosed_placed (close : Kind) (what : Expectation) : Carries m (List.map m.node)
    (enclosed ctx d close what) (enclosed (ctx.placed m) d close what) := by
  refine Carries.advance.bind fun _ => (Carries.skip _).bind fun _ => Carries.get.bind fun ts => ?_
  rw [List.length_map]
  exact (items_placed hd close _).bind fun ns => (Carries.expect _ _).bind fun _ => .pure rfl

theorem parameterNames_placed (fuel : Nat) : Carries m (List.map m.node)
    (parameterNames ctx fuel) (parameterNames (ctx.placed m) fuel) := by
  induction fuel with
  | zero => exact .iterationLimit
  | succ fuel ih =>
    refine Carries.current.bind fun t => .ite Iff.rfl (.pure rfl) ?_
    refine (Carries.expect _ _).bind fun x => (Carries.accept .comma).bind fun b => ?_
    exact .ite Iff.rfl (ih.bind fun ns => .pure rfl) (.pure rfl)

theorem parameterList_placed :
    Carries m m.node (parameterList ctx) (parameterList (ctx.placed m)) := by
  refine (Carries.expect _ _).bind fun _ => Carries.get.bind fun ts => ?_
  rw [List.length_map]
  refine (parameterNames_placed _).bind fun ns => (Carries.expect _ _).bind fun _ => .pure ?_
  exact congrArg (Node.parameters · none) (Node.allRelocated_eq_map m.relocation ns)

include hd

theorem statements_placed (fuel : Nat) : Carries m (List.map m.node)
    (statements ctx d fuel) (statements (ctx.placed m) d fuel) := by
  induction fuel with
  | zero => exact .iterationLimit
  | succ fuel ih =>
    refine (hd.statement ctx).bind fun o => ?_
    cases o with
    | none => exact .pure rfl
    | some n => exact ih.bind fun ns => .pure rfl

theorem blockBody_placed :
    Carries m (List.map m.node) (blockBody ctx d) (blockBody (ctx.placed m) d) := by
  refine Carries.get.bind fun ts => ?_
  rw [List.length_map]
  exact statements_placed hd _

theorem braced_placed :
    Carries m (List.map m.node) (braced ctx d) (braced (ctx.placed m) d) :=
  (Carries.skip _).bind fun _ => Carries.current.bind fun _ => (Carries.expect _ _).bind fun _ =>
    (blockBody_placed hd).bind fun _ => Carries.current.bind fun _ =>
      (Carries.expect _ _).bind fun _ => .pure rfl

omit hd in
theorem block_placed {m : PlaceMap} (ns : List Node) :
    m.node (.block ns none) = .block (ns.map m.node) none :=
  congrArg (Node.block · none) (Node.allRelocated_eq_map m.relocation ns)

theorem functionRest_placed (fn : Token) : Carries m m.node
    (functionRest ctx d fn) (functionRest (ctx.placed m) d (m.token fn)) := by
  refine parameterList_placed.bind fun ps => (braced_placed hd).bind fun body => .pure ?_
  rw [← block_placed]
  rfl

/-! ## Expressions -/

theorem operand_placed : Carries m m.node (operand ctx d) (operand (ctx.placed m) d) := by
  refine Carries.current.bind fun t => ?_
  have hkind : (m.token t).kind = t.kind := rfl
  rw [hkind]
  split
  · exact Carries.advance.bind fun _ => .pure (congrArg (Node.literal · none) (toValue_placed _))
  · exact Carries.advance.bind fun _ => .pure (congrArg (Node.literal · none) (toValue_placed _))
  · exact Carries.advance.bind fun _ => .pure rfl
  · exact Carries.advance.bind fun _ => .pure rfl
  · refine Carries.advance.bind fun _ => Carries.current.bind fun next => ?_
    refine .ite Iff.rfl ?_ (.pure rfl)
    refine (enclosed_placed hd _ _).bind fun ns => .pure ?_
    rw [← Node.allRelocated_eq_map]
    rfl
  · refine Carries.advance.bind fun _ => (hd.expression ctx 0).bind fun n => ?_
    exact (Carries.accept .closeParen).bind fun b => .ite Iff.rfl (.pure rfl) (.failAt t _)
  · refine (enclosed_placed hd _ _).bind fun ns => .pure ?_
    rw [← Node.allRelocated_eq_map]
    rfl
  · exact Carries.advance.bind fun _ => functionRest_placed hd t
  · refine Carries.advance.bind fun _ => (hd.expression ctx _).bind fun n => .pure ?_
    rw [← ofOperator_placed]
    rfl
  · refine Carries.advance.bind fun _ => (hd.expression ctx _).bind fun n => .pure ?_
    rw [← ofOperator_placed]
    rfl
  · exact .failAt t _
  · exact .failAt t _

theorem operators_placed (power fuel : Nat) (left : Node) : Carries m m.node
    (operators ctx d power fuel left) (operators (ctx.placed m) d power fuel (m.node left)) := by
  induction fuel generalizing left with
  | zero => exact .iterationLimit
  | succ fuel ih =>
    refine Carries.current.bind fun t => .ite Iff.rfl (.pure rfl) (.ite Iff.rfl ?_ ?_)
    · refine .ite Iff.rfl (.pure rfl) (Carries.advance.bind fun _ => ?_)
      exact (hd.expression ctx 0).bind fun position => (Carries.expect _ _).bind fun _ =>
        ih (.index left position t.line)
    · have hkind : (m.token t).kind = t.kind := rfl
      rw [hkind]
      cases t.kind.infixPower? with
      | none => exact .failAt t _
      | some p =>
        refine .ite Iff.rfl (.pure rfl) (Carries.advance.bind fun _ => ?_)
        refine (hd.expression ctx _).bind fun right => ?_
        rw [← ofOperator_placed]
        exact ih (.binary (.ofOperator t) left right t.line)

theorem expression_placed (power : Nat) :
    Carries m m.node (expression ctx d power) (expression (ctx.placed m) d power) := by
  refine (operand_placed hd).bind fun left => Carries.get.bind fun ts => ?_
  rw [List.length_map]
  exact operators_placed hd power _ left

/-! ## Statements -/

theorem printStatement_placed :
    Carries m m.node (printStatement ctx d) (printStatement (ctx.placed m) d) :=
  Carries.advance.bind fun _ => (Carries.expect _ _).bind fun _ =>
    (hd.expression ctx 0).bind fun _ => (Carries.expect _ _).bind fun _ =>
      Carries.current.bind fun t => .ite Iff.rfl (.pure rfl) (.failAt t _)

theorem letStatement_placed :
    Carries m m.node (letStatement ctx d) (letStatement (ctx.placed m) d) := by
  refine Carries.current.bind fun t => Carries.advance.bind fun _ => ?_
  refine (Carries.expect _ _).bind fun x => (Carries.expect _ _).bind fun _ => ?_
  refine (hd.expression ctx 0).bind fun n => .pure ?_
  rw [← ofOperator_placed]
  rfl

theorem assignStatement_placed :
    Carries m m.node (assignStatement ctx d) (assignStatement (ctx.placed m) d) := by
  refine Carries.current.bind fun x => Carries.advance.bind fun _ => ?_
  refine Carries.current.bind fun op => Carries.advance.bind fun _ => ?_
  refine (hd.expression ctx 0).bind fun n => .pure ?_
  rw [← ofOperator_placed]
  rfl

theorem condition_placed (word : String) :
    Carries m m.node (condition ctx d word) (condition (ctx.placed m) d word) :=
  (Carries.expect _ _).bind fun _ => (hd.expression ctx 0).bind fun _ =>
    (Carries.expect _ _).bind fun _ => .pure rfl

theorem alternative_placed :
    Carries m (List.map m.node) (alternative ctx d) (alternative (ctx.placed m) d) := by
  refine Carries.current.bind fun t => .ite Iff.rfl ?_ (.ite Iff.rfl ?_ (.pure rfl))
  · exact (hd.branch ctx).bind fun n => .pure rfl
  · exact Carries.advance.bind fun _ => braced_placed hd

theorem branch_placed : Carries m m.node (branch ctx d) (branch (ctx.placed m) d) := by
  refine Carries.current.bind fun t => Carries.advance.bind fun _ => ?_
  refine (condition_placed hd _).bind fun test => (braced_placed hd).bind fun ns => ?_
  refine (Carries.skip _).bind fun _ => (alternative_placed hd).bind fun rest => .pure ?_
  rw [← block_placed, ← block_placed]
  rfl

theorem whileStatement_placed :
    Carries m m.node (whileStatement ctx d) (whileStatement (ctx.placed m) d) := by
  refine Carries.advance.bind fun _ => (condition_placed hd _).bind fun test => ?_
  refine (braced_placed hd).bind fun ns => .pure ?_
  rw [← block_placed]
  rfl

theorem clause_placed (close : Kind) :
    Carries m (Option.map m.node) (clause ctx d close) (clause (ctx.placed m) d close) :=
  Carries.current.bind fun _ => .ite Iff.rfl (.pure rfl) (hd.statement ctx.header)

theorem headerTest_placed :
    Carries m m.node (headerTest ctx d) (headerTest (ctx.placed m) d) :=
  Carries.current.bind fun _ => .ite Iff.rfl (.pure rfl) (hd.expression ctx 0)

theorem forStatement_placed :
    Carries m m.node (forStatement ctx d) (forStatement (ctx.placed m) d) := by
  refine Carries.current.bind fun t => Carries.advance.bind fun _ => ?_
  refine (Carries.expect _ _).bind fun _ => (clause_placed hd _).bind fun init => ?_
  refine (Carries.expect _ _).bind fun _ => (headerTest_placed hd).bind fun test => ?_
  refine (Carries.expect _ _).bind fun _ => (clause_placed hd _).bind fun step => ?_
  refine (Carries.expect _ _).bind fun _ => (braced_placed hd).bind fun body => .pure ?_
  rw [block_placed, List.map_append, List.map_singleton]
  have hbody := block_placed (m := m.toPlaceMap) (body ++ step.toList)
  rw [List.map_append] at hbody
  cases init <;> cases step <;> exact congrArg
    (fun b => Node.block (_ ++ [.loop (m.node test) b (m.relocation.line t.line)]) none) hbody

theorem functionStatement_placed :
    Carries m m.node (functionStatement ctx d) (functionStatement (ctx.placed m) d) := by
  refine Carries.current.bind fun fn => Carries.advance.bind fun _ => ?_
  refine Carries.current.bind fun x => Carries.advance.bind fun _ => ?_
  exact (functionRest_placed hd fn).bind fun n => .pure rfl

theorem statementAt_placed (t : Token) :
    Carries m m.node (statementAt ctx d t) (statementAt (ctx.placed m) d (m.token t)) := by
  refine Carries.second.bind fun next => ?_
  have hkind : (m.token t).kind = t.kind := rfl
  rw [hkind]
  split
  · refine (braced_placed hd).bind fun ns => .pure (block_placed ns)
  · exact printStatement_placed hd
  · exact letStatement_placed hd
  · exact branch_placed hd
  · exact .failAt t _
  · exact .failAt t _
  · exact whileStatement_placed hd
  · exact forStatement_placed hd
  · exact Carries.advance.bind fun _ => .pure rfl
  · exact .failAt t _
  · refine .ite Iff.rfl (assignStatement_placed hd) (.ite Iff.rfl (functionStatement_placed hd) ?_)
    exact (hd.expression ctx 0).bind fun n => .pure rfl

omit hd in
theorem atLine_placed (line : Nat) (n : Node) :
    m.node (n.atLine line) = (m.node n).atLine (m.line line) := by
  cases n <;> rfl

theorem statement_placed :
    Carries m (Option.map m.node) (statement ctx d) (statement (ctx.placed m) d) := by
  refine (Carries.skip _).bind fun _ => Carries.current.bind fun t => .ite Iff.rfl (.pure rfl) ?_
  exact (statementAt_placed hd t).bind fun n => .pure (congrArg some (atLine_placed t.line n))

end

/-! ## All levels -/

theorem descent_placed (nesting : Nat) (m : TokenMap) : (descent nesting).Placed m := by
  induction nesting with
  | zero => exact Descent.bottom_placed m
  | succ nesting ih =>
    exact {
      statement := fun _ => statement_placed ih
      branch := fun _ => branch_placed ih
      expression := fun _ => expression_placed ih }

theorem topContext_placed (m : TokenMap) {ts : List Token} (hts : ts ≠ []) :
    topContext (ts.map m.token) = (topContext ts).placed m := by
  rw [topContext, topContext, impliedEnd, impliedEnd, List.getLast?_map]
  cases hlast : ts.getLast? with
  | none => exact absurd (List.getLast?_eq_none_iff.mp hlast) hts
  | some t => simp only [Option.map_some, Context.placed, token, PlaceMap.token, m.text_nil]

/-- Parsing changed tokens gives the same tree with their places in it. -/
theorem program_mapped (nesting : Nat) (m : TokenMap) {ts : List Token} (hts : ts ≠ []) :
    program nesting (ts.map m.token) = match program nesting ts with
      | .ok p => .ok (m.node p)
      | .error f => .error (m.fault f) := by
  have hbody : Carries m m.node (programTree (topContext ts) (descent nesting))
      (programTree ((topContext ts).placed m) (descent nesting)) :=
    (blockBody_placed (descent_placed nesting m)).bind fun ns => Carries.current.bind fun t =>
      .ite Iff.rfl (.pure (block_placed ns)) (.failAt t _)
  have hrun := hbody ts
  rw [program, program, topContext_placed m hts, StateT.run'_eq, StateT.run'_eq]
  change Prod.fst <$> programTree ((topContext ts).placed m) _ (ts.map m.token) =
    match Prod.fst <$> programTree (topContext ts) _ ts with
      | .ok p => _
      | .error f => _
  rw [hrun]
  cases programTree (topContext ts) (descent nesting) ts <;> rfl

/-- Parsing the tokens of a program in other places gives the same tree, there. -/
theorem program_placed (nesting : Nat) (m : PlaceMap) {ts : List Token} (hts : ts ≠ []) :
    program nesting (ts.map m.token) = match program nesting ts with
      | .ok p => .ok (m.node p)
      | .error f => .error (m.fault f) :=
  program_mapped nesting m.withTexts hts

/-- The texts of tokens make no difference to what is read from them. -/
theorem program_textless (nesting : Nat) {ts : List Token} (hts : ts ≠ []) :
    program nesting (ts.map TokenMap.textless.token) = program nesting ts := by
  have hnode (p : Node) : TokenMap.textless.node p = p := by
    rw [PlaceMap.node, PlaceMap.relocation]
    change p.relocated ⟨Option.map id, Option.map id⟩ = p
    rw [Option.map_id, Node.relocated_id]
  rw [program_mapped nesting .textless hts]
  cases program nesting ts with
  | ok p => exact congrArg Except.ok (hnode p)
  | error f => cases f <;> rfl

/-- Tokens that are the same but for their texts are read alike. -/
theorem program_of_textless_eq {nesting : Nat} {ts us : List Token} (hts : ts ≠ [])
    (h : us.map TokenMap.textless.token = ts.map TokenMap.textless.token) :
    program nesting us = program nesting ts := by
  have hus : us ≠ [] := by
    rintro rfl
    exact hts (List.map_eq_nil_iff.mp h.symm)
  rw [← program_textless nesting hus, h, program_textless nesting hts]

/-- Tokens that are the same once they are moved are read alike: as trees that are the same
once they are moved. -/
theorem program_of_placed_eq {nesting : Nat} (m : PlaceMap) {ts us : List Token} {p : Node}
    (hts : ts ≠ []) (h : us.map m.token = ts.map m.token) (hp : program nesting ts = .ok p) :
    ∃ q, program nesting us = .ok q ∧ m.node q = m.node p := by
  have hus : us ≠ [] := by
    rintro rfl
    exact hts (List.map_eq_nil_iff.mp h.symm)
  have hboth := program_placed nesting m hus
  rw [h, program_placed nesting m hts, hp] at hboth
  cases hq : program nesting us with
  | ok q =>
    rw [hq] at hboth
    exact ⟨q, rfl, (Except.ok.inj hboth).symm⟩
  | error f =>
    rw [hq] at hboth
    cases hboth

/-- And they fail alike. -/
theorem program_error_of_placed_eq {nesting : Nat} (m : PlaceMap) {ts us : List Token} {f : Fault}
    (hts : ts ≠ []) (h : us.map m.token = ts.map m.token) (hf : program nesting ts = .error f) :
    ∃ g, program nesting us = .error g ∧ m.fault g = m.fault f := by
  have hus : us ≠ [] := by
    rintro rfl
    exact hts (List.map_eq_nil_iff.mp h.symm)
  have hboth := program_placed nesting m hus
  rw [h, program_placed nesting m hts, hf] at hboth
  cases hg : program nesting us with
  | ok q =>
    rw [hg] at hboth
    cases hboth
  | error g =>
    rw [hg] at hboth
    exact ⟨g, rfl, (Except.error.inj hboth).symm⟩

end Parser

end ScopeScript
