import ScopeScript.Proofs.Parser.Locality
import ScopeScript.Proofs.Parser.Lockstep

/-!
# The end token

No parser reads an end token or looks behind one. So whatever stands behind the
first end token of a list makes no difference, and a list without one is read as
if it ended in an end token at the place of its last token.
-/

namespace ScopeScript.Parser

open Token (headKind)

variable {α β : Type} {j k : Nat} {ctx ctx' : Context} {rest ts us junk : List Token}
  {t stop : Token}

/-- Two tokens of one kind at one place. -/
structure SamePlace (t t' : Token) : Prop where
  kind : t'.kind = t.kind
  line : t'.line = t.line
  column : t'.column = t.column

/-- The second run has the fault of the first one, unless that has run out of rounds, or its
result, and then leaves `rest` behind what the first run leaves. -/
def Ignores (rest : List Token) : Except Fault (α × List Token) →
    Except Fault (α × List Token) → Prop
  | .error f, y => f = .iterationLimit ∨ y = .error f
  | .ok (a, us), y => (∀ t ∈ us, t.kind ≠ .endOfInput) ∧ y = .ok (a, us ++ rest)

/-- The second run has `rest` behind the tokens of the first one, which has no end token. -/
def RunsBefore (rest : List Token) (p q : Parser α) (ts : List Token) : Prop :=
  (∀ t ∈ ts, t.kind ≠ .endOfInput) → Ignores rest (p ts) (q (ts ++ rest))

namespace RunsBefore

theorem pure (a : α) (ts : List Token) : RunsBefore rest (Pure.pure a) (Pure.pure a) ts :=
  fun hts => ⟨hts, rfl⟩

theorem of_error {p q : Parser α} {f : Fault} (hp : p ts = .error f)
    (hq : q (ts ++ rest) = .error f) : RunsBefore rest p q ts := by
  intro _
  rw [hp, hq]
  exact .inr rfl

theorem failAt {t t' : Token} (cause : ParseCause) (ts : List Token) (h : SamePlace t t') :
    RunsBefore rest (failAt t cause : Parser α) (failAt t' cause) ts := by
  unfold Parser.failAt
  rw [h.line, h.column]
  exact .of_error rfl rfl

theorem bind {p p' : Parser α} {q q' : α → Parser β} (hp : RunsBefore rest p p' ts)
    (hq : ∀ a us, RunsBefore rest (q a) (q' a) us) :
    RunsBefore rest (p >>= q) (p' >>= q') ts := by
  intro hts
  have hfirst := hp hts
  cases hrun : p ts with
  | error f =>
    have hfault : (p >>= q) ts = .error f := by
      change (p ts >>= fun x => q x.1 x.2) = _
      rw [hrun]
      rfl
    rw [hrun] at hfirst
    rw [hfault]
    refine hfirst.imp_right fun hp' => ?_
    change (p' (ts ++ rest) >>= fun x => q' x.1 x.2) = _
    rw [hp']
    rfl
  | ok r =>
    obtain ⟨a, us⟩ := r
    rw [hrun] at hfirst
    rw [bind_of_ok hrun, bind_of_ok hfirst.2]
    exact hq a us hfirst.1

theorem advance {q q' : Unit → Parser α} (t : Token) (hq : RunsBefore rest (q ()) (q' ()) us) :
    RunsBefore rest (advance >>= q) (advance >>= q') (t :: us) :=
  fun hts => hq (List.forall_mem_cons.mp hts).2

theorem skip (kinds : List Kind) (ts : List Token) (hkinds : Kind.endOfInput ∉ kinds)
    (hrest : headKind rest .endOfInput = .endOfInput) :
    RunsBefore rest (skip kinds) (skip kinds) ts := by
  intro hts
  have hskip : Parser.skip kinds ts = .ok ((), ts.dropWhile fun t => kinds.contains t.kind) :=
    skip_run
  obtain ⟨es, hes, heq, hus⟩ := skip_ok hskip
  generalize ts.dropWhile (fun t => kinds.contains t.kind) = us at heq hus
  subst heq
  have hstop : ∀ t vs, us ++ rest = t :: vs → t.kind ∉ kinds := by
    intro t vs hvs
    cases us with
    | nil =>
      rw [List.nil_append] at hvs
      rw [hvs, Token.headKind_cons] at hrest
      exact hrest ▸ hkinds
    | cons u us => exact (List.cons.inj hvs).1 ▸ hus u us rfl
  rw [List.append_assoc, skip_append hes hstop, skip_append hes hus]
  exact ⟨fun t ht => hts t (List.mem_append_right es ht), rfl⟩

theorem rounds {loop loop' : Nat → Parser α}
    (hloop : ∀ n n', n ≤ n' → RunsBefore rest (loop n) (loop' n') ts) :
    RunsBefore rest (get >>= fun us => loop (us.length + 1))
      (get >>= fun us => loop' (us.length + 1)) ts := by
  have hle : ts.length + 1 ≤ (ts ++ rest).length + 1 := by
    rw [List.length_append]
    omega
  exact hloop _ _ hle

end RunsBefore

/-- Contexts in which the end token that follows stands for the one that the first run meets. -/
structure Ending (stop : Token) (ctx ctx' : Context) : Prop extends Alike ctx ctx' where
  line : stop.line = ctx.endToken.line
  column : stop.column = ctx.endToken.column

theorem Ending.samePlace (h : Ending stop ctx ctx') (hstop : stop.kind = .endOfInput) :
    SamePlace (ts.headD ctx.endToken) ((ts ++ stop :: junk).headD ctx'.endToken) := by
  cases ts with
  | nil => exact ⟨hstop.trans h.first_end.symm, h.line, h.column⟩
  | cons t ts => exact ⟨rfl, rfl, rfl⟩

/-- A run on tokens without an end token and another one on the same tokens in front of one. -/
def upToEnd (stop : Token) (junk : List Token) (hstop : stop.kind = .endOfInput) : Lockstep where
  Runs _ := RunsBefore (stop :: junk)
  Contexts := Ending stop
  Seen := SamePlace
  second_end h := h.second_end
  inHeader h := h.inHeader
  header h := { h with inHeader := rfl }
  seen_refl _ := ⟨rfl, rfl, rfl⟩
  kind_eq h := h.kind
  weaken h _ := h
  pure := .pure
  fail cause ts h := .failAt cause ts h
  tooDeep _ := .of_error rfl rfl
  exhausted _ _ := fun _ => .inl rfl
  bind := .bind
  seen h hq := fun hts => hq _ _ (kind_headD h.first_end) (h.samePlace hstop) hts
  taken _ hq := hq
  behind h hq := fun hts => hq _ _ (kind_headD h.first_end) (h.samePlace hstop) hts
  advance := .advance
  skip kinds ts hkinds := .skip kinds ts hkinds hstop
  rounds _ := .rounds

/-- The token that stands for the end of a list without one. -/
structure Implied (ts : List Token) (stop : Token) : Prop where
  kind : stop.kind = .endOfInput
  line : stop.line = (ts.getLast?.map Token.line).getD 0
  column : stop.column = (ts.getLast?.map Token.column).getD 0

theorem ending_of_implied (h : Implied ts stop) (us : List Token) :
    Ending stop (topContext ts) (topContext us) := by
  refine ⟨⟨kind_topContext, kind_topContext, rfl⟩, h.line.trans ?_, h.column.trans ?_⟩ <;>
  · rw [topContext, impliedEnd]
    cases ts.getLast? <;> rfl

theorem run'_eq_of_runsBefore {m : α → Nat} {p q : Parser α}
    (h : RunsBefore rest p q ts) (hts : ∀ t ∈ ts, t.kind ≠ .endOfInput)
    (hends : Ends (fun f => f ≠ .iterationLimit) m p ts) :
    q.run' (ts ++ rest) = p.run' ts := by
  have hrun := h hts
  cases hp : p ts with
  | error f =>
    rw [hp] at hrun
    rw [run'_eq_error.mpr hp]
    exact run'_eq_error.mpr (hrun.resolve_left (hends.error f hp))
  | ok r =>
    obtain ⟨a, us⟩ := r
    rw [hp] at hrun
    rw [run'_eq_ok.mpr ⟨us, hp⟩]
    exact run'_eq_ok.mpr ⟨us ++ rest, hrun.2⟩

/-- A list without an end token is read as with one at the place of its last token, at zero if it
is empty, and whatever stands behind that: as the same tree or with the same fault. -/
theorem nothing_read_behind_end (nesting : Nat) (hts : ∀ t ∈ ts, t.kind ≠ .endOfInput)
    (hstop : Implied ts stop) (junk : List Token) :
    program nesting (ts ++ stop :: junk) = program nesting ts ∧
      fragment nesting (ts ++ stop :: junk) = fragment nesting ts := by
  have hctx := ending_of_implied hstop (ts ++ stop :: junk)
  constructor
  · exact run'_eq_of_runsBefore
      (Lockstep.programTree (s := upToEnd stop junk hstop.kind) hctx nesting) hts
      (programTree_ends (fun _ _ _ => nofun) kind_topContext fun _ => nofun)
  · exact run'_eq_of_runsBefore
      (Lockstep.fragmentTree (s := upToEnd stop junk hstop.kind) hctx nesting) hts
      (fragmentTree_ends (fun _ _ _ => nofun) kind_topContext fun _ => nofun)

/-- The parenthesis that `print(a` lacks stands behind the end token, and so does a brace that
would close no block. -/
theorem closing_brackets_behind_end_not_read :
    let a : Token := ⟨.name, .text "a", 1, 7, ['a']⟩
    let print : List Token := [⟨.printWord, .text "print", 1, 1, "print".toList⟩,
      ⟨.openParen, .text "(", 1, 6, ['(']⟩, a]
    let stop : Token := ⟨.endOfInput, .absent, 1, 7, []⟩
    let close : Token := ⟨.closeParen, .text ")", 1, 9, [')']⟩
    let brace : Token := ⟨.closeBrace, .text "\x7d", 1, 9, ['\x7d']⟩
    program 8 (print ++ stop :: [close]) = .error (.grammar (.missing .closePrint) 1 7) ∧
      program 8 ([a] ++ stop :: [brace]) =
        .ok (.block [.expression (.leaf (.ofName a)) (some 1)] none) ∧
      fragment 8 ([a] ++ stop :: [brace]) = .ok (.leaf (.ofName a)) ∧
      program 8 ([] ++ ⟨.endOfInput, .absent, 0, 0, []⟩ :: [brace]) = .ok (.block [] none) := by
  intro a print stop close brace
  have hprint : program 8 (print ++ stop :: [close]) = program 8 print ∧ _ :=
    nothing_read_behind_end 8 (by decide) ⟨rfl, rfl, rfl⟩ [close]
  have hname : program 8 ([a] ++ stop :: [brace]) = program 8 [a] ∧ _ :=
    nothing_read_behind_end 8 (by decide) ⟨rfl, rfl, rfl⟩ [brace]
  have hempty : program 8 ([] ++ ⟨.endOfInput, .absent, 0, 0, []⟩ :: [brace]) = program 8 [] ∧ _ :=
    nothing_read_behind_end 8 (by decide) ⟨rfl, rfl, rfl⟩ [brace]
  exact ⟨hprint.1.trans rfl, hname.1.trans rfl, hname.2.trans rfl, hempty.1.trans rfl⟩

end ScopeScript.Parser
