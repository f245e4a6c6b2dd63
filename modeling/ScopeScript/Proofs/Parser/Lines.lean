import ScopeScript.Proofs.Parser.Locality

/-!
# Programs on consecutive lines

Two programs with a line end between them are a program: its statements are
those of the first program and, further down, those of the second one. It nests
no deeper than they do.
-/

namespace ScopeScript

open Token (headKind)

namespace Parser

variable {s : Seam} {ctx ctx' : Context} {d : Descent} {ts ts' us vs : List Token}
  {ns ms : List Node} {nesting : Nat}

theorem statement_skip (h : ts.dropWhile (fun t => [Kind.newline, .semicolon].contains t.kind) =
      ts'.dropWhile fun t => [Kind.newline, .semicolon].contains t.kind) :
    statement ctx d ts = statement ctx d ts' := by
  rw [statement, bind_of_ok skip_run, bind_of_ok skip_run, h]

/-- Separators in front of statements make no difference. -/
theorem statements_skip (fuel : Nat)
    (h : ts.dropWhile (fun t => [Kind.newline, .semicolon].contains t.kind) =
      ts'.dropWhile fun t => [Kind.newline, .semicolon].contains t.kind) :
    statements ctx d.next fuel ts = statements ctx d.next fuel ts' := by
  cases fuel with
  | zero => rfl
  | succ fuel =>
    have hstatement : d.next.statement ctx ts = d.next.statement ctx ts' := statement_skip h
    rw [statements]
    change (d.next.statement ctx ts >>= _) = (d.next.statement ctx ts' >>= _)
    rw [hstatement]

theorem statements_stop {stop : Token} (hstop : stop.kind = .endOfInput) :
    statements ctx d.next 1 [stop] = .ok ([], [stop]) := by
  have hnone : statement ctx d [stop] = .ok (none, [stop]) := by
    rw [statement, bind_of_ok skip_run,
      List.dropWhile_cons_of_neg (by rw [hstop]; decide), bind_of_ok current_run,
      if_pos (.inl hstop)]
    rfl
  exact bind_eq_ok.mpr ⟨none, [stop], hnone, rfl⟩

/-- Every statement reads a token, so any bound above their number will do. -/
theorem statements_of_length_lt (hEnd : ctx.endToken.kind = .endOfInput) (hs : d.Sound)
    {fuel fuel' : Nat} {r : List Node × List Token} (h : statements ctx d fuel ts = .ok r)
    (hfuel : ts.length < fuel') : statements ctx d fuel' ts = .ok r := by
  induction fuel generalizing fuel' ts r with
  | zero => exact absurd h throw_ne_ok
  | succ fuel ih =>
    obtain ⟨fuel', rfl⟩ := Nat.exists_eq_add_of_le' (Nat.one_le_of_lt hfuel)
    rw [statements, bind_eq_ok] at h ⊢
    obtain ⟨o, us, ho, h⟩ := h
    refine ⟨o, us, ho, ?_⟩
    cases o with
    | none => exact h
    | some n =>
      obtain ⟨ss, t, vs, m, -, rfl, -, -⟩ := hs.statement hEnd ho
      simp only [List.length_append, List.length_cons] at hfuel
      obtain ⟨ns, ws, hns, h⟩ := bind_eq_ok.mp h
      exact bind_eq_ok.mpr ⟨ns, ws, ih hns (by omega), h⟩

/-- Where the first run finds no further statement before the end of its input, the second one
goes on with what comes next. -/
theorem statement_seam (h : s.Aligned ts ts')
    (ho : statement ctx d ts = .ok (none, us)) (hus : AtEnd us) :
    ts'.dropWhile (fun t => [Kind.newline, .semicolon].contains t.kind) =
      s.second.dropWhile fun t => [Kind.newline, .semicolon].contains t.kind := by
  rcases h.skip [.newline, .semicolon] with ⟨t, vs, vs', hts, -, ht, -⟩ | ⟨-, hts'⟩
  · rw [statement, bind_of_ok skip_run, bind_of_ok current_run, hts, ite_eq_ok] at ho
    rcases ho with ⟨-, ho⟩ | ⟨-, ho⟩
    · obtain ⟨-, rfl⟩ := pure_eq_ok.mp ho
      exact absurd hus ht
    · obtain ⟨n, ws, -, ho⟩ := bind_eq_ok.mp ho
      cases (pure_eq_ok.mp ho).1
  · exact hts'

/-- No statement begins with a word that goes on with a branch. -/
theorem statements_starts {fuel : Nat} {r : List Node × List Token}
    (h : statements ctx d.next fuel ts = .ok r) {k : Kind} (hk : k = .elifWord ∨ k = .elseWord) :
    headKind (ts.dropWhile fun t => [Kind.newline].contains t.kind) .endOfInput ≠ k := by
  intro hhead
  rw [← statements_skip fuel (dropWhile_separators ts)] at h
  obtain ⟨t, us, hts, rfl⟩ := Token.eq_cons_of_headKind hhead (by rintro rfl; simp at hk)
  rw [hts] at h
  cases fuel with
  | zero => exact throw_ne_ok h
  | succ fuel =>
    rw [statements, bind_eq_ok] at h
    obtain ⟨o, vs, ho, -⟩ := h
    change statement ctx d (t :: us) = _ at ho
    rw [statement, bind_of_ok skip_run,
      List.dropWhile_cons_of_neg (by rcases hk with hk | hk <;> rw [hk] <;> decide),
      bind_of_ok current_run, List.headD_cons,
      if_neg (by rcases hk with hk | hk <;> rw [hk] <;> decide), bind_eq_ok] at ho
    obtain ⟨n, ws, hn, -⟩ := ho
    rw [statementAt, bind_of_ok second_run] at hn
    rcases hk with hk | hk <;> simp only [hk] at hn <;> exact failAt_ne_ok hn

theorem statements_seam (hctx : Alike ctx ctx') (hd : d.Local) (hs : d.Sound) {fuel fuel' : Nat}
    (hsecond : statements ctx' d.next fuel' s.second = .ok (ms, vs))
    (hns : statements ctx d.next fuel ts = .ok (ns, us)) (hus : AtEnd us)
    (h : s.Aligned ts ts') : ∃ fuel,
      statements ctx' d.next fuel ts' = .ok (ns.map s.node ++ ms, vs) := by
  induction fuel generalizing ts ts' ns with
  | zero => exact absurd hns throw_ne_ok
  | succ fuel ih =>
    rw [statements, bind_eq_ok] at hns
    obtain ⟨o, xs, ho, hns⟩ := hns
    cases o with
    | none =>
      obtain ⟨rfl, rfl⟩ := pure_eq_ok.mp hns
      exact ⟨fuel', statements_skip fuel' (statement_seam h ho hus) ▸ hsecond⟩
    | some n =>
      obtain ⟨ns, ys, hns, heq⟩ := bind_eq_ok.mp hns
      obtain ⟨rfl, rfl⟩ := pure_eq_ok.mp heq
      rcases statement_follows hctx hd hs h (some n) xs ho with ⟨xs', ho', hxs⟩ | ⟨hxs, hpast⟩
      · obtain ⟨fuel, hrest⟩ := ih hns hxs
        exact ⟨fuel + 1, bind_eq_ok.mpr ⟨_, _, ho', bind_eq_ok.mpr ⟨_, _, hrest, rfl⟩⟩⟩
      · obtain ⟨rfl, -⟩ := statements_atEnd hctx (Descent.Sound.next hs) hxs hns
        have hrest : statements ctx' d.next fuel' s.beyond = .ok (ms, vs) :=
          (statements_skip fuel' (dropWhile_separators s.second)).trans hsecond
        exact ⟨fuel' + 1, bind_eq_ok.mpr ⟨_, _, hpast rfl, bind_eq_ok.mpr ⟨_, _, hrest, rfl⟩⟩⟩

/-! ## Programs -/

theorem program_eq_ok_iff {p : Node} : program nesting ts = .ok p ↔ ∃ fuel ns us,
    statements (topContext ts) (descent nesting) fuel ts = .ok (ns, us) ∧ AtEnd us ∧
      p = .block ns none := by
  rw [program, run'_eq_ok]
  constructor
  · rintro ⟨rest, h⟩
    rw [programTree, bind_eq_ok] at h
    obtain ⟨ns, us, hns, h⟩ := h
    rw [bind_of_ok current_run, ite_eq_ok, kind_headD kind_topContext] at h
    rcases h with ⟨hk, h⟩ | ⟨-, h⟩
    · exact ⟨_, ns, us, hns, hk, (pure_eq_ok.mp h).1⟩
    · exact absurd h failAt_ne_ok
  · rintro ⟨fuel, ns, us, hns, hus, rfl⟩
    have hbody : blockBody (topContext ts) (descent nesting) ts = .ok (ns, us) :=
      statements_of_length_lt kind_topContext (descent_sound nesting) hns (Nat.lt_succ_self _)
    have hkind : ((us.headD (topContext ts).endToken).kind = .endOfInput) :=
      (kind_headD kind_topContext).trans hus
    refine ⟨us, ?_⟩
    rw [programTree, bind_of_ok hbody, bind_of_ok current_run, if_pos hkind]
    rfl

/-- The end of a text, maybe behind a line end. -/
def Closes (ts : List Token) : Prop :=
  ∃ stop, stop.kind = .endOfInput ∧
    (ts = [stop] ∨ ∃ nl, nl.kind = .newline ∧ ts = [nl, stop])

namespace Seam

/-- The same end of the input, further down. -/
def atStop (k : Nat) {stop : Token} (h : stop.kind = .endOfInput) : Seam where
  shift := k
  first := [stop]
  second := [stop.below k]
  first_ends := by
    rw [Token.headKind_cons, h]
    rfl
  second_ends := by
    rw [Token.headKind_cons, Token.below_kind, h]
    rfl
  length_le := Nat.le_refl 1
  first_stops := by
    rw [List.dropWhile_cons_of_neg (by rw [h]; decide)]
    exact h
  second_starts := by
    rw [List.dropWhile_cons_of_neg (by rw [Token.below_kind, h]; decide), Token.headKind_cons,
      Token.below_kind, h]
    decide

/-- A line end with further tokens in the place of the end of the input. -/
def atLine {first second : List Token} {nl : Token} (hfirst : Closes first)
    (hnl : nl.kind = .newline) (hsecond : second ≠ [])
    (hstarts : ∀ {k}, k = .elifWord ∨ k = .elseWord →
      headKind (second.dropWhile fun t => [Kind.newline].contains t.kind) .endOfInput ≠ k) :
    Seam where
  shift := 0
  first := first
  second := nl :: second
  first_ends := by
    obtain ⟨stop, hstop, rfl | ⟨nl, hnl, rfl⟩⟩ := hfirst
    · rw [Token.headKind_cons, hstop]
      rfl
    · rw [Token.headKind_cons, hnl]
      rfl
  second_ends := by
    rw [Token.headKind_cons, hnl]
    rfl
  length_le := by
    have hlength := List.length_pos_iff.mpr hsecond
    obtain ⟨stop, -, rfl | ⟨nl, -, rfl⟩⟩ := hfirst <;>
      simp only [List.length_cons, List.length_nil] <;> omega
  first_stops := by
    obtain ⟨stop, hstop, rfl | ⟨nl, hnl, rfl⟩⟩ := hfirst
    · rw [List.dropWhile_cons_of_neg (by rw [hstop]; decide)]
      exact hstop
    · rw [List.dropWhile_cons_of_pos (by rw [hnl]; decide),
        List.dropWhile_cons_of_neg (by rw [hstop]; decide)]
      exact hstop
  second_starts := by
    rw [List.dropWhile_cons_of_pos (by rw [hnl]; decide)]
    exact ⟨hstarts (.inl rfl), hstarts (.inr rfl)⟩

end Seam

/-- Both programs are followed into the text of the two: the second one to its end, which is
further down, and the first one to the line end, behind which the second one goes on. -/
theorem program_lines {xs first : List Token} {nl stop : Token} {p q : Node} (k : Nat)
    (hxs : ∀ t ∈ xs, t.kind ≠ .endOfInput) (hfirst : Closes first) (hnl : nl.kind = .newline)
    (hus : ∀ t ∈ us, t.kind ≠ .endOfInput) (hstop : stop.kind = .endOfInput)
    (hp : program nesting (xs ++ first) = .ok p) (hq : program nesting (us ++ [stop]) = .ok q) :
    program nesting (xs ++ nl :: (us ++ [stop]).map (.below k)) =
      .ok (.block (p.children ++ q.children.map (Node.relocated (.below k))) none) := by
  obtain ⟨fuel, ns, vs, hns, hvs, rfl⟩ := program_eq_ok_iff.mp hp
  obtain ⟨fuel', ms, ws, hms, hws, rfl⟩ := program_eq_ok_iff.mp hq
  cases nesting with
  | zero =>
    cases fuel with
    | zero => exact absurd hns throw_ne_ok
    | succ fuel => exact absurd hns (bind_stuck (fun _ => throw_ne_ok) _)
  | succ nesting =>
    have hd := descent_local nesting
    have hs := descent_sound nesting
    have hlike {ts ts' : List Token} : Alike (topContext ts) (topContext ts') :=
      ⟨kind_topContext, kind_topContext, rfl⟩
    rw [List.map_append, List.map_singleton]
    generalize hwhole : xs ++ nl :: (us.map (.below k) ++ [stop.below k]) = whole
    obtain ⟨fuel', hsecond⟩ : ∃ fuel, statements (topContext whole) (descent nesting).next fuel
        (us.map (.below k) ++ [stop.below k]) =
          .ok (ms.map (Node.relocated (.below k)) ++ [], [stop.below k]) :=
      statements_seam (s := .atStop k hstop) hlike hd hs (statements_stop hstop) hms hws
        ⟨us, hus, rfl, rfl⟩
    have hline : statements (topContext whole) (descent nesting).next fuel'
        (nl :: (us.map (.below k) ++ [stop.below k])) =
          .ok (ms.map (Node.relocated (.below k)) ++ [], [stop.below k]) :=
      (statements_skip fuel' (List.dropWhile_cons_of_pos (by rw [hnl]; decide))).trans hsecond
    have hsame : whole = xs.map (.below 0) ++ nl :: (us.map (.below k) ++ [stop.below k]) := by
      have hid : Token.below 0 = id := by
        funext t
        exact congrArg (fun l => { t with line := l }) (Nat.zero_add t.line)
      rw [hid, List.map_id, hwhole]
    obtain ⟨fuel, hboth⟩ : ∃ fuel, statements (topContext whole) (descent nesting).next fuel whole =
        .ok (ns.map (Node.relocated (.below 0)) ++ (ms.map (Node.relocated (.below k)) ++ []),
          [stop.below k]) :=
      statements_seam (s := .atLine hfirst hnl (by simp) (statements_starts hsecond)) hlike hd hs
        hline hns hvs ⟨xs, hxs, rfl, hsame⟩
    have hunmoved : ns.map (Node.relocated (.below 0)) = ns := by
      rw [Relocation.below_zero, List.map_congr_left fun n _ => Node.relocated_id n, List.map_id']
    rw [hunmoved, List.append_nil] at hboth
    exact program_eq_ok_iff.mpr ⟨fuel, _, _, hboth, hstop, rfl⟩

end Parser

/-- Programs that can be read can be read on consecutive lines. -/
theorem parse_lines {nesting : Nat} {cs ds : List Char} {p q : Node}
    (hp : parse nesting cs = .ok p) (hq : parse nesting ds = .ok q) :
    ∃ k, parse nesting (cs ++ '\n' :: ds) =
      .ok (.block (p.children ++ q.children.map (Node.relocated (.below k))) none) := by
  obtain ⟨ts, hts, hp⟩ := Fault.bind_eq_ok_iff.mp hp
  obtain ⟨us, hus, hq⟩ := Fault.bind_eq_ok_iff.mp hq
  obtain ⟨xs, nl, stop, k, hnl, hstop, hxs, hend, hlines⟩ := tokenize_lines hts hus
  obtain ⟨vs, last, rfl, hlast, hvs⟩ := tokenize_ends hus
  obtain ⟨first, hfirst, rfl⟩ : ∃ first, Parser.Closes first ∧ ts = xs ++ first := by
    rcases hend with rfl | ⟨nl', hnl', rfl⟩
    · exact ⟨_, ⟨stop, hstop, .inl rfl⟩, rfl⟩
    · exact ⟨_, ⟨stop, hstop, .inr ⟨nl', hnl', rfl⟩⟩, rfl⟩
  exact ⟨k, Fault.bind_eq_ok_iff.mpr
    ⟨_, hlines, Parser.program_lines k hxs hfirst hnl hvs hlast hp hq⟩⟩

end ScopeScript
