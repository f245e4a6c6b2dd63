import ScopeScript.Token.Lexer

/-!
# Cutting a text piece by piece

`Cuts` is the cutting of a text without fuel. A piece of a text is cut in the
same way wherever it stands, as long as the text after it does not go on with
its last token; `Reads` says so for one piece, and pieces are put together.
-/

namespace ScopeScript.Lexer

/-- The tokens of a text that starts at a position, the comments among them. -/
inductive Cuts : Position → List Char → List Token → Prop where
  | done {p : Position} : Cuts p [] [endToken p]
  | next {p : Position} {c : Char} {cs : List Char} {l : Lexeme} {ts : List Token} :
    lexeme p c cs = .ok l → Cuts l.next l.rest ts → Cuts p (c :: cs) (l.token?.toList ++ ts)

theorem lexemes_eq_ok_iff {fuel : Nat} {p : Position} {cs : List Char} {ts : List Token}
    (enough : cs.length ≤ fuel) : lexemes fuel p cs = .ok ts ↔ Cuts p cs ts := by
  induction fuel generalizing p cs ts with
  | zero =>
    obtain rfl := List.eq_nil_of_length_eq_zero (Nat.le_zero.mp enough)
    constructor
    · intro h
      cases h
      exact .done
    · rintro ⟨⟩
      rfl
  | succ fuel ih =>
    cases cs with
    | nil =>
      constructor
      · intro h
        cases h
        exact .done
      · rintro ⟨⟩
        rfl
    | cons c cs =>
      rw [lexemes]
      constructor
      · intro h
        cases hl : lexeme p c cs with
        | error f => simp [hl, bind, Except.bind] at h
        | ok l =>
          have hle := length_rest_lexeme hl
          simp only [List.length_cons] at enough
          cases hr : lexemes fuel l.next l.rest with
          | error f => simp [hl, hr, bind, Except.bind] at h
          | ok us =>
            simp only [hl, hr, bind, Except.bind, pure, Except.pure, Except.ok.injEq] at h
            subst h
            exact .next hl ((ih (by omega)).mp hr)
      · intro h
        cases h with
        | next hl hcuts =>
          have hle := length_rest_lexeme hl
          simp only [List.length_cons] at enough
          have hr := (ih (by omega)).mpr hcuts
          simp [hl, hr, bind, Except.bind, pure, Except.pure]

theorem tokenize_eq_ok_iff {cs : List Char} {ts : List Token} :
    tokenize cs = .ok ts ↔ ∃ us, Cuts .start cs us ∧ us.filter (·.kind ≠ .comment) = ts := by
  simp only [tokenize, tokenizeWithComments, Fault.map_eq_ok_iff,
    lexemes_eq_ok_iff (Nat.le_refl _)]

theorem Cuts.length_le {p : Position} {cs : List Char} {ts : List Token} (h : Cuts p cs ts) :
    ts.length ≤ cs.length + 1 := by
  induction h with
  | done => exact Nat.le_refl _
  | @next _ _ _ l _ hl _ ih =>
    have hrest := length_rest_lexeme hl
    have htoken : l.token?.toList.length ≤ 1 := by cases l.token? <;> simp
    simp only [List.length_append, List.length_cons]
    omega

/-- A text has at most one token for each character, and the end token. -/
theorem length_tokenize_le {cs : List Char} {ts : List Token} (h : tokenize cs = .ok ts) :
    ts.length ≤ cs.length + 1 := by
  obtain ⟨us, hcuts, rfl⟩ := tokenize_eq_ok_iff.mp h
  exact Nat.le_trans (List.length_filter_le ..) hcuts.length_le

/-! ## Pieces -/

/-- What stands next to a piece: nothing, or a character with a property. -/
def Follows (f : Char → Bool) : List Char → Prop
  | [] => True
  | c :: _ => f c = true

/-- A piece whose first character has a property. -/
def Starts (f : Char → Bool) (s : String) : Prop := ∃ c cs, s.toList = c :: cs ∧ f c = true

theorem Starts.follows {f : Char → Bool} {s : String} (h : Starts f s) (rest : List Char) :
    Follows f (s.toList ++ rest) := by
  obtain ⟨c, cs, hs, hc⟩ := h
  rw [hs]
  exact hc

theorem Starts.mono {f g : Char → Bool} {s : String} (h : Starts f s)
    (hfg : ∀ c, f c = true → g c = true) : Starts g s := by
  obtain ⟨c, cs, hs, hc⟩ := h
  exact ⟨c, cs, hs, hfg c hc⟩

theorem Starts.append {f : Char → Bool} {s : String} (h : Starts f s) (t : String) :
    Starts f (s ++ t) := by
  obtain ⟨c, cs, hs, hc⟩ := h
  exact ⟨c, cs ++ t.toList, by rw [String.toList_append, hs]; rfl, hc⟩

/-- In front of the end, or of a character with the property `f`, the piece is cut into
tokens with the property `P`, and none of them is a comment. -/
def Reads (f : Char → Bool) (s : String) (P : List Token → Prop) : Prop :=
  ∀ p rest, Follows f rest → ∃ ts q, P ts ∧ (∀ t ∈ ts, t.kind ≠ .comment) ∧
    ∀ us, Cuts q rest us → Cuts p (s.toList ++ rest) (ts ++ us)

variable {f g : Char → Bool} {s t : String} {P Q : List Token → Prop}

theorem Reads.empty (f : Char → Bool) : Reads f "" (· = []) :=
  fun p _ _ => ⟨[], p, rfl, List.forall_mem_nil _, fun _ h => h⟩

theorem Reads.imp (h : Reads f s P) (hPQ : ∀ ts, P ts → Q ts) : Reads f s Q := by
  intro p rest hrest
  obtain ⟨ts, q, hts, hcomment, hcuts⟩ := h p rest hrest
  exact ⟨ts, q, hPQ ts hts, hcomment, hcuts⟩

theorem Reads.mono (h : Reads f s P) (hfg : ∀ c, g c = true → f c = true) : Reads g s P := by
  intro p rest hrest
  apply h p rest
  cases rest with
  | nil => trivial
  | cons c rest => exact hfg c hrest

theorem Reads.append (hs : Reads f s P) (ht : Reads g t Q) (hft : Starts f t) :
    Reads g (s ++ t) fun ts => ∃ us vs, ts = us ++ vs ∧ P us ∧ Q vs := by
  intro p rest hrest
  obtain ⟨us, q, hP, hus, hcut⟩ := hs p (t.toList ++ rest) (hft.follows rest)
  obtain ⟨vs, r, hQ, hvs, hcut'⟩ := ht q rest hrest
  refine ⟨us ++ vs, r, ⟨us, vs, rfl, hP, hQ⟩, List.forall_mem_append.mpr ⟨hus, hvs⟩, ?_⟩
  intro ws hws
  rw [String.toList_append, List.append_assoc, List.append_assoc]
  exact hcut _ (hcut' ws hws)

/-- A token of a kind with a datum, and nothing else. -/
def IsToken (k : Kind) (d : Datum) (ts : List Token) : Prop :=
  ∃ t, ts = [t] ∧ t.kind = k ∧ t.datum = d

theorem Reads.cons {k : Kind} {d : Datum} (hs : Reads f s (IsToken k d)) (ht : Reads g t Q)
    (hft : Starts f t) :
    Reads g (s ++ t) fun ts => ∃ o us, ts = o :: us ∧ o.kind = k ∧ o.datum = d ∧ Q us := by
  apply (hs.append ht hft).imp
  rintro _ ⟨_, us, rfl, ⟨o, rfl, hk, hd⟩, hus⟩
  exact ⟨o, us, rfl, hk, hd, hus⟩

theorem Reads.of_lexeme {c : Char} {cs : List Char} (hs : s.toList = c :: cs)
    (h : ∀ p rest, Follows f rest → ∃ t q, lexeme p c (cs ++ rest) = .ok ⟨some t, q, rest⟩ ∧
      t.kind ≠ .comment ∧ P [t]) : Reads f s P := by
  intro p rest hrest
  obtain ⟨t, q, hl, hcomment, hP⟩ := h p rest hrest
  refine ⟨[t], q, hP, by simpa using hcomment, ?_⟩
  intro us hus
  rw [hs]
  exact .next hl hus

theorem Reads.tokenize (h : Reads f s P) :
    ∃ ts stop, P ts ∧ stop.kind = .endOfInput ∧
      ScopeScript.tokenize s.toList = .ok (ts ++ [stop]) := by
  obtain ⟨ts, q, hP, hcomment, hcut⟩ := h .start [] trivial
  refine ⟨ts, endToken q, hP, rfl, tokenize_eq_ok_iff.mpr ⟨ts ++ [endToken q], ?_, ?_⟩⟩
  · simpa using hcut _ .done
  · rw [List.filter_append, List.filter_eq_self.mpr (by simpa using hcomment)]
    rfl

end ScopeScript.Lexer
