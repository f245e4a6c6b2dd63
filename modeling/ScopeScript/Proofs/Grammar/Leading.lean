import ScopeScript.Proofs.Grammar

/-!
# First tokens

No phrase of an expression or a statement is empty, and its first token tells
it apart from a separator, from the end of a block and from the other phrases.
-/

namespace ScopeScript

namespace Kind

def beginsExpression : Kind → Bool
  | .number | .string | .name | .trueWord | .falseWord | .openParen | .openBracket | .fnWord
  | .minus | .bang => true
  | _ => false

/-- The words and the brace that begin a statement and no expression. -/
def leadsStatement : Kind → Bool
  | .openBrace | .printWord | .letWord | .ifWord | .whileWord | .forWord | .breakWord => true
  | _ => false

def beginsStatement (k : Kind) : Bool := k.beginsExpression || k.leadsStatement

end Kind

namespace Token

def isSeparator (t : Token) : Bool := t.kind == .newline || t.kind == .semicolon

theorem AllSeparators.isSeparator {ts : List Token} (h : AllSeparators ts) :
    ∀ t ∈ ts, t.isSeparator = true := by
  intro t ht
  rcases h t ht with hk | hk <;> rw [Token.isSeparator, hk] <;> rfl

end Token

theorem Kind.beginsStatement_isSeparator {t : Token} (h : t.kind.beginsStatement = true) :
    ¬t.isSeparator = true := by
  rw [Token.isSeparator]
  cases hk : t.kind <;> first | decide | (rw [hk] at h; exact absurd h (by decide))

/-- The first token of an expression; after the word `fn` stands a parenthesis. -/
def LeadsExpression (ts : List Token) : Prop :=
  ∃ t us, ts = t :: us ∧ t.kind.beginsExpression = true ∧
    (t.kind = .fnWord → ∃ o vs, us = o :: vs ∧ o.kind = .openParen)

theorem LeadsExpression.append {ts : List Token} (h : LeadsExpression ts) (us : List Token) :
    LeadsExpression (ts ++ us) := by
  obtain ⟨t, ts, rfl, ht, hfn⟩ := h
  refine ⟨t, ts ++ us, rfl, ht, fun hk => ?_⟩
  obtain ⟨o, vs, rfl, ho⟩ := hfn hk
  exact ⟨o, vs ++ us, rfl, ho⟩

namespace Symbol

def isExpression : Symbol → Bool
  | .level _ | .chain | .primary => true
  | _ => false

end Symbol

namespace Grammar

variable {trailing : Bool} {ts : List Token} {ns : List Node}

theorem leads_of_symbol {symbol : Symbol} (h : Grammar trailing symbol ts ns)
    (hs : symbol.isExpression = true) : LeadsExpression ts := by
  induction h with
  | tighten _ _ ih | chain _ ih | primary _ ih => exact ih rfl
  | binary _ _ _ ih _ | index _ _ _ _ ih _ => exact (ih rfl).append _
  | unary hop _ _ =>
    refine ⟨_, _, rfl, ?_, fun hk => ?_⟩
    · rcases hop with hop | hop <;> rw [hop] <;> rfl
    · rcases hop with hop | hop <;> rw [hop] at hk <;> cases hk
  | datum ht =>
    refine ⟨_, _, rfl, ?_, fun hk => ?_⟩
    · rcases ht with ht | ht <;> rw [ht] <;> rfl
    · rcases ht with ht | ht <;> rw [ht] at hk <;> cases hk
  | truth ht | falsehood ht | name ht | call ht _ _ | group ht _ _ _ =>
    refine ⟨_, _, rfl, by rw [ht]; rfl, fun hk => ?_⟩
    rw [ht] at hk
    cases hk
  | array h _ =>
    cases h with
    | bracketed ho _ _ _ =>
      refine ⟨_, _, rfl, by rw [ho]; rfl, fun hk => ?_⟩
      rw [ho] at hk
      cases hk
  | function hf hps _ _ _ =>
    cases hps with
    | parameters ho _ _ => exact ⟨_, _, rfl, by rw [hf]; rfl, fun _ => ⟨_, _, rfl, ho⟩⟩
  | _ => cases hs

theorem leads {s : Stratum} {n : Node} (h : Grammar trailing (.level s) ts [n]) :
    LeadsExpression ts :=
  h.leads_of_symbol rfl

theorem beginsAssignment_cons {t : Token} {us : List Token} (h : t.kind ≠ .name) :
    Token.beginsAssignment (t :: us) = false := by
  cases us with
  | nil => rfl
  | cons op us => simp [Token.beginsAssignment, h]

/-- After the name that a chain may begin with stands a bracket, if anything. -/
theorem beginsAssignment_of_symbol {symbol : Symbol} (h : Grammar trailing symbol ts ns)
    (hs : symbol = .chain ∨ symbol = .primary) : Token.beginsAssignment ts = false := by
  induction h with
  | primary _ ih => exact ih (.inr rfl)
  | @index cs ps o c _ _ h ho _ _ ih _ =>
    have hcs := ih (.inl rfl)
    obtain ⟨t, us, rfl, -, -⟩ := h.leads_of_symbol rfl
    cases us with
    | nil => simp [Token.beginsAssignment, ho, Kind.isAssignment]
    | cons op us => exact hcs
  | datum _ | truth _ | falsehood _ | name _ => rfl
  | call _ h _ =>
    cases h with
    | bracketed ho _ _ _ => simp [Token.beginsAssignment, ho, Kind.isAssignment]
  | group ho _ _ _ => exact beginsAssignment_cons (by rw [ho]; decide)
  | array h _ =>
    cases h with
    | bracketed ho _ _ _ => exact beginsAssignment_cons (by rw [ho]; decide)
  | function hf _ _ _ _ => exact beginsAssignment_cons (by rw [hf]; decide)
  | _ => rcases hs with hs | hs <;> cases hs

theorem braced_ne_nil (h : Grammar trailing .braced ts ns) : ts ≠ [] := by
  cases h with
  | braced _ _ _ _ => simp

theorem begins_statement {next : Kind} {t : Token}
    (h : Grammar trailing (.statement next) (t :: ts) ns) : t.kind.beginsStatement = true := by
  cases h with
  | block ht _ | print ht _ _ _ _ | fresh ht _ _ _ _ | assign ht _ _ _ | conditional ht _
  | «while» ht _ _ _ _ | «for» ht _ _ _ _ _ _ _ _ | exit ht | named ht _ _ _ =>
    rw [ht]
    rfl
  | expression h _ _ =>
    obtain ⟨x, xs, heq, hx, -⟩ := h.leads
    cases heq
    rw [Kind.beginsStatement, hx, Bool.true_or]

end Grammar

end ScopeScript
