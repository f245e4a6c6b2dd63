import ScopeScript.Proofs.Parser.Exact

/-!
# What the grammar puts together

The grammar adds tokens one by one, in brackets of one kind or as others, and
the end of the input is never among them. A property of lists of tokens that
survives this holds of whatever the grammar derives. Semicolons stand between
statements and in headers only, so a second property may leave them out.
-/

namespace ScopeScript

open Token (AllNewlines AllSeparators)

namespace Kind

def isBracket (k : Kind) : Bool := k.opens || k.closes

/-- The kind that closes an opening bracket. -/
def closer? : Kind → Option Kind
  | .openParen => some .closeParen
  | .openBracket => some .closeBracket
  | .openBrace => some .closeBrace
  | _ => none

theorem closer?_eq_some {o c : Kind} (h : o.closer? = some c) :
    o.opens = true ∧ c.opens = false ∧ c.closes = true := by
  cases o <;> cases h <;> exact ⟨rfl, rfl, rfl⟩

/-- The kinds of tokens that stand for themselves. -/
def isPlain (k : Kind) : Bool := !k.isBracket && k != .endOfInput

theorem isPlain_assignment {k : Kind} (h : k.isAssignment = true) :
    k.isPlain = true ∧ k ≠ .semicolon := by
  revert h
  cases k <;> decide

end Kind

theorem Stratum.isPlain_operator {s : Stratum} :
    ∀ k ∈ s.operators, k.isPlain = true ∧ k ≠ .semicolon := by
  cases s <;> decide

/-- A property that lists of tokens keep when the grammar puts them together. -/
structure Assembly (P : List Token → Prop) : Prop where
  nil : P []
  plain : ∀ {t : Token}, t.kind.isPlain = true → P [t]
  append : ∀ {ts us : List Token}, P ts → P us → P (ts ++ us)
  brackets : ∀ {o c : Token} {ts : List Token}, o.kind.closer? = some c.kind → P ts →
    P (o :: (ts ++ [c]))

/-- Two such properties: one of lists that may have semicolons outside of all brackets, and one
of lists that have none there. -/
structure Layers (P Q : List Token → Prop) : Prop where
  loose : ∀ {ts : List Token}, P ts → Q ts
  nil : P []
  plain : ∀ {t : Token}, t.kind.isPlain = true → t.kind ≠ .semicolon → P [t]
  semicolon : ∀ {t : Token}, t.kind = .semicolon → Q [t]
  append : ∀ {ts us : List Token}, P ts → P us → P (ts ++ us)
  appendLoose : ∀ {ts us : List Token}, Q ts → Q us → Q (ts ++ us)
  brackets : ∀ {o c : Token} {ts : List Token}, o.kind.closer? = some c.kind → Q ts →
    P (o :: (ts ++ [c]))

theorem Assembly.layers {P : List Token → Prop} (hP : Assembly P) : Layers P P where
  loose := id
  nil := hP.nil
  plain ht _ := hP.plain ht
  semicolon ht := hP.plain (by rw [ht]; rfl)
  append := hP.append
  appendLoose := hP.append
  brackets := hP.brackets

namespace Layers

variable {P Q : List Token → Prop} (hP : Layers P Q) {ts us : List Token} {t : Token} {k : Kind}
include hP

theorem cons (ht : t.kind = k) (hk : k.isPlain = true ∧ k ≠ .semicolon) (hts : P ts) :
    P (t :: ts) :=
  hP.append (hP.plain (ht ▸ hk.1) (ht ▸ hk.2)) hts

theorem consLoose (ht : t.kind = .semicolon) (hts : Q ts) : Q (t :: ts) :=
  hP.appendLoose (hP.semicolon ht) hts

theorem pair {o c : Token} (h : o.kind.closer? = some c.kind) (hts : Q ts) (hus : P us) :
    P (o :: (ts ++ c :: us)) := by
  rw [List.append_cons, ← List.cons_append]
  exact hP.append (hP.brackets h hts) hus

theorem of_newlines (h : AllNewlines ts) : P ts := by
  induction ts with
  | nil => exact hP.nil
  | cons t ts ih =>
    obtain ⟨ht, hts⟩ := List.forall_mem_cons.mp h
    exact hP.cons ht (by decide) (ih hts)

theorem of_separators (h : AllSeparators ts) : Q ts := by
  induction ts with
  | nil => exact hP.loose hP.nil
  | cons t ts ih =>
    obtain ⟨ht, hts⟩ := List.forall_mem_cons.mp h
    rcases ht with ht | ht
    · exact hP.appendLoose (hP.loose (hP.cons ht (by decide) hP.nil)) (ih hts)
    · exact hP.consLoose ht (ih hts)

end Layers

theorem assembly_no_end : Assembly fun ts => ∀ t ∈ ts, t.kind ≠ .endOfInput where
  nil := List.forall_mem_nil _
  plain ht := List.forall_mem_singleton.mpr fun hend => by
    rw [hend] at ht
    cases ht
  append hts hus := List.forall_mem_append.mpr ⟨hts, hus⟩
  brackets {o c ts} h hts := by
    have hopens : o.kind ≠ .endOfInput := fun hend => by
      rw [hend] at h
      cases h
    have hcloses : c.kind ≠ .endOfInput := fun hend => by
      have hc := (Kind.closer?_eq_some h).2.2
      rw [hend] at hc
      cases hc
    exact List.forall_mem_cons.mpr ⟨hopens,
      List.forall_mem_append.mpr ⟨hts, List.forall_mem_singleton.mpr hcloses⟩⟩

/-- Which of the properties the tokens of a symbol have. A list in brackets has one if its kinds
are those of a pair; a branch begins with a word that its caller has seen; only statements and
clauses may have semicolons outside of all brackets. -/
def Symbol.Layered (P Q : List Token → Prop) (symbol : Symbol) (ts : List Token) : Prop :=
  match symbol with
  | .bracketed opening closing => opening.closer? = some closing → P ts
  | .branch _ => P ts.tail
  | .statements _ | .clause _ => Q ts
  | _ => P ts

theorem Grammar.layered {P Q : List Token → Prop} (hP : Layers P Q) {trailing : Bool}
    {symbol : Symbol} {ts : List Token} {ns : List Node} (h : Grammar trailing symbol ts ns) :
    symbol.Layered P Q ts := by
  have hpair {o c : Token} {k k' : Kind} (ho : o.kind = k) (hc : c.kind = k')
      (hk : k.closer? = some k') : o.kind.closer? = some c.kind := by rw [ho, hc, hk]
  induction h with
  | tighten _ _ ih | chain _ ih | primary _ ih | someTest _ ih | block _ _ ih
  | expression _ _ _ ih => exact ih
  | binary _ hop _ ih ih' =>
    exact hP.append ih (hP.cons rfl (Stratum.isPlain_operator _ hop) ih')
  | unary hop _ ih =>
    exact hop.elim (hP.cons · (by decide) ih) (hP.cons · (by decide) ih)
  | index _ ho _ hc ih ih' => exact hP.append ih (hP.brackets (hpair ho hc rfl) (hP.loose ih'))
  | datum ht => exact ht.elim (hP.cons · (by decide) hP.nil) (hP.cons · (by decide) hP.nil)
  | truth ht | falsehood ht | name ht | lastName ht | exit ht =>
    exact hP.cons ht (by decide) hP.nil
  | call ht _ ih => exact hP.cons ht (by decide) (ih rfl)
  | group ho _ hc ih | parameters ho _ hc ih => exact hP.brackets (hpair ho hc rfl) (hP.loose ih)
  | array _ ih => exact ih rfl
  | function ht _ _ ih ih' => exact hP.cons ht (by decide) (hP.append ih ih')
  | bracketed ho hes _ hc ih =>
    intro hpaired
    rw [← List.append_assoc]
    exact hP.brackets (hpair ho hc hpaired) (hP.loose (hP.append (hP.of_newlines hes) ih))
  | noItems | noNames | noAlternative _ | noTest => exact hP.nil
  | noClause => exact hP.loose hP.nil
  | lastItem _ hes ih => exact hP.append ih (hP.of_newlines hes)
  | moreItems _ hes hc hfs _ ih ih' =>
    have hrest := hP.cons hc (by decide) (hP.append (hP.of_newlines hfs) ih')
    exact hP.append ih (hP.append (hP.of_newlines hes) hrest)
  | moreNames hx hc _ _ ih => exact hP.cons hx (by decide) (hP.cons hc (by decide) ih)
  | braced hes ho _ hc ih =>
    exact hP.append (hP.of_newlines hes) (hP.brackets (hpair ho hc rfl) ih)
  | noStatements _ hss => exact hP.of_separators hss
  | moreStatements hss _ _ ih ih' =>
    exact hP.appendLoose (hP.of_separators hss) (hP.appendLoose (hP.loose ih) ih')
  | print hw ho _ hc _ ih =>
    exact hP.cons hw (by decide) (hP.brackets (hpair ho hc rfl) (hP.loose ih))
  | fresh hw hx hop _ _ ih =>
    exact hP.cons hw (by decide) (hP.cons hx (by decide) (hP.cons hop (by decide) ih))
  | assign hx hop _ _ ih =>
    exact hP.cons hx (by decide) (hP.cons rfl (Kind.isPlain_assignment hop) ih)
  | conditional hw _ ih | chained hw _ ih | otherwise hw _ ih => exact hP.cons hw (by decide) ih
  | «while» hw ho _ hc _ ih ih' =>
    exact hP.cons hw (by decide) (hP.pair (hpair ho hc rfl) (hP.loose ih) ih')
  | «for» hw ho _ hs _ hs' _ hc _ ihinit ihtest ihstep ihbody =>
    have hheader := hP.appendLoose ihinit (hP.consLoose hs
      (hP.appendLoose (hP.loose ihtest) (hP.consLoose hs' ihstep)))
    have hwhole := hP.pair (hpair ho hc rfl) hheader ihbody
    simp only [List.append_assoc, List.cons_append] at hwhole
    exact hP.cons hw (by decide) hwhole
  | named hf hx _ _ ih ih' =>
    exact hP.cons hf (by decide) (hP.cons hx (by decide) (hP.append ih ih'))
  | branch ho _ hc _ hes _ ih ihbody ihrest =>
    have hrest := hP.append ihbody (hP.append (hP.of_newlines hes) ihrest)
    exact hP.pair (hpair ho hc rfl) (hP.loose ih) hrest
  | someClause hss _ _ ih => exact hP.appendLoose (hP.of_separators hss) (hP.loose ih)

theorem Grammar.keeps {P : List Token → Prop} (hP : Assembly P) {trailing : Bool} {symbol : Symbol}
    {ts : List Token} {ns : List Node} (h : Grammar trailing symbol ts ns) :
    symbol.Layered P P ts :=
  h.layered hP.layers

/-- A program that can be read is derived from all its tokens but the end of the input. -/
theorem Parser.derives_of_whole {nesting : Nat} {ts : List Token} {stop : Token} {p : Node}
    (h : program nesting (ts ++ [stop]) = .ok p) (hts : ∀ t ∈ ts, t.kind ≠ .endOfInput)
    (hstop : stop.kind = .endOfInput) :
    ∃ ns, p = .block ns none ∧ Derives (.statements .endOfInput) ts ns := by
  obtain ⟨e, us, ns, heq, hus, hp, he⟩ := derives_of_program h
  refine ⟨ns, hp, ?_⟩
  cases us with
  | nil =>
    have hinside : stop ∈ e := by
      rw [← List.append_nil e, ← heq]
      exact List.mem_append_right _ (List.mem_singleton_self stop)
    exact absurd hstop (he.keeps assembly_no_end stop hinside)
  | cons u us =>
    have hu : u.kind = .endOfInput := hus
    rcases List.eq_nil_or_concat us with rfl | ⟨vs, v, rfl⟩
    · exact (List.append_inj' heq rfl).1 ▸ he
    · rw [List.concat_eq_append, ← List.cons_append, ← List.append_assoc] at heq
      have hinside := (List.append_inj' heq rfl).1
      exact absurd hu (hts u (hinside ▸ List.mem_append_right _ (List.mem_cons_self ..)))

end ScopeScript
