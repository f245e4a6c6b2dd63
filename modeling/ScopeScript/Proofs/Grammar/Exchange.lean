import ScopeScript.Proofs.Grammar.Assembly
import ScopeScript.Proofs.Grammar.Leading
import ScopeScript.Proofs.Node.WellFormed

/-!
# Loops in their places

A `for` in a phrase begins a statement of it. Other tokens that stand for the
same statement wherever one may stand, and begin with a brace, can take its
place: the phrase with them stands for the same tree up to places.
-/

namespace ScopeScript

open Token (AllNewlines AllSeparators headKind)

variable {symbol : Symbol} {ts us vs : List Token} {ms ns : List Node} {m n : Node} {t : Token}

/-! ## What follows a statement -/

/-- What may stand in front of the first kind may stand in front of the second. -/
structure Kind.Eases (k k' : Kind) : Prop where
  ofPrint : k.endsPrint = true → k'.endsPrint = true
  ofExpression : k.endsExpression = true → k'.endsExpression = true
  ofBranch : k.continuesBranch = false → k'.continuesBranch = false

theorem Kind.Eases.refl (k : Kind) : k.Eases k := ⟨id, id, id⟩

theorem Kind.eases_of_forWord : Kind.forWord.Eases .openBrace := ⟨nofun, nofun, fun _ => rfl⟩

/-- Nothing but a statement and its branches depends on what follows. -/
def Symbol.Eased (symbol : Symbol) (ts : List Token) (ns : List Node) : Prop :=
  match symbol with
  | .statement k => ∀ k', k.Eases k' → Derives (.statement k') ts ns
  | .branch k => ∀ k', k.Eases k' → Derives (.branch k') ts ns
  | .alternative k => ∀ k', k.Eases k' → Derives (.alternative k') ts ns
  | _ => True

theorem Grammar.eased (h : Derives symbol ts ns) : symbol.Eased ts ns := by
  induction h with
  | block ho h _ => exact fun _ _ => .block ho h
  | print hw ho h hc hnext _ => exact fun _ hk => .print hw ho h hc (hk.ofPrint hnext)
  | fresh hw hx hop h hnext _ => exact fun _ hk => .fresh hw hx hop h (hk.ofExpression hnext)
  | assign hx hop h hnext _ => exact fun _ hk => .assign hx hop h (hk.ofExpression hnext)
  | conditional hw _ ih => exact fun k hk => .conditional hw (ih k hk)
  | «while» hw ho h hc hbody _ _ => exact fun _ _ => .while hw ho h hc hbody
  | «for» hw ho hinit hs htest hs' hstep hc hbody _ _ _ _ =>
    exact fun _ _ => .for hw ho hinit hs htest hs' hstep hc hbody
  | exit hw => exact fun _ _ => .exit hw
  | named hf hx hps hbody _ _ => exact fun _ _ => .named hf hx hps hbody
  | expression h hts hnext _ => exact fun _ hk => .expression h hts (hk.ofExpression hnext)
  | branch ho h hc hbody hes _ _ _ ih => exact fun k hk => .branch ho h hc hbody hes (ih k hk)
  | noAlternative hnext => exact fun _ hk => .noAlternative (hk.ofBranch hnext)
  | chained hw _ ih => exact fun k hk => .chained hw (ih k hk)
  | otherwise hw h _ => exact fun _ _ => .otherwise hw h
  | _ => trivial

/-! ## The same trees up to places -/

/-- The tokens stand for trees that differ from these in places only. -/
def DerivesSame (symbol : Symbol) (ts : List Token) (ns : List Node) : Prop :=
  ∃ ms, Derives symbol ts ms ∧ Node.allUnplaced ms = Node.allUnplaced ns

namespace DerivesSame

theorem of_single (h : Derives symbol ts [m]) (heq : m.unplaced = n.unplaced) :
    DerivesSame symbol ts [n] :=
  ⟨[m], h, by rw [Node.allUnplaced_cons, heq]; rfl⟩

theorem single (h : DerivesSame symbol ts [n]) :
    ∃ m, Derives symbol ts [m] ∧ m.unplaced = n.unplaced := by
  obtain ⟨ms, hms, heq⟩ := h
  match ms with
  | [] => cases heq
  | [m] => exact ⟨m, hms, (List.cons.inj heq).1⟩
  | _ :: _ :: _ => cases (List.cons.inj heq).2

end DerivesSame

/-! ## Exchanges -/

/-- The tokens begin with a brace and stand for the statement in front of any token. -/
def StandsFor (us : List Token) (n : Node) : Prop :=
  (∃ o vs, us = o :: vs ∧ o.kind = .openBrace) ∧
    ∀ next, DerivesSame (.statement next) us [n]

/-- `us` is `ts` with tokens that begin with a brace in the place of some that begin with
`for`. -/
def Exchanged (ts us : List Token) : Prop :=
  ∃ pre w post o rest, ts = pre ++ w :: post ∧ us = pre ++ o :: rest ∧
    w.kind = .forWord ∧ o.kind = .openBrace

namespace Exchanged

theorem headKind_eases (h : Exchanged ts us) (k : Kind) :
    (headKind ts k).Eases (headKind us k) := by
  obtain ⟨pre, w, post, o, rest, rfl, rfl, hw, ho⟩ := h
  cases pre with
  | nil =>
    change w.kind.Eases o.kind
    rw [hw, ho]
    exact Kind.eases_of_forWord
  | cons t pre => exact .refl _

theorem cons (h : Exchanged (t :: ts) us) :
    ∃ t' vs, us = t' :: vs ∧ (t' = t ∨ t'.kind = .openBrace) := by
  obtain ⟨pre, w, post, o, rest, heq, rfl, -, ho⟩ := h
  cases pre with
  | nil => exact ⟨o, rest, rfl, .inr ho⟩
  | cons u pre => exact ⟨u, pre ++ o :: rest, rfl, .inl (List.cons.inj heq).1.symm⟩

theorem beginsAssignment (h : Exchanged ts us) (hts : Token.beginsAssignment ts = false) :
    Token.beginsAssignment us = false := by
  obtain ⟨pre, w, post, o, rest, rfl, rfl, hw, ho⟩ := h
  match pre with
  | [] => exact Grammar.beginsAssignment_cons (by rw [ho]; decide)
  | [x] => simp [Token.beginsAssignment, ho, Kind.isAssignment]
  | x :: op :: pre => exact hts

end Exchanged

/-- Where a `for` stands in `ts`, a statement begins; and with tokens that stand for it in its
place, the list has the property. -/
structure Exchanges (P : List Token → Prop) (ts : List Token) : Prop where
  statement : ∀ pre w post, ts = pre ++ w :: post → w.kind = .forWord →
    ∃ fs rest next n, post = fs ++ rest ∧ Derives (.statement next) (w :: fs) [n] ∧
      ∀ us, StandsFor us n → P (pre ++ (us ++ rest))

namespace Exchanges

variable {P Q : List Token → Prop}

theorem mono (h : Exchanges P ts) (himp : ∀ us, Exchanged ts us → P us → Q us) :
    Exchanges Q ts := by
  refine ⟨fun pre w post hts hw => ?_⟩
  obtain ⟨fs, rest, next, n, rfl, hn, hP⟩ := h.statement pre w post hts hw
  refine ⟨fs, rest, next, n, rfl, hn, fun us hus => himp _ ?_ (hP us hus)⟩
  obtain ⟨⟨o, vs, rfl, ho⟩, -⟩ := hus
  exact ⟨pre, w, _, o, vs ++ rest, hts, rfl, hw, ho⟩

theorem of_none (h : ∀ t ∈ ts, t.kind ≠ .forWord) : Exchanges P ts := by
  refine ⟨fun pre w post hts hw => ?_⟩
  exact absurd hw (h w (hts ▸ List.mem_append_right _ (List.mem_cons_self ..)))

theorem nil : Exchanges P [] := of_none (List.forall_mem_nil _)

theorem append (hts : Exchanges (fun vs => P (vs ++ us)) ts)
    (hus : Exchanges (fun vs => P (ts ++ vs)) us) : Exchanges P (ts ++ us) := by
  refine ⟨fun pre w post heq hw => ?_⟩
  rcases List.append_eq_append_iff.mp heq with ⟨xs, rfl, rfl⟩ | ⟨xs, rfl, hxs⟩
  · obtain ⟨fs, rest, next, n, rfl, hn, hP⟩ := hus.statement xs w post rfl hw
    exact ⟨fs, rest, next, n, rfl, hn, fun us hus => by
      rw [List.append_assoc]
      exact hP us hus⟩
  · cases xs with
    | nil =>
      obtain ⟨fs, rest, next, n, rfl, hn, hP⟩ := hus.statement [] w post hxs.symm hw
      exact ⟨fs, rest, next, n, rfl, hn, fun us hus => by
        rw [List.append_nil] at hP
        exact hP us hus⟩
    | cons x xs =>
      obtain ⟨rfl, rfl⟩ := List.cons.inj hxs
      obtain ⟨fs, rest, next, n, rfl, hn, hP⟩ := hts.statement pre w xs rfl hw
      refine ⟨fs, rest ++ us, next, n, List.append_assoc .., hn, fun vs hvs => ?_⟩
      have hvs := hP vs hvs
      simp only [List.append_assoc] at hvs
      exact hvs

theorem cons (ht : t.kind ≠ .forWord) (h : Exchanges (fun vs => P (t :: vs)) ts) :
    Exchanges P (t :: ts) := by
  rw [← List.singleton_append]
  exact append (of_none (List.forall_mem_singleton.mpr ht)) h

theorem tail (h : Exchanges P (t :: ts)) : Exchanges (fun vs => P (t :: vs)) ts := by
  refine ⟨fun pre w post hts hw => ?_⟩
  exact h.statement (t :: pre) w post (by rw [hts]; rfl) hw

theorem single (h : Exchanges (fun vs => DerivesSame symbol vs [n]) ts)
    (himp : ∀ us m, Exchanged ts us → Derives symbol us [m] → m.unplaced = n.unplaced → P us) :
    Exchanges P ts :=
  h.mono fun us hts hus => by
    obtain ⟨m, hm, heq⟩ := hus.single
    exact himp us m hts hm heq

theorem list (h : Exchanges (fun vs => DerivesSame symbol vs ns) ts)
    (himp : ∀ us ms, Exchanged ts us → Derives symbol us ms →
      Node.allUnplaced ms = Node.allUnplaced ns → P us) : Exchanges P ts :=
  h.mono fun us hts hus => by
    obtain ⟨ms, hms, heq⟩ := hus
    exact himp us ms hts hms heq

/-- A whole statement is exchanged for what stands for it. -/
theorem cons_statement {next : Kind} (h : Derives (.statement next) (t :: ts) [n])
    (hP : ∀ us, StandsFor us n → P us) (hts : Exchanges (fun vs => P (t :: vs)) ts) :
    Exchanges P (t :: ts) := by
  refine ⟨fun pre w post heq hw => ?_⟩
  cases pre with
  | nil =>
    obtain ⟨rfl, rfl⟩ := List.cons.inj heq
    exact ⟨ts, [], next, n, (List.append_nil ts).symm, h, fun us hus => by
      rw [List.nil_append, List.append_nil]
      exact hP us hus⟩
  | cons u pre =>
    obtain ⟨rfl, rfl⟩ := List.cons.inj heq
    exact hts.statement pre w post rfl hw

end Exchanges

/-- What an exchange does to the tokens of a symbol. A branch begins with a word that its caller
has seen; a clause and a list in brackets depend on the kinds that they are given. -/
def Symbol.Sited (symbol : Symbol) (ts : List Token) (ns : List Node) : Prop :=
  match symbol with
  | .branch next => ∀ w us, ts = w :: us →
    Exchanges (fun vs => DerivesSame (.branch next) (w :: vs) ns) us
  | .clause next => next ≠ .openBrace → Exchanges (fun vs => DerivesSame (.clause next) vs ns) ts
  | .bracketed opening closing => opening ≠ .forWord → closing ≠ .forWord →
    Exchanges (fun vs => DerivesSame (.bracketed opening closing) vs ns) ts
  | symbol => Exchanges (fun vs => DerivesSame symbol vs ns) ts

open Exchanges in
theorem Grammar.sited (h : Derives symbol ts ns) : symbol.Sited ts ns := by
  have hne {t : Token} {k : Kind} (ht : t.kind = k) (hk : k ≠ .forWord) : t.kind ≠ .forWord :=
    ht ▸ hk
  have hlines {es : List Token} (h : AllNewlines es) : ∀ t ∈ es, t.kind ≠ .forWord :=
    fun t ht => hne (h t ht) (by decide)
  have hseps {ss : List Token} (h : AllSeparators ss) : ∀ t ∈ ss, t.kind ≠ .forWord :=
    fun t ht => (h t ht).elim (hne · (by decide)) (hne · (by decide))
  induction h with
  | tighten hs _ ih => exact single ih fun us m _ hm heq => .of_single (.tighten hs hm) heq
  | chain _ ih => exact single ih fun us m _ hm heq => .of_single (.chain hm) heq
  | primary _ ih => exact single ih fun us m _ hm heq => .of_single (.primary hm) heq
  | binary hl hop hr ihl ihr =>
    refine append (single ihl fun us m _ hm heq => ?_) (cons (fun hk => ?_)
      (single ihr fun us m _ hm heq => ?_))
    · exact .of_single (.binary hm hop hr) (by simp only [Node.unplaced, heq])
    · rw [hk] at hop
      cases Kind.infixPower?_eq_some_iff.mpr ⟨_, hop, rfl⟩
    · exact .of_single (.binary hl hop hm) (by simp only [Node.unplaced, heq])
  | unary hop _ ih =>
    refine cons (hop.elim (hne · (by decide)) (hne · (by decide)))
      (single ih fun us m _ hm heq => ?_)
    exact .of_single (.unary hop hm) (by simp only [Node.unplaced, heq])
  | index hcs ho hps hc ih ih' =>
    refine append (single ih fun us m _ hm heq => ?_) (cons (hne ho (by decide))
      (append (single ih' fun us m _ hm heq => ?_) (cons (hne hc (by decide)) nil)))
    · exact .of_single (.index hm ho hps hc) (by simp only [Node.unplaced, heq])
    · exact .of_single (.index hcs ho hm hc) (by simp only [Node.unplaced, heq])
  | datum ht => exact cons (ht.elim (hne · (by decide)) (hne · (by decide))) nil
  | truth ht | falsehood ht | name ht => exact cons (hne ht (by decide)) nil
  | call hf _ ih =>
    refine cons (hne hf (by decide)) (list (ih (by decide) (by decide)) fun us ms _ hms heq => ?_)
    exact .of_single (.call hf hms) (by simp only [Node.unplaced, heq])
  | group ho _ hc ih =>
    refine cons (hne ho (by decide)) (append (single ih fun us m _ hm heq => ?_)
      (cons (hne hc (by decide)) nil))
    exact .of_single (.group ho hm hc) heq
  | array _ ih =>
    refine list (ih (by decide) (by decide)) fun us ms _ hms heq => ?_
    exact .of_single (.array hms) (by simp only [Node.unplaced, heq])
  | function hf hps hbs ihps ihbs =>
    refine cons (hne hf (by decide)) (append (list ihps fun us ms _ hms heq => ?_)
      (list ihbs fun us ms _ hms heq => ?_))
    · exact .of_single (.function hf hms hbs) (by simp only [Node.unplaced, heq])
    · exact .of_single (.function hf hps hms) (by simp only [Node.unplaced, heq])
  | bracketed ho hes hts hc ih =>
    intro hopens hcloses
    refine cons (hne ho hopens) (append (of_none (hlines hes))
      (append (list ih fun us ms _ hms heq => ?_) (cons (hne hc hcloses) nil)))
    exact ⟨ms, .bracketed ho hes hms hc, heq⟩
  | noItems | noNames | noTest => exact nil
  | lastItem _ hes ih =>
    refine append (single ih fun us m _ hm heq => ?_) (of_none (hlines hes))
    exact .of_single (.lastItem hm hes) heq
  | moreItems h hes hc hfs hrest ih ih' =>
    refine append (single ih fun us m _ hm heq => ?_) (append (of_none (hlines hes))
      (cons (hne hc (by decide)) (append (of_none (hlines hfs))
        (list ih' fun us ms _ hms heq => ?_))))
    · exact ⟨_, .moreItems hm hes hc hfs hrest, by simp only [Node.allUnplaced_cons, heq]⟩
    · exact ⟨_, .moreItems h hes hc hfs hms, by simp only [Node.allUnplaced_cons, heq]⟩
  | parameters ho _ hc ih =>
    refine cons (hne ho (by decide)) (append (list ih fun us ms _ hms heq => ?_)
      (cons (hne hc (by decide)) nil))
    exact ⟨ms, .parameters ho hms hc, heq⟩
  | lastName hx => exact cons (hne hx (by decide)) nil
  | moreNames hx hc _ _ ih =>
    refine cons (hne hx (by decide)) (cons (hne hc (by decide))
      (list ih fun us ms _ hms heq => ?_))
    exact ⟨_, .moreNames hx hc (fun _ => rfl) hms, by simp only [Node.allUnplaced_cons, heq]⟩
  | braced hes ho _ hc ih =>
    refine append (of_none (hlines hes)) (cons (hne ho (by decide))
      (append (list ih fun us ms _ hms heq => ?_) (cons (hne hc (by decide)) nil)))
    exact ⟨ms, .braced hes ho hms hc, heq⟩
  | noStatements _ hss => exact of_none (hseps hss)
  | @moreStatements next _ _ _ _ _ _ hss h hrest ih ih' =>
    refine append (of_none (hseps hss)) ?_
    rw [← List.cons_append]
    refine append (single ih fun us m hus hm heq => ?_) (list ih' fun us ms hus hms heq => ?_)
    · obtain ⟨t', vs, rfl, -⟩ := hus.cons
      rw [List.cons_append]
      exact ⟨_, .moreStatements hss hm hrest,
        by simp only [Node.allUnplaced_cons, Node.unplaced_atLine, heq]⟩
    · exact ⟨_, .moreStatements hss (h.eased _ (hus.headKind_eases next)) hms,
        by simp only [Node.allUnplaced_cons, heq]⟩
  | @block next o ts ns ho _ ih =>
    have ih : Exchanges (fun vs => DerivesSame .braced vs ns) (o :: ts) := ih
    refine cons (hne ho (by decide)) (ih.tail.mono fun us _ hus => ?_)
    obtain ⟨ms, hms, heq⟩ := hus
    exact .of_single (.block ho hms) (by simp only [Node.unplaced, heq])
  | print hw ho _ hc hnext ih =>
    refine cons (hne hw (by decide)) (cons (hne ho (by decide))
      (append (single ih fun us m _ hm heq => ?_) (cons (hne hc (by decide)) nil)))
    exact .of_single (.print hw ho hm hc hnext) (by simp only [Node.unplaced, heq])
  | fresh hw hx hop _ hnext ih =>
    refine cons (hne hw (by decide)) (cons (hne hx (by decide)) (cons (hne hop (by decide))
      (single ih fun us m _ hm heq => ?_)))
    exact .of_single (.fresh hw hx hop hm hnext) (by simp only [Node.unplaced, heq])
  | assign hx hop _ hnext ih =>
    refine cons (hne hx (by decide)) (cons (fun hk => ?_) (single ih fun us m _ hm heq => ?_))
    · rw [hk] at hop
      cases hop
    · exact .of_single (.assign hx hop hm hnext) (by simp only [Node.unplaced, heq])
  | conditional hw _ ih =>
    refine cons (hne hw (by decide)) ((ih _ _ rfl).mono fun us _ hus => ?_)
    obtain ⟨m, hm, heq⟩ := hus.single
    exact .of_single (.conditional hw hm) heq
  | «while» hw ho h hc hbody ih ihbody =>
    refine cons (hne hw (by decide)) (cons (hne ho (by decide))
      (append (single ih fun us m _ hm heq => ?_) (cons (hne hc (by decide))
        (list ihbody fun us ms _ hms heq => ?_))))
    · exact .of_single (.while hw ho hm hc hbody) (by simp only [Node.unplaced, heq])
    · exact .of_single (.while hw ho h hc hms) (by simp only [Node.unplaced, heq])
  | @«for» next _ _ _ _ _ _ _ _ _ _ _ _ _ hw ho hinit hs htest hs' hstep hc hbody
      ihinit ihtest ihstep ihbody =>
    have hfor : Derives (.statement next) _ _ := .for hw ho hinit hs htest hs' hstep hc hbody
    refine cons_statement hfor (fun us hus => hus.2 next) (cons (hne ho (by decide)) ?_)
    refine append (list (ihinit (by decide)) fun us ms _ hms heq => ?_)
      (cons (hne hs (by decide)) (append (single ihtest fun us m _ hm heq => ?_)
        (cons (hne hs' (by decide)) (append (list (ihstep (by decide)) fun us ms _ hms heq => ?_)
          (cons (hne hc (by decide)) (list ihbody fun us ms _ hms heq => ?_))))))
    · exact .of_single (.for hw ho hms hs htest hs' hstep hc hbody)
        (by simp only [Node.unplaced, Node.allUnplaced_append, heq])
    · exact .of_single (.for hw ho hinit hs hm hs' hstep hc hbody)
        (by simp only [Node.unplaced, Node.allUnplaced_append, Node.allUnplaced_cons, heq])
    · exact .of_single (.for hw ho hinit hs htest hs' hms hc hbody)
        (by simp only [Node.unplaced, Node.allUnplaced_append, Node.allUnplaced_cons, heq])
    · exact .of_single (.for hw ho hinit hs htest hs' hstep hc hms)
        (by simp only [Node.unplaced, Node.allUnplaced_append, Node.allUnplaced_cons, heq])
  | exit hw => exact cons (hne hw (by decide)) nil
  | named hf hx hps hbody ihps ihbody =>
    refine cons (hne hf (by decide)) (cons (hne hx (by decide))
      (append (list ihps fun us ms _ hms heq => ?_) (list ihbody fun us ms _ hms heq => ?_)))
    · exact .of_single (.named hf hx hms hbody) (by simp only [Node.unplaced, heq])
    · exact .of_single (.named hf hx hps hms) (by simp only [Node.unplaced, heq])
  | expression _ hts hnext ih =>
    refine single ih fun us m hus hm heq => ?_
    exact .of_single (.expression hm (hus.beginsAssignment hts) hnext)
      (by simp only [Node.unplaced, heq])
  | branch ho h hc hbody hes hrest ih ihbody ihrest =>
    rintro w us ⟨⟩
    refine cons (hne ho (by decide)) (append (single ih fun us m _ hm heq => ?_)
      (cons (hne hc (by decide)) (append (list ihbody fun us ms _ hms heq => ?_)
        (append (of_none (hlines hes)) (list ihrest fun us ms _ hms heq => ?_)))))
    · exact .of_single (.branch ho hm hc hbody hes hrest) (by simp only [Node.unplaced, heq])
    · exact .of_single (.branch ho h hc hms hes hrest) (by simp only [Node.unplaced, heq])
    · exact .of_single (.branch ho h hc hbody hes hms) (by simp only [Node.unplaced, heq])
  | noAlternative _ => exact nil
  | chained hw _ ih =>
    refine cons (hne hw (by decide)) ((ih _ _ rfl).mono fun us _ hus => ?_)
    obtain ⟨m, hm, heq⟩ := hus.single
    exact .of_single (.chained hw hm) heq
  | otherwise hw _ ih =>
    refine cons (hne hw (by decide)) (list ih fun us ms _ hms heq => ?_)
    exact ⟨ms, .otherwise hw hms, heq⟩
  | someTest _ ih => exact single ih fun us m _ hm heq => .of_single (.someTest hm) heq
  | noClause => exact fun _ => nil
  | @someClause next ss _ t _ hss h hhead ih =>
    intro hnext
    refine append (of_none (hseps hss)) (single ih fun us m hus hm heq => ?_)
    obtain ⟨t', vs, rfl, ht'⟩ := hus.cons
    refine .of_single (.someClause hss hm ?_) (by simp only [Node.unplaced_atLine, heq])
    cases ss with
    | cons _ _ => exact hhead
    | nil =>
      rcases ht' with rfl | ht'
      · exact hhead
      · change t'.kind ≠ next
        rw [ht']
        exact hnext.symm

end ScopeScript
