import ScopeScript.Proofs.Grammar.Exchange

/-!
# Two forms of a loop

A `for` has four spans of tokens: two clauses, a test and a body. The same
spans make up a block with a `while` in it, and the block stands for the
statement that the `for` stands for.
-/

namespace ScopeScript

open Token (AllNewlines AllSeparators headKind)

variable {ts us fs : List Token} {ms ns init step body : List Node} {n test : Node} {w t : Token}
variable {k next : Kind}

/-! ## Lists of statements -/

namespace Grammar

theorem statements_leading {ss : List Token} (hss : AllSeparators ss)
    (h : Derives (.statements next) ts ns) : Derives (.statements next) (ss ++ ts) ns := by
  cases h with
  | noStatements hnext hss' => exact .noStatements hnext (List.forall_mem_append.mpr ⟨hss, hss'⟩)
  | moreStatements hss' h hrest =>
    rw [← List.append_assoc]
    exact .moreStatements (List.forall_mem_append.mpr ⟨hss, hss'⟩) h hrest

theorem statements_append (h : Derives (.statements k) ts ns)
    (hus : Derives (.statements next) us ms) (hk : k.Eases (headKind us next)) :
    Derives (.statements next) (ts ++ us) (ns ++ ms) := by
  generalize hsymbol : Symbol.statements k = symbol at h
  induction h with
  | noStatements _ hss => exact statements_leading hss hus
  | @moreStatements _ ss ts vs t n ns hss h hrest _ ih =>
    cases hsymbol
    rw [List.append_assoc, List.cons_append, List.append_assoc]
    refine .moreStatements hss (h.eased _ ?_) (ih rfl)
    cases vs with
    | nil => exact hk
    | cons v vs => exact .refl _
  | _ => cases hsymbol

theorem clause_append (h : Derives (.clause k) ts ns) (hus : Derives (.statements next) us ms)
    (hk : k.Eases (headKind us next)) : Derives (.statements next) (ts ++ us) (ns ++ ms) := by
  cases h with
  | noClause => exact hus
  | someClause hss h _ =>
    rw [List.append_assoc, List.cons_append]
    exact .moreStatements hss (h.eased _ hk) hus

theorem eq_nil_of_clause (h : Derives (.clause k) [] ns) : ns = [] := by
  generalize hts : ([] : List Token) = ts at h
  cases h with
  | noClause => rfl
  | someClause _ _ _ => simp at hts

theorem expression_of_primary (h : Derives .primary ts [n]) : Derives .expression ts [n] :=
  .tighten nofun (.tighten nofun (.tighten nofun (.tighten nofun (.tighten nofun
    (.tighten nofun (.chain (.primary h)))))))

end Grammar

/-! ## Loops -/

/-- The spans of a loop: its two clauses, its test and its body. -/
structure Loop where
  init : List Token
  test : List Token
  step : List Token
  body : List Token

namespace Loop

variable {l : Loop}

/-- `for (init; test; step) { body }`; the brace may stand on a later line. -/
inductive IsFor (l : Loop) : List Token → Prop where
  | intro {w o s s' c b e : Token} {es : List Token} :
    w.kind = .forWord → o.kind = .openParen → s.kind = .semicolon → s'.kind = .semicolon →
    c.kind = .closeParen → AllNewlines es → b.kind = .openBrace → e.kind = .closeBrace →
    l.IsFor (w :: o :: (l.init ++ s :: (l.test ++ s' ::
      (l.step ++ c :: (es ++ b :: (l.body ++ [e]))))))

section
variable (l) (word : Kind → Token)

def initPart : List Token := if l.init = [] then [] else l.init ++ [word .semicolon]

def testPart : List Token := if l.test = [] then [word .trueWord] else l.test

def bodyPart : List Token :=
  l.body ++ if l.step = [] then [] else word .semicolon :: l.step

/-- `{ init; while (test) { body; step } }`, with a token of each kind. A missing clause is left
out, and a missing test is `true`. -/
def whileForm : List Token :=
  word .openBrace :: (l.initPart word ++ (word .whileWord :: word .openParen ::
    (l.testPart word ++ word .closeParen :: word .openBrace ::
      (l.bodyPart word ++ [word .closeBrace]))) ++ [word .closeBrace])

end

/-- What the spans are read as. -/
structure Reads (l : Loop) (init : List Node) (test : Node) (step body : List Node) : Prop where
  init : Derives (.clause .semicolon) l.init init
  test : Derives .test l.test [test]
  step : Derives (.clause .closeParen) l.step step
  body : Derives (.statements .closeBrace) l.body body

/-- The tree of `{ init; while (test) { body; step } }`. -/
def tree (init : List Node) (test : Node) (step body : List Node) : Node :=
  .block (init ++ [.loop test (.block (body ++ step) none) none]) none

theorem exists_of_statement (h : Derives (.statement next) (w :: fs) [n])
    (hw : w.kind = .forWord) : ∃ l init test step body, IsFor l (w :: fs) ∧
      Reads l init test step body ∧ n.unplaced = (tree init test step body).unplaced := by
  have hne {k : Kind} (hk : k ≠ .forWord) (h : w.kind = k) : False := hk (h.symm.trans hw)
  cases h with
  | «for» _ ho hinit hs htest hs' hstep hc hbody =>
    cases hbody with
    | braced hes hb hbody he =>
      exact ⟨⟨_, _, _, _⟩, _, _, _, _, .intro hw ho hs hs' hc hes hb he,
        ⟨hinit, htest, hstep, hbody⟩,
        by simp only [tree, Node.unplaced, Node.allUnplaced_append, Node.allUnplaced_cons]⟩
  | expression h _ _ =>
    obtain ⟨x, xs, heq, hx, -⟩ := h.leads
    cases heq
    rw [hw] at hx
    cases hx
  | block h _ | print h _ _ _ _ | fresh h _ _ _ _ | assign h _ _ _ | conditional h _
  | «while» h _ _ _ _ | exit h | named h _ _ _ => exact (hne (by decide) h).elim

section
variable {word : Kind → Token} (hword : ∀ k, (word k).kind = k)
include hword

theorem Reads.derives_testPart (h : Reads l init test step body) :
    Derives .expression (l.testPart word) [test] := by
  obtain ⟨-, h, -, -⟩ := h
  unfold testPart
  cases htest : l.test with
  | nil =>
    rw [htest] at h
    cases h with
    | noTest => exact Grammar.expression_of_primary (.truth (hword _))
    | someTest h =>
      obtain ⟨_, _, hnil, -⟩ := h.leads
      cases hnil
  | cons t ts =>
    rw [htest] at h
    cases h with
    | someTest h => exact h

theorem Reads.derives_initPart (h : Reads l init test step body)
    (hts : Derives (.statements .closeBrace) ts ns) :
    Derives (.statements .closeBrace) (l.initPart word ++ ts) (init ++ ns) := by
  obtain ⟨hinit, -, -, -⟩ := h
  unfold initPart
  split
  next hnil =>
    rw [hnil] at hinit
    rw [Grammar.eq_nil_of_clause hinit]
    exact hts
  next =>
    have hseparator : AllSeparators [word .semicolon] :=
      List.forall_mem_singleton.mpr (.inr (hword _))
    rw [List.append_assoc]
    refine Grammar.clause_append hinit (Grammar.statements_leading hseparator hts) ?_
    change Kind.Eases .semicolon (word .semicolon).kind
    rw [hword]
    exact .refl _

theorem Reads.derives_bodyPart (h : Reads l init test step body) :
    Derives (.statements .closeBrace) (l.bodyPart word) (body ++ step) := by
  have hnone : Derives (.statements .closeBrace) [] [] :=
    .noStatements rfl (List.forall_mem_nil _)
  obtain ⟨-, -, hstep, hbody⟩ := h
  unfold bodyPart
  split
  next hnil =>
    rw [hnil] at hstep
    rw [Grammar.eq_nil_of_clause hstep]
    exact Grammar.statements_append hbody hnone (.refl _)
  next =>
    have hrest : Derives (.statements .closeBrace) (l.step ++ []) (step ++ []) :=
      Grammar.clause_append hstep hnone ⟨fun _ => rfl, fun _ => rfl, fun _ => rfl⟩
    rw [List.append_nil, List.append_nil] at hrest
    have hseparator : AllSeparators [word .semicolon] :=
      List.forall_mem_singleton.mpr (.inr (hword _))
    refine Grammar.statements_append hbody (Grammar.statements_leading hseparator hrest) ?_
    change Kind.Eases .closeBrace (word .semicolon).kind
    rw [hword]
    exact ⟨fun _ => rfl, fun _ => rfl, fun _ => rfl⟩

/-- The two forms of a loop stand for the same statement. -/
theorem Reads.standsFor (h : Reads l init test step body)
    (hn : n.unplaced = (tree init test step body).unplaced) :
    StandsFor (l.whileForm word) n := by
  have hbody := Grammar.braced (List.forall_mem_nil _) (hword .openBrace) (h.derives_bodyPart hword)
    (hword .closeBrace)
  have hloop : Derives (.statement .closeBrace) _ _ := .while (hword .whileWord)
    (hword .openParen) (h.derives_testPart hword) (hword .closeParen) hbody
  have hrest := Grammar.moreStatements (List.forall_mem_nil _) hloop
    (.noStatements rfl (List.forall_mem_nil _))
  rw [List.nil_append, List.append_nil] at hrest
  have hblock := Grammar.braced (List.forall_mem_nil _) (hword .openBrace)
    (h.derives_initPart hword hrest) (hword .closeBrace)
  refine ⟨⟨_, _, rfl, hword _⟩, fun next => .of_single (.block (hword _) hblock) ?_⟩
  simp only [hn, tree, Node.unplaced, Node.allUnplaced_append, Node.allUnplaced_cons,
    Node.unplaced_atLine]

end

end Loop

end ScopeScript
