import ScopeScript.Proofs.Lexer.Regular

/-!
# The trees of the grammar

Whatever the grammar derives from the tokens of a text is well-formed, apart
from numerals that are too large for a float.
-/

namespace ScopeScript

/-- What the trees of a symbol are. -/
def Symbol.Yields : Symbol → Node → Prop
  | .parameters, n | .names, n => ∃ l : Leaf, n = .leaf l ∧ l.IsName
  | .braced, n | .statements _, n | .statement _, n | .branch _, n | .alternative _, n
  | .clause _, n => n.WellFormed Binary64.IsLiteral .statement
  | .level _, n | .chain, n | .primary, n | .bracketed .., n | .items, n | .test, n =>
    n.WellFormed Binary64.IsLiteral .expression

namespace Token

variable {t : Token}

theorem Regular.isName (h : t.Regular) (hk : t.kind = .name) : (Leaf.ofName t).IsName := by
  obtain ⟨w, hw, hname⟩ := h.name hk
  constructor
  · rfl
  rw [Leaf.ofName, hw]
  exact hname

theorem Regular.isLet (h : t.Regular) (hk : t.kind = .letWord) : (Leaf.ofOperator t).IsLet := by
  rw [Leaf.ofOperator, hk, h.word hk]
  exact ⟨rfl, rfl⟩

theorem Regular.isLiteral (h : t.Regular) (hk : t.kind = .number ∨ t.kind = .string) :
    (Node.literal t.datum.toValue none).WellFormed Binary64.IsLiteral .expression := by
  rcases hk with hk | hk
  · rcases h.number hk with ⟨i, hi, hd⟩ | ⟨x, hx, hd⟩
    · rw [hd]
      exact .int hi
    · rw [hd]
      exact .float hx
  · obtain ⟨s, hs⟩ := h.string hk
    rw [hs]
    exact .string

end Token

theorem Stratum.operators_subset (s : Stratum) :
    ∀ k ∈ s.operators, k ∈ Lexer.symbols.map Prod.snd := by
  cases s <;> decide

theorem Kind.mem_symbols_of_isAssignment {k : Kind} (h : k.isAssignment = true) :
    k ∈ Lexer.symbols.map Prod.snd := by
  revert h
  cases k <;> decide

namespace Grammar

open Node (WellFormed)

variable {trailing : Bool} {symbol : Symbol} {ts : List Token} {ns : List Node}

theorem wellFormed (h : Grammar trailing symbol ts ns) (regular : ∀ t ∈ ts, t.Regular) :
    ∀ n ∈ ns, symbol.Yields n := by
  induction h with
  | tighten _ _ ih => exact ih regular
  | @binary s _ _ _ _ _ _ hop _ iha ihb =>
    obtain ⟨hls, ht, hrs⟩ := by
      simpa only [List.forall_mem_append, List.forall_mem_cons] using regular
    have ha := iha hls _ (List.mem_singleton_self _)
    have hb := ihb hrs _ (List.mem_singleton_self _)
    exact List.forall_mem_singleton.mpr
      (WellFormed.binary hop (ht.spells (s.operators_subset _ hop)) ha hb)
  | unary hop _ ih =>
    obtain ⟨ht, hts⟩ := List.forall_mem_cons.mp regular
    have hn := ih hts _ (List.mem_singleton_self _)
    have hmem : Kind.minus ∈ Lexer.symbols.map Prod.snd ∧
        Kind.bang ∈ Lexer.symbols.map Prod.snd := by decide
    have hspells := ht.spells (hop.elim (· ▸ hmem.1) (· ▸ hmem.2))
    exact List.forall_mem_singleton.mpr (WellFormed.unary hop hspells hn)
  | chain _ ih => exact ih regular
  | primary _ ih => exact ih regular
  | index _ _ _ _ iha ihb =>
    obtain ⟨hcs, -, hps, -⟩ := by
      simpa only [List.forall_mem_append, List.forall_mem_cons] using regular
    have ha := iha hcs _ (List.mem_singleton_self _)
    have hb := ihb hps _ (List.mem_singleton_self _)
    exact List.forall_mem_singleton.mpr (WellFormed.index ha hb)
  | datum hk =>
    have ht := List.forall_mem_singleton.mp regular
    exact List.forall_mem_singleton.mpr (ht.isLiteral hk)
  | truth => exact List.forall_mem_singleton.mpr WellFormed.bool
  | falsehood => exact List.forall_mem_singleton.mpr WellFormed.bool
  | name hk =>
    have ht := List.forall_mem_singleton.mp regular
    exact List.forall_mem_singleton.mpr (WellFormed.name (ht.isName hk))
  | call hk _ ih =>
    obtain ⟨ht, hts⟩ := List.forall_mem_cons.mp regular
    exact List.forall_mem_singleton.mpr (WellFormed.call (ht.isName hk) (ih hts))
  | group _ _ _ ih =>
    obtain ⟨-, hts, -⟩ := by
      simpa only [List.forall_mem_append, List.forall_mem_cons] using regular
    exact ih hts
  | array _ ih => exact List.forall_mem_singleton.mpr (WellFormed.array (ih regular))
  | function _ _ _ ihps ihbs =>
    obtain ⟨-, hps, hbs⟩ := by
      simpa only [List.forall_mem_append, List.forall_mem_cons] using regular
    exact List.forall_mem_singleton.mpr
      (WellFormed.function (ihps hps) (.statements (ihbs hbs)))
  | bracketed _ _ _ _ ih =>
    obtain ⟨-, -, hts, -⟩ := by
      simpa only [List.forall_mem_append, List.forall_mem_cons] using regular
    exact ih hts
  | noItems => exact List.forall_mem_nil _
  | lastItem _ _ ih =>
    exact ih (List.forall_mem_append.mp regular).1
  | moreItems _ _ _ _ _ ih ihs =>
    obtain ⟨hts, -, -, -, hus⟩ := by
      simpa only [List.forall_mem_append, List.forall_mem_cons] using regular
    exact List.forall_mem_cons.mpr ⟨ih hts _ (List.mem_singleton_self _), ihs hus⟩
  | parameters _ _ _ ih =>
    obtain ⟨-, hts, -⟩ := by
      simpa only [List.forall_mem_append, List.forall_mem_cons] using regular
    exact ih hts
  | noNames => exact List.forall_mem_nil _
  | lastName hk =>
    have ht := List.forall_mem_singleton.mp regular
    exact List.forall_mem_singleton.mpr ⟨_, rfl, ht.isName hk⟩
  | moreNames hk _ _ _ ih =>
    obtain ⟨ht, -, hts⟩ := by
      simpa only [List.forall_mem_cons] using regular
    exact List.forall_mem_cons.mpr ⟨⟨_, rfl, ht.isName hk⟩, ih hts⟩
  | braced _ _ _ _ ih =>
    obtain ⟨-, -, hts, -⟩ := by
      simpa only [List.forall_mem_append, List.forall_mem_cons] using regular
    exact ih hts
  | noStatements => exact List.forall_mem_nil _
  | moreStatements _ _ _ ih ihs =>
    obtain ⟨-, ht, hts, hus⟩ := by
      simpa only [List.forall_mem_append, List.forall_mem_cons] using regular
    have hn := ih (List.forall_mem_cons.mpr ⟨ht, hts⟩) _ (List.mem_singleton_self _)
    exact List.forall_mem_cons.mpr ⟨WellFormed.atLine _ hn, ihs hus⟩
  | block _ _ ih =>
    exact List.forall_mem_singleton.mpr (WellFormed.block (.statements (ih regular)))
  | print _ _ _ _ _ ih =>
    obtain ⟨-, -, hts, -⟩ := by
      simpa only [List.forall_mem_append, List.forall_mem_cons] using regular
    exact List.forall_mem_singleton.mpr
      (WellFormed.print (ih hts _ (List.mem_singleton_self _)))
  | fresh hw hx _ _ _ ih =>
    obtain ⟨hlet, hname, -, hts⟩ := by
      simpa only [List.forall_mem_cons] using regular
    have hn := ih hts _ (List.mem_singleton_self _)
    exact List.forall_mem_singleton.mpr (WellFormed.fresh (hname.isName hx) (hlet.isLet hw) hn)
  | assign hx hop _ _ ih =>
    obtain ⟨hname, ht, hts⟩ := by
      simpa only [List.forall_mem_cons] using regular
    have hn := ih hts _ (List.mem_singleton_self _)
    have hspells := ht.spells (Kind.mem_symbols_of_isAssignment hop)
    exact List.forall_mem_singleton.mpr (WellFormed.assign (hname.isName hx) hop hspells hn)
  | conditional _ _ ih => exact ih regular
  | «while» _ _ _ _ _ ih ihbs =>
    obtain ⟨-, -, hts, -, hbs⟩ := by
      simpa only [List.forall_mem_append, List.forall_mem_cons] using regular
    have hn := ih hts _ (List.mem_singleton_self _)
    exact List.forall_mem_singleton.mpr (WellFormed.loop hn (.statements (ihbs hbs)))
  | «for» _ _ _ _ _ _ _ _ _ ihinit ihtest ihstep ihbs =>
    obtain ⟨-, -, his, -, hts, -, hrs, -, hbs⟩ := by
      simpa only [List.forall_mem_append, List.forall_mem_cons] using regular
    have htest := ihtest hts _ (List.mem_singleton_self _)
    have hbody : (Node.block _ none).WellFormed Binary64.IsLiteral .block :=
      .statements (List.forall_mem_append.mpr ⟨ihbs hbs, ihstep hrs⟩)
    refine List.forall_mem_singleton.mpr
      (.block (.statements (List.forall_mem_append.mpr ⟨ihinit his, ?_⟩)))
    exact List.forall_mem_singleton.mpr (WellFormed.loop htest hbody)
  | exit => exact List.forall_mem_singleton.mpr WellFormed.exit
  | named _ hx _ _ ihps ihbs =>
    obtain ⟨-, hname, hps, hbs⟩ := by
      simpa only [List.forall_mem_append, List.forall_mem_cons] using regular
    exact List.forall_mem_singleton.mpr (WellFormed.fresh (hname.isName hx) ⟨rfl, rfl⟩
      (.function (ihps hps) (.statements (ihbs hbs))))
  | expression _ _ _ ih =>
    exact List.forall_mem_singleton.mpr
      (WellFormed.expression (ih regular _ (List.mem_singleton_self _)))
  | branch _ _ _ _ _ _ ih ihbs ihrs =>
    obtain ⟨-, -, hts, -, hbs, -, hrs⟩ := by
      simpa only [List.forall_mem_append, List.forall_mem_cons] using regular
    have hn := ih hts _ (List.mem_singleton_self _)
    exact List.forall_mem_singleton.mpr
      (WellFormed.branch hn (.statements (ihbs hbs)) (.statements (ihrs hrs)))
  | noAlternative => exact List.forall_mem_nil _
  | chained _ _ ih => exact ih regular
  | otherwise _ _ ih => exact ih (List.forall_mem_cons.mp regular).2
  | noTest => exact List.forall_mem_singleton.mpr WellFormed.bool
  | someTest _ ih => exact ih regular
  | noClause => exact List.forall_mem_nil _
  | someClause _ _ _ ih =>
    have hn := ih (List.forall_mem_append.mp regular).2 _ (List.mem_singleton_self _)
    exact List.forall_mem_singleton.mpr (WellFormed.atLine _ hn)

end Grammar

end ScopeScript
