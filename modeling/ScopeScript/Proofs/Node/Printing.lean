import ScopeScript.Proofs.Node.WellFormed
import ScopeScript.Proofs.Parser.Exact

/-!
# Printed trees are derivable

By induction on well-formed trees: the printed form of a tree is cut into
tokens that the grammar derives, and they stand for the same tree. Operators
are printed in parentheses, so that every printed expression is a chain and
may stand wherever an expression may.
-/

namespace ScopeScript

open Lexer Node

/-- What may follow a printed phrase. -/
def endsPhrase (c : Char) : Bool := [' ', '\n', '(', ')', '[', ']', ',', ';'].contains c

/-- What a printed phrase may start with. -/
def startsPhrase (c : Char) : Bool := c ≠ '=' && !isSpace c

theorem endsWord_of_endsPhrase {c : Char} (h : endsPhrase c = true) : endsWord c = true := by
  have hall : [' ', '\n', '(', ')', '[', ']', ',', ';'].all endsWord = true := rfl
  exact List.all_eq_true.mp hall c (List.contains_iff_mem.mp h)

theorem endsSymbol_of_endsPhrase {c : Char} (h : endsPhrase c = true) : endsSymbol c = true := by
  have hall : [' ', '\n', '(', ')', '[', ']', ',', ';'].all endsSymbol = true := rfl
  exact List.all_eq_true.mp hall c (List.contains_iff_mem.mp h)

theorem endsSymbol_of_startsPhrase {c : Char} (h : startsPhrase c = true) :
    endsSymbol c = true :=
  (Bool.and_eq_true_iff.mp h).1

theorem endsSpace_of_startsPhrase {c : Char} (h : startsPhrase c = true) : endsSpace c = true :=
  (Bool.and_eq_true_iff.mp h).2

theorem startsPhrase_of_test {f : Char → Bool} {c : Char} (hc : f c = true)
    (hequals : f '=' = false) (hspace : f ' ' = false) (htab : f '\t' = false) :
    startsPhrase c = true := by
  have hne (d : Char) (hd : f d = false) : c ≠ d := ne_of_test hc hd
  simp [startsPhrase, isSpace, hne '=' hequals, hne ' ' hspace, hne '\t' htab]

/-- The kinds of the tokens that follow printed statements. -/
def Kind.followsStatement : Kind → Bool
  | .newline | .semicolon | .closeBrace | .endOfInput => true
  | _ => false

/-- The tokens of a printed tree: they stand for the same tree, lines aside. -/
def Spans : Category → Node → List Token → Prop
  | .expression, n, ts => ∃ m, Derives .chain ts [m] ∧ m.unplaced = n.unplaced
  | .block, n, ts => ∃ o us ns, ts = o :: us ∧ o.kind = .openBrace ∧ Derives .braced ts ns ∧
      (Node.block ns none).unplaced = n.unplaced
  | .statement, n, ts => ∃ t us m, ts = t :: us ∧ m.unplaced = n.unplaced ∧
      ∀ next : Kind, next.followsStatement = true → Derives (.statement next) (t :: us) [m]

/-- The printed form of a tree is a phrase whose tokens have the property `P`. -/
structure Prints (n : Node) (P : List Token → Prop) : Prop where
  starts : Starts startsPhrase n.sourceForm
  reads : Reads endsPhrase n.sourceForm P

theorem Prints.of_form {n : Node} {P : List Token → Prop} {s : String} (hform : n.sourceForm = s)
    (hs : Starts startsPhrase s) (h : Reads endsPhrase s P) : Prints n P := by
  subst hform
  exact ⟨hs, h⟩

theorem derives_of_chain {s : Stratum} {ts : List Token} {n : Node}
    (h : Derives .chain ts [n]) : Derives (.level s) ts [n] :=
  .loosen (r := .prefixed) s.power_le_indexPower (.chain h)

/-! ## Lists -/

theorem starts_joined {f : Char → Bool} {s : String} (separator : String) (ss : List String)
    (h : Starts f s) : Starts f (Text.joined separator (s :: ss)) := by
  cases ss with
  | nil => exact h
  | cons t ss => exact (h.append _).append _

/-- A text that stands between two phrases and is a token of kind `k`. -/
structure Separates (separator : String) (k : Kind) : Prop where
  starts : Starts endsPhrase separator
  reads : ∀ {s : String} {P : List Token → Prop}, Reads endsPhrase s P →
    Starts startsPhrase s → Reads endsPhrase (separator ++ s)
      fun ts => ∃ c us, ts = c :: us ∧ c.kind = k ∧ P us

theorem separates_of_symbol {c : String} {k : Kind} (hk : (c.toList, k) ∈ symbols)
    (hends : Starts endsPhrase c) : Separates (c ++ " ") k where
  starts := hends.append _
  reads h hs := by
    have hspace := h.after_space (hs.mono fun _ => endsSpace_of_startsPhrase)
    rw [String.append_assoc]
    apply ((reads_symbol hk).cons hspace (.append ⟨_, _, rfl, rfl⟩ _)).imp
    rintro _ ⟨c, us, rfl, hc, -, hus⟩
    exact ⟨c, us, rfl, hc, hus⟩

theorem separates_comma : Separates ", " .comma :=
  separates_of_symbol (c := ",") (by decide) ⟨_, _, rfl, rfl⟩

theorem separates_semicolon : Separates "; " .semicolon :=
  separates_of_symbol (c := ";") (by decide) ⟨_, _, rfl, rfl⟩

theorem separates_newline : Separates "\n" .newline where
  starts := ⟨_, _, rfl, rfl⟩
  reads h hs := by
    apply (reads_newline.append h (hs.mono fun _ _ => rfl)).imp
    rintro _ ⟨_, us, rfl, ⟨c, rfl, hc⟩, hus⟩
    exact ⟨c, us, rfl, hc, hus⟩

theorem reads_joined {separator : String} {k : Kind} {P : Node → List Token → Prop}
    {R : List Node → List Token → Prop} (hseparator : Separates separator k) (hnil : R [] [])
    (hone : ∀ n ts, P n ts → R [n] ts)
    (hmore : ∀ n us c ns vs, P n us → c.kind = k → R ns vs → R (n :: ns) (us ++ c :: vs))
    {ns : List Node} (h : ∀ n ∈ ns, Prints n (P n)) :
    Reads endsPhrase (Text.joined separator (sourceForms ns)) (R ns) := by
  induction ns with
  | nil =>
    apply (Reads.empty _).imp
    rintro _ rfl
    exact hnil
  | cons n ns ih =>
    obtain ⟨hn, hns⟩ := List.forall_mem_cons.mp h
    cases ns with
    | nil => exact hn.reads.imp (hone n)
    | cons n' ns =>
      have hn' := (hns n' (List.mem_cons_self ..)).starts
      have hrest := hseparator.reads (ih hns) (starts_joined separator (sourceForms ns) hn')
      rw [sourceForms, sourceForms, Text.joined, String.append_assoc]
      apply (hn.reads.append hrest (hseparator.starts.append _)).imp
      rintro _ ⟨us, _, rfl, hus, c, vs, rfl, hc, hvs⟩
      exact hmore n us c _ vs hus hc hvs

theorem reads_items {ns : List Node} (h : ∀ n ∈ ns, Prints n (Spans .expression n)) :
    Reads endsPhrase (Text.joined ", " (sourceForms ns))
      fun ts => ∃ ms, Derives .items ts ms ∧ allUnplaced ms = allUnplaced ns := by
  refine reads_joined (R := fun ns ts => ∃ ms, Derives .items ts ms ∧
    allUnplaced ms = allUnplaced ns) separates_comma ⟨[], .noItems, rfl⟩ ?_ ?_ h
  · rintro n ts ⟨m, hm, hunplaced⟩
    have hlast : Derives .items (ts ++ []) [m] :=
      .lastItem (derives_of_chain hm) (List.forall_mem_nil _)
    rw [List.append_nil] at hlast
    exact ⟨[m], hlast, by simp [hunplaced]⟩
  · rintro n us c ns vs ⟨m, hm, hunplaced⟩ hc ⟨ms, hms, hall⟩
    have hmore : Derives .items (us ++ ([] ++ c :: ([] ++ vs))) (m :: ms) :=
      .moreItems (derives_of_chain hm) (List.forall_mem_nil _) hc (List.forall_mem_nil _) hms
    exact ⟨m :: ms, hmore, by simp [hunplaced, hall]⟩

theorem reads_names {ps : List Node}
    (h : ∀ p ∈ ps, Prints p fun ts => ∃ x, ts = [x] ∧ x.kind = .name ∧
      (Node.leaf (.ofName x)).unplaced = p.unplaced) :
    Reads endsPhrase (Text.joined ", " (sourceForms ps))
      fun ts => ∃ ms, Derives .names ts ms ∧ allUnplaced ms = allUnplaced ps := by
  refine reads_joined (R := fun ns ts => ∃ ms, Derives .names ts ms ∧
    allUnplaced ms = allUnplaced ns) separates_comma ⟨[], .noNames, rfl⟩ ?_ ?_ h
  · rintro p _ ⟨x, rfl, hx, hunplaced⟩
    exact ⟨_, .lastName hx, by simp [hunplaced]⟩
  · rintro p _ c ns vs ⟨x, rfl, hx, hunplaced⟩ hc ⟨ms, hms, hall⟩
    exact ⟨_, .moreNames hx hc (fun _ => rfl) hms, by simp [hunplaced, hall]⟩

/-- Two symbols that enclose a phrase. -/
structure Encloses (o c : String) (opening closing : Kind) : Prop where
  opening : (o.toList, opening) ∈ symbols
  closing : (c.toList, closing) ∈ symbols
  ends : Starts endsPhrase c

theorem encloses_parens : Encloses "(" ")" .openParen .closeParen :=
  ⟨by decide, by decide, _, _, rfl, rfl⟩

theorem encloses_brackets : Encloses "[" "]" .openBracket .closeBracket :=
  ⟨by decide, by decide, _, _, rfl, rfl⟩

theorem reads_enclosed {s o c : String} {opening closing : Kind} {P Q : List Token → Prop}
    (hoc : Encloses o c opening closing) (h : Reads endsPhrase s P)
    (hs : s = "" ∨ Starts startsPhrase s)
    (hPQ : ∀ o ts c, o.kind = opening → P ts → c.kind = closing → Q (o :: (ts ++ [c]))) :
    Reads endsSymbol (o ++ (s ++ c)) Q := by
  have hclose := h.append (reads_symbol hoc.closing) hoc.ends
  have hstarts : Starts endsSymbol (s ++ c) := by
    rcases hs with rfl | hs
    · rw [String.empty_append]
      exact hoc.ends.mono fun _ => endsSymbol_of_endsPhrase
    · exact (hs.append c).mono fun _ => endsSymbol_of_startsPhrase
  apply ((reads_symbol hoc.opening).cons hclose hstarts).imp
  rintro _ ⟨o, _, rfl, ho, -, us, _, rfl, hus, c, rfl, hc, -⟩
  exact hPQ o us c ho hus hc

theorem starts_forms {P : Node → List Token → Prop} {ns : List Node} (separator : String)
    (h : ∀ n ∈ ns, Prints n (P n)) : Text.joined separator (sourceForms ns) = "" ∨
      Starts startsPhrase (Text.joined separator (sourceForms ns)) := by
  cases ns with
  | nil => exact .inl rfl
  | cons n ns => exact .inr (starts_joined _ _ (h n (List.mem_cons_self ..)).starts)

theorem reads_bracketed {ns : List Node} {o c : String} {opening closing : Kind}
    (hoc : Encloses o c opening closing) (h : ∀ n ∈ ns, Prints n (Spans .expression n)) :
    Reads endsSymbol (o ++ (Text.joined ", " (sourceForms ns) ++ c))
      fun ts => ∃ ms, Derives (.bracketed opening closing) ts ms ∧
        allUnplaced ms = allUnplaced ns := by
  apply reads_enclosed hoc (reads_items h) (starts_forms _ h)
  rintro o ts c ho ⟨ms, hms, hall⟩ hc
  have hbracketed : Derives (.bracketed opening closing) (o :: ([] ++ (ts ++ [c]))) ms :=
    .bracketed ho (List.forall_mem_nil _) hms hc
  exact ⟨ms, hbracketed, hall⟩

/-! ## Blocks -/

theorem Grammar.statements_cons {trailing : Bool} {next : Kind} {c : Token} {ts : List Token}
    {ns : List Node} (hc : c.kind = .newline ∨ c.kind = .semicolon)
    (h : Grammar trailing (.statements next) ts ns) :
    Grammar trailing (.statements next) (c :: ts) ns := by
  cases h with
  | noStatements hnext hss => exact .noStatements hnext (List.forall_mem_cons.mpr ⟨hc, hss⟩)
  | @moreStatements _ ss _ _ _ _ _ hss h hus =>
    have hss' : Token.AllSeparators (c :: ss) := List.forall_mem_cons.mpr ⟨hc, hss⟩
    exact .moreStatements hss' h hus

/-- The statements of a block or of a program, in front of a token of kind `next`. -/
theorem reads_statements {separator : String} {k next : Kind} {ns : List Node}
    (hseparator : Separates separator k) (hk : k = .newline ∨ k = .semicolon)
    (hnext : next.endsBlock = true) (h : ∀ n ∈ ns, Prints n (Spans .statement n)) :
    Reads endsPhrase (Text.joined separator (sourceForms ns))
      fun ts => ∃ ms, Derives (.statements next) ts ms ∧ allUnplaced ms = allUnplaced ns := by
  have hfollows : next.followsStatement = true := by
    revert hnext
    cases next <;> decide
  have hempty : Derives (.statements next) [] [] := .noStatements hnext (List.forall_mem_nil _)
  refine reads_joined (R := fun ns ts => ∃ ms, Derives (.statements next) ts ms ∧
    allUnplaced ms = allUnplaced ns) hseparator ⟨[], hempty, rfl⟩ ?_ ?_ h
  · rintro n _ ⟨t, us, m, rfl, hunplaced, hm⟩
    have hone : Derives (.statements next) ([] ++ t :: (us ++ [])) [m.atLine t.line] :=
      .moreStatements (List.forall_mem_nil _) (hm next hfollows) hempty
    rw [List.append_nil] at hone
    exact ⟨_, hone, by simp [hunplaced]⟩
  · rintro n _ c ns vs ⟨t, us, m, rfl, hunplaced, hm⟩ hc ⟨ms, hms, hall⟩
    have hrest : Derives (.statements next) (c :: vs) ms := hms.statements_cons (hc ▸ hk)
    have hmore : Derives (.statements next) ([] ++ t :: (us ++ c :: vs)) (m.atLine t.line :: ms) :=
      .moreStatements (List.forall_mem_nil _)
        (hm c.kind (by rw [hc]; rcases hk with rfl | rfl <;> rfl)) hrest
    exact ⟨_, hmore, by simp [hunplaced, hall]⟩

theorem reads_braces {ns : List Node} (h : ∀ n ∈ ns, Prints n (Spans .statement n)) :
    Reads endsSymbol (bracedForm (sourceForms ns)) fun ts => ∃ o us ms, ts = o :: us ∧
      o.kind = .openBrace ∧ Derives .braced ts ms ∧ allUnplaced ms = allUnplaced ns := by
  have hopen : Reads endsSymbol "\x7b" (IsToken .openBrace (.text "\x7b")) :=
    reads_symbol (by decide)
  have hclose : Reads endsSymbol " \x7d" (IsToken .closeBrace (.text "\x7d")) :=
    Reads.after_space (s := "\x7d") (reads_symbol (by decide)) ⟨_, _, rfl, rfl⟩
  have hnext : Kind.closeBrace.endsBlock = true := rfl
  have hstatements := reads_statements separates_semicolon (.inr rfl) hnext h
  cases ns with
  | nil =>
    apply (hopen.cons hclose ⟨_, _, rfl, rfl⟩).imp
    rintro _ ⟨o, _, rfl, ho, -, c, rfl, hc, -⟩
    have hbraced : Derives .braced ([] ++ o :: ([] ++ [c])) [] :=
      .braced (List.forall_mem_nil _) ho (.noStatements rfl (List.forall_mem_nil _)) hc
    exact ⟨o, _, [], rfl, ho, hbraced, rfl⟩
  | cons n ns =>
    have hstarts := starts_joined "; " (sourceForms ns) (h n (List.mem_cons_self ..)).starts
    have hinner := (hstatements.append hclose ⟨_, _, rfl, rfl⟩).after_space
      ((hstarts.append _).mono fun _ => endsSpace_of_startsPhrase)
    have hform : bracedForm (sourceForms (n :: ns)) = "\x7b" ++ (" " ++
        (Text.joined "; " (sourceForms (n :: ns)) ++ " \x7d")) := by
      rw [bracedForm, if_neg (by simp [sourceForms]), String.append_assoc,
        ← @String.append_assoc "\x7b"]
      rfl
    rw [hform]
    apply (hopen.cons hinner (.append ⟨_, _, rfl, rfl⟩ _)).imp
    rintro _ ⟨o, _, rfl, ho, -, us, _, rfl, ⟨ms, hms, hall⟩, c, rfl, hc, -⟩
    have hbraced : Derives .braced ([] ++ o :: (us ++ [c])) ms :=
      .braced (List.forall_mem_nil _) ho hms hc
    exact ⟨o, _, ms, rfl, ho, hbraced, hall⟩

theorem block_prints {ns : List Node} {line : Option Nat}
    (h : ∀ n ∈ ns, Prints n (Spans .statement n)) :
    Prints (.block ns line) (Spans .block (.block ns line)) where
  starts := by
    rw [sourceForm, bracedForm]
    split
    · exact ⟨_, _, rfl, rfl⟩
    · exact .append (.append ⟨_, _, rfl, rfl⟩ _) _
  reads := by
    apply ((reads_braces h).mono fun _ => endsSymbol_of_endsPhrase).imp
    rintro _ ⟨o, us, ms, rfl, ho, hms, hall⟩
    exact ⟨o, us, ms, rfl, ho, hms, by simp [unplaced, hall]⟩

/-! ## Literals and names -/

theorem primary_spans {n m : Node} {t : Token} (h : Derives .primary [t] [m])
    (hm : m.unplaced = n.unplaced) : Spans .expression n [t] :=
  ⟨m, .primary h, hm⟩

theorem starts_digit {cs : List Char} (hne : cs ≠ [])
    (hcs : ∀ c ∈ cs.head?, Numeral.isDigit c = true) : Starts startsPhrase (String.ofList cs) := by
  obtain ⟨c, cs, rfl⟩ := List.exists_cons_of_ne_nil hne
  have hc : Numeral.isDigit c = true := hcs c rfl
  exact ⟨c, cs, String.toList_ofList, startsPhrase_of_test hc rfl rfl rfl⟩

theorem int_prints {i : Nat} {line : Option Nat} (hi : i < 10 ^ Numeral.maxLength) :
    Prints (.literal (.int i) line) (Spans .expression (.literal (.int i) line)) := by
  have hform : sourceForm (.literal (.int i) line) = String.ofList (Numeral.digits i) := rfl
  have hdigits : ∀ c ∈ (Numeral.digits i).head?, Numeral.isDigit c = true :=
    fun c hc => Numeral.isDigit_of_mem_digits (List.mem_of_head? hc)
  apply Prints.of_form hform (starts_digit Nat.toDigits_ne_nil hdigits)
  apply ((reads_integer hi).mono fun _ => endsWord_of_endsPhrase).imp
  rintro _ ⟨t, rfl, ht, hd⟩
  exact primary_spans (.datum (.inl ht)) (by rw [hd]; rfl)

theorem float_prints {x : Binary64} {line : Option Nat} (hx : x.IsUnsigned) :
    Prints (.literal (.float x) line) (Spans .expression (.literal (.float x) line)) := by
  obtain ⟨m, q, h, rfl⟩ := hx
  obtain ⟨d, hspells, -⟩ := Binary64.positionalText_spells h
  have hform : sourceForm (.literal (.float (.finite false m q h)) line) =
      String.ofList (Binary64.positionalText false m q) := rfl
  have hstarts : Starts startsPhrase (String.ofList (Binary64.positionalText false m q)) := by
    obtain ⟨whole, fraction, heq, hwhole, -, hdigits, -⟩ := hspells
    obtain ⟨c, whole, rfl⟩ := List.exists_cons_of_ne_nil hwhole
    rw [heq]
    apply starts_digit (by simp)
    rintro _ ⟨⟩
    exact hdigits c (by simp)
  apply Prints.of_form hform hstarts
  apply ((reads_float h).mono fun _ => endsWord_of_endsPhrase).imp
  rintro _ ⟨t, rfl, ht, hdatum⟩
  exact primary_spans (.datum (.inl ht)) (by rw [hdatum]; rfl)

theorem string_prints {s : String} {line : Option Nat} :
    Prints (.literal (.string s) line) (Spans .expression (.literal (.string s) line)) := by
  constructor
  · exact ⟨'"', _, String.toList_ofList, rfl⟩
  apply ((reads_string s).mono fun _ _ => rfl).imp
  rintro _ ⟨t, rfl, ht, hd⟩
  exact primary_spans (.datum (.inr ht)) (by rw [hd]; rfl)

theorem starts_word {w : String} (hw : IsWord w) : Starts startsPhrase w := by
  obtain ⟨c, cs, hcs, hc, -⟩ := hw
  exact ⟨c, cs, hcs, startsPhrase_of_test hc rfl rfl rfl⟩

theorem bool_prints {b : Bool} {line : Option Nat} :
    Prints (.literal (.bool b) line) (Spans .expression (.literal (.bool b) line)) := by
  have hword : IsWord "true" ∧ IsWord "false" :=
    ⟨isWord_of_ofWord (by decide), isWord_of_ofWord (by decide)⟩
  cases b with
  | true =>
    refine ⟨starts_word hword.1, ((reads_word hword.1).mono fun _ => endsWord_of_endsPhrase).imp ?_⟩
    rintro _ ⟨t, rfl, ht, -⟩
    exact primary_spans (.truth ht) rfl
  | false =>
    refine ⟨starts_word hword.2, ((reads_word hword.2).mono fun _ => endsWord_of_endsPhrase).imp ?_⟩
    rintro _ ⟨t, rfl, ht, -⟩
    exact primary_spans (.falsehood ht) rfl

theorem reads_name {l : Leaf} (hl : l.IsName) : Reads endsWord l.text fun ts => ∃ x, ts = [x] ∧
    x.kind = .name ∧ (Leaf.ofName x).unplaced = l.unplaced := by
  obtain ⟨hkind, hword, hname⟩ := hl
  apply (reads_word hword).imp
  rintro _ ⟨x, rfl, hx, hd⟩
  refine ⟨x, rfl, hx.trans hname, ?_⟩
  simp [Leaf.ofName, Leaf.unplaced, hkind, hd, Datum.display]

theorem name_prints {l : Leaf} (hl : l.IsName) :
    Prints (.leaf l) fun ts => ∃ x, ts = [x] ∧ x.kind = .name ∧
      (Node.leaf (.ofName x)).unplaced = (Node.leaf l).unplaced := by
  refine ⟨starts_word hl.2.1, ((reads_name hl).mono fun _ => endsWord_of_endsPhrase).imp ?_⟩
  rintro _ ⟨x, rfl, hx, hunplaced⟩
  exact ⟨x, rfl, hx, by simp [unplaced, hunplaced]⟩

/-! ## Operators -/

/-- The leaf of an operator in its canonical spelling is read from its text. -/
theorem unplaced_ofOperator {k : Kind} {op : Leaf} {t : Token} (hop : op.Spells k)
    (hk : t.kind = k) (hd : t.datum = .text op.text) :
    (Leaf.ofOperator t).unplaced = op.unplaced := by
  obtain ⟨hkind, hmem⟩ := hop
  have hconjunction : ∀ s ∈ symbols, s.2 = .conjunction → s.1 = ['&', '&'] := by decide
  have hdisjunction : ∀ s ∈ symbols, s.2 = .disjunction → s.1 = ['|', '|'] := by decide
  have htext {cs : List Char} (h : op.text.toList = cs) : op.text = String.ofList cs := by
    rw [← h, String.ofList_toList]
  unfold Leaf.ofOperator
  split
  next h =>
    obtain rfl := hk.symm.trans h
    simp only [Leaf.unplaced, hkind, h, htext (hconjunction _ hmem rfl)]
  next h =>
    obtain rfl := hk.symm.trans h
    simp only [Leaf.unplaced, hkind, h, htext (hdisjunction _ hmem rfl)]
  next => simp [Leaf.unplaced, hkind, hk, hd, Datum.display]

theorem starts_operator {k : Kind} {op : Leaf} (hop : op.Spells k) :
    Starts endsSpace op.text := by
  have hall : ∀ s ∈ symbols, s.1.head?.map endsSpace = some true := by decide
  obtain ⟨c, hc, hends⟩ := Option.map_eq_some_iff.mp (hall _ hop.2)
  exact ⟨c, _, List.eq_cons_of_mem_head? hc, hends⟩

theorem reads_operator {k : Kind} {op : Leaf} (hop : op.Spells k) : Reads endsSymbol op.text
    fun ts => ∃ t, ts = [t] ∧ t.kind = k ∧ (Leaf.ofOperator t).unplaced = op.unplaced := by
  apply (reads_symbol hop.2).imp
  rintro _ ⟨t, rfl, hk, hd⟩
  exact ⟨t, rfl, hk, unplaced_ofOperator hop hk hd⟩

theorem group_spans {n m : Node} {o c : Token} {ts : List Token} (ho : o.kind = .openParen)
    (h : Derives .expression ts [m]) (hc : c.kind = .closeParen) (hm : m.unplaced = n.unplaced) :
    Spans .expression n (o :: (ts ++ [c])) :=
  ⟨m, .primary (.group ho h hc), hm⟩

theorem starts_prefixed {k : Kind} {op : Leaf} (hk : k = .minus ∨ k = .bang)
    (hop : op.Spells k) : Starts startsPhrase op.text := by
  have hall : ∀ s ∈ symbols, s.2 = .minus ∨ s.2 = .bang →
      s.1.head?.map startsPhrase = some true := by decide
  obtain ⟨c, hc, hstarts⟩ := Option.map_eq_some_iff.mp (hall _ hop.2 hk)
  exact ⟨c, _, List.eq_cons_of_mem_head? hc, hstarts⟩

variable {n a b c : Node} {line : Option Nat}

theorem unary_prints {k : Kind} {op : Leaf} (hk : k = .minus ∨ k = .bang) (hop : op.Spells k)
    (hn : Prints n (Spans .expression n)) :
    Prints (.unary op n line) (Spans .expression (.unary op n line)) := by
  have hform : sourceForm (.unary op n line) = "(" ++ (op.text ++ n.sourceForm ++ ")") := by
    rw [sourceForm]
    simp only [String.append_assoc]
  have hinner := (reads_operator hop).append hn.reads
    (hn.starts.mono fun _ => endsSymbol_of_startsPhrase)
  apply Prints.of_form hform (.append ⟨_, _, rfl, rfl⟩ _)
  refine (reads_enclosed encloses_parens hinner
    (.inr ((starts_prefixed hk hop).append _)) ?_).mono fun _ => endsSymbol_of_endsPhrase
  rintro o _ c ho ⟨_, us, rfl, ⟨t, rfl, ht, htext⟩, m, hm, hunplaced⟩ hc
  have hunary : Derives .expression (t :: us) [.unary (.ofOperator t) m t.line] :=
    .loosen (r := .prefixed) (by decide) (.unary (ht ▸ hk) (derives_of_chain hm))
  exact group_spans ho hunary hc (by simp [unplaced, htext, hunplaced])

theorem binary_prints {s : Stratum} {k : Kind} {op : Leaf} (hk : k ∈ s.operators)
    (hop : op.Spells k) (ha : Prints a (Spans .expression a))
    (hb : Prints b (Spans .expression b)) :
    Prints (.binary op a b line) (Spans .expression (.binary op a b line)) := by
  have hform : sourceForm (.binary op a b line) =
      "(" ++ (a.sourceForm ++ (" " ++ (op.text ++ (" " ++ b.sourceForm))) ++ ")") := by
    rw [sourceForm]
    simp only [String.append_assoc]
  have hright := hb.reads.after_space (hb.starts.mono fun _ => endsSpace_of_startsPhrase)
  have hoperator := (reads_operator hop).append hright (.append ⟨_, _, rfl, rfl⟩ _)
  have hspaced := hoperator.after_space ((starts_operator hop).append _)
  have hinner := ha.reads.append hspaced (.append ⟨_, _, rfl, rfl⟩ _)
  apply Prints.of_form hform (.append ⟨_, _, rfl, rfl⟩ _)
  refine (reads_enclosed encloses_parens hinner
    (.inr (ha.starts.append _)) ?_).mono fun _ => endsSymbol_of_endsPhrase
  rintro o _ c ho ⟨us, _, rfl, ⟨m, hm, hunplaced⟩, _, vs, rfl, ⟨t, rfl, ht, htext⟩, m', hm',
    hunplaced'⟩ hc
  have hbinary : Derives .expression (us ++ t :: vs) [.binary (.ofOperator t) m m' t.line] :=
    .loosen (r := s) (Nat.le_trans (by decide) s.one_le_power)
      (.binary (derives_of_chain hm) (ht ▸ hk) (derives_of_chain hm'))
  exact group_spans ho hbinary hc (by simp [unplaced, htext, hunplaced, hunplaced'])

theorem index_prints (ha : Prints a (Spans .expression a)) (hb : Prints b (Spans .expression b)) :
    Prints (.index a b line) (Spans .expression (.index a b line)) := by
  have hform : sourceForm (.index a b line) =
      a.sourceForm ++ ("[" ++ (b.sourceForm ++ "]")) := by
    rw [sourceForm]
    simp only [String.append_assoc]
  have hposition := reads_enclosed encloses_brackets (Q := fun ts => ∃ o us c m,
      ts = o :: (us ++ [c]) ∧ o.kind = .openBracket ∧ c.kind = .closeBracket ∧
      Derives .expression us [m] ∧ m.unplaced = b.unplaced)
    hb.reads (.inr hb.starts) (by
      rintro o us c ho ⟨m, hm, hunplaced⟩ hc
      exact ⟨o, us, c, m, rfl, ho, hc, derives_of_chain hm, hunplaced⟩)
  apply Prints.of_form hform (ha.starts.append _)
  refine ((ha.reads.append hposition (.append ⟨_, _, rfl, rfl⟩ _)).mono
    fun _ => endsSymbol_of_endsPhrase).imp ?_
  rintro _ ⟨us, _, rfl, ⟨m, hm, hunplaced⟩, o, vs, c, m', rfl, ho, hc, hm', hunplaced'⟩
  exact ⟨_, .index hm ho hm' hc, by simp [unplaced, hunplaced, hunplaced']⟩

/-! ## Calls, arrays and functions -/

theorem call_prints {f : Leaf} {ns : List Node} {line' : Option Nat} (hf : f.IsName)
    (h : ∀ n ∈ ns, Prints n (Spans .expression n)) :
    Prints (.call (.leaf f) (.arguments ns line') line)
      (Spans .expression (.call (.leaf f) (.arguments ns line') line)) := by
  have hform : sourceForm (.call (.leaf f) (.arguments ns line') line) =
      f.text ++ ("(" ++ (Text.joined ", " (sourceForms ns) ++ ")")) := by
    rw [sourceForm, sourceForm]
    simp only [String.append_assoc]
  have hlist := reads_bracketed encloses_parens h
  apply Prints.of_form hform ((starts_word hf.2.1).append _)
  refine (((reads_name hf).append hlist (.append ⟨_, _, rfl, rfl⟩ _)).mono
    fun _ => endsSymbol_of_endsPhrase).imp ?_
  rintro _ ⟨_, us, rfl, ⟨x, rfl, hx, hunplaced⟩, ms, hms, hall⟩
  exact ⟨_, .primary (.call hx hms), by simp [unplaced, hunplaced, hall]⟩

theorem array_prints {ns : List Node} (h : ∀ n ∈ ns, Prints n (Spans .expression n)) :
    Prints (.array ns line) (Spans .expression (.array ns line)) := by
  have hform : sourceForm (.array ns line) =
      "[" ++ (Text.joined ", " (sourceForms ns) ++ "]") := by
    rw [sourceForm]
    simp only [String.append_assoc]
  have hlist := reads_bracketed encloses_brackets h
  apply Prints.of_form hform (.append ⟨_, _, rfl, rfl⟩ _)
  apply (hlist.mono fun _ => endsSymbol_of_endsPhrase).imp
  rintro ts ⟨ms, hms, hall⟩
  exact ⟨_, .primary (.array hms), by simp [unplaced, hall]⟩

theorem reads_keyword {w : String} {k : Kind} (hk : Kind.ofWord w = k) (hname : k ≠ .name) :
    Reads endsWord w (IsToken k (.text w)) :=
  hk ▸ reads_word (isWord_of_ofWord (hk ▸ hname))

theorem reads_group {s : String} {P : List Token → Prop} (h : Reads endsPhrase s P)
    (hs : s = "" ∨ Starts startsPhrase s) : Reads endsSymbol ("(" ++ (s ++ ")")) fun ts =>
      ∃ o us c, ts = o :: (us ++ [c]) ∧ o.kind = .openParen ∧ P us ∧ c.kind = .closeParen :=
  reads_enclosed encloses_parens h hs fun o us c ho hus hc => ⟨o, us, c, rfl, ho, hus, hc⟩

theorem function_prints {ps : List Node} {line' : Option Nat}
    (hps : ∀ p ∈ ps, ∃ l : Leaf, p = .leaf l ∧ l.IsName) (hb : Prints b (Spans .block b)) :
    Prints (.function (.parameters ps line') b line)
      (Spans .expression (.function (.parameters ps line') b line)) := by
  have hnames : ∀ p ∈ ps, Prints p fun ts => ∃ x, ts = [x] ∧ x.kind = .name ∧
      (Node.leaf (.ofName x)).unplaced = p.unplaced := by
    intro p hp
    obtain ⟨l, rfl, hl⟩ := hps p hp
    exact name_prints hl
  have hform : sourceForm (.function (.parameters ps line') b line) =
      "fn" ++ ("(" ++ (Text.joined ", " (sourceForms ps) ++ ")") ++ (" " ++ b.sourceForm)) := by
    have hfn : "fn(" = "fn" ++ "(" := rfl
    have hclose : ") " = ")" ++ " " := rfl
    rw [sourceForm, hfn, hclose]
    simp only [String.append_assoc]
  have hfn := reads_keyword (w := "fn") (k := .fnWord) (by decide) (by decide)
  have hbody := hb.reads.after_space (hb.starts.mono fun _ => endsSpace_of_startsPhrase)
  have hrest := (reads_group (reads_names hnames) (starts_forms _ hnames)).append hbody
    (.append ⟨_, _, rfl, rfl⟩ _)
  apply Prints.of_form hform (.append ⟨_, _, rfl, rfl⟩ _)
  apply (hfn.cons hrest (.append (.append ⟨_, _, rfl, rfl⟩ _) _)).imp
  rintro _ ⟨f, _, rfl, hf, -, _, us, rfl, ⟨o, vs, c, rfl, ho, ⟨xs, hxs, hall⟩, hc⟩, -, -, ms, -, -,
    hms, hunplaced⟩
  exact ⟨_, .primary (.function hf (.parameters ho hxs hc) hms),
    by simp only [unplaced, hall, ← hunplaced]⟩

/-! ## Statements -/

theorem expression_prints (h : Prints n (Spans .expression n)) :
    Prints (.expression n line) (Spans .statement (.expression n line)) := by
  refine ⟨h.starts, h.reads.imp ?_⟩
  rintro ts ⟨m, hm, hunplaced⟩
  have hexpression : Derives .expression ts [m] := derives_of_chain hm
  obtain ⟨t, us, rfl, -⟩ := hexpression.leads
  refine ⟨t, us, .expression m none, rfl, by simp [unplaced, hunplaced], fun next hnext => ?_⟩
  refine .expression hexpression (hm.beginsAssignment_of_symbol (.inl rfl)) ?_
  revert hnext
  cases next <;> decide

theorem print_prints (h : Prints n (Spans .expression n)) :
    Prints (.print n line) (Spans .statement (.print n line)) := by
  have hform : sourceForm (.print n line) = "print" ++ ("(" ++ (n.sourceForm ++ ")")) := by
    have hprint : "print(" = "print" ++ "(" := rfl
    rw [sourceForm, hprint]
    simp only [String.append_assoc]
  have hprint := reads_keyword (w := "print") (k := .printWord) (by decide) (by decide)
  apply Prints.of_form hform (.append ⟨_, _, rfl, rfl⟩ _)
  refine ((hprint.cons (reads_group h.reads (.inr h.starts)) (.append ⟨_, _, rfl, rfl⟩ _)).mono
    fun _ => endsSymbol_of_endsPhrase).imp ?_
  rintro _ ⟨w, _, rfl, hw, -, o, us, c, rfl, ho, ⟨m, hm, hunplaced⟩, hc⟩
  refine ⟨w, _, _, rfl, ?_, fun next hnext => .print hw ho (derives_of_chain hm) hc ?_⟩
  · simp [unplaced, hunplaced]
  · revert hnext
    cases next <;> decide

theorem reads_assigned {op : String} {k : Kind} (hop : (op.toList, k) ∈ symbols)
    (hstarts : Starts endsSpace op) (h : Prints n (Spans .expression n)) :
    Reads endsPhrase (" " ++ (op ++ (" " ++ n.sourceForm))) fun ts => ∃ t us, ts = t :: us ∧
      t.kind = k ∧ t.datum = .text op ∧ Spans .expression n us :=
  ((reads_symbol hop).cons (h.reads.after_space (h.starts.mono fun _ => endsSpace_of_startsPhrase))
    (.append ⟨_, _, rfl, rfl⟩ _)).after_space (hstarts.append _)

theorem followsStatement_endsExpression {next : Kind} (h : next.followsStatement = true) :
    next.endsExpression = true := by
  revert h
  cases next <;> decide

theorem unplaced_ofLet {op : Leaf} {t : Token} (hop : op.IsLet) (hk : t.kind = .letWord)
    (hd : t.datum = .text "let") : (Leaf.ofOperator t).unplaced = op.unplaced := by
  obtain ⟨hkind, htext⟩ := hop
  simp only [Leaf.ofOperator, hk, hd, Leaf.unplaced, hkind, htext, Datum.display]

theorem fresh_prints {x op : Leaf} (hx : x.IsName) (hop : op.IsLet)
    (h : Prints n (Spans .expression n)) :
    Prints (.declaration (.leaf x) (.leaf op) n line)
      (Spans .statement (.declaration (.leaf x) (.leaf op) n line)) := by
  have hform : sourceForm (.declaration (.leaf x) (.leaf op) n line) =
      "let" ++ (" " ++ (x.text ++ (" " ++ ("=" ++ (" " ++ n.sourceForm))))) := by
    have hlet : "let " = "let" ++ " " := rfl
    have heq : " = " = " " ++ ("=" ++ " ") := rfl
    rw [sourceForm, isLet, if_pos (by simp [hop.1]), sourceForm, hlet, heq]
    simp only [String.append_assoc]
  have hlet := reads_keyword (w := "let") (k := .letWord) (by decide) (by decide)
  have hassign : ("=".toList, Kind.assign) ∈ symbols := by decide
  have hvalue := reads_assigned hassign ⟨_, _, rfl, rfl⟩ h
  have hname := ((reads_name hx).append hvalue (.append ⟨_, _, rfl, rfl⟩ _)).after_space
    (((starts_word hx.2.1).append _).mono fun _ => endsSpace_of_startsPhrase)
  apply Prints.of_form hform (.append ⟨_, _, rfl, rfl⟩ _)
  apply (hlet.cons hname (.append ⟨_, _, rfl, rfl⟩ _)).imp
  rintro _ ⟨w, _, rfl, hw, hdatum, _, _, rfl, ⟨y, rfl, hy, hunplaced⟩, t, us, rfl, ht, -, m, hm,
    hunplaced'⟩
  refine ⟨w, _, _, rfl, ?_, fun next hnext => .fresh hw hy ht (derives_of_chain hm)
    (followsStatement_endsExpression hnext)⟩
  simp [unplaced, hunplaced, hunplaced', unplaced_ofLet hop hw hdatum]

theorem assign_prints {k : Kind} {x op : Leaf} (hx : x.IsName) (hk : k.isAssignment = true)
    (hop : op.Spells k) (h : Prints n (Spans .expression n)) :
    Prints (.declaration (.leaf x) (.leaf op) n line)
      (Spans .statement (.declaration (.leaf x) (.leaf op) n line)) := by
  have hne : op.kind ≠ Kind.letWord.label := by
    rw [hop.1]
    revert hk
    cases k <;> decide
  have hform : sourceForm (.declaration (.leaf x) (.leaf op) n line) =
      x.text ++ (" " ++ (op.text ++ (" " ++ n.sourceForm))) := by
    rw [sourceForm, isLet, if_neg (by simpa using hne), sourceForm, sourceForm]
    simp only [String.append_assoc]
  have hvalue := reads_assigned hop.2 (starts_operator hop) h
  apply Prints.of_form hform ((starts_word hx.2.1).append _)
  apply ((reads_name hx).append hvalue (.append ⟨_, _, rfl, rfl⟩ _)).imp
  rintro _ ⟨_, _, rfl, ⟨y, rfl, hy, hunplaced⟩, t, us, rfl, ht, hdatum, m, hm, hunplaced'⟩
  refine ⟨y, _, _, rfl, ?_, fun next hnext => .assign hy (ht ▸ hk) (derives_of_chain hm)
    (followsStatement_endsExpression hnext)⟩
  simp [unplaced, hunplaced, hunplaced', unplaced_ofOperator hop ht hdatum]

theorem block_statement_prints (h : Prints n (Spans .block n)) :
    Prints n (Spans .statement n) := by
  refine ⟨h.starts, h.reads.imp ?_⟩
  rintro _ ⟨o, us, ns, rfl, ho, hns, hunplaced⟩
  exact ⟨o, us, _, rfl, hunplaced, fun _ _ => .block ho hns⟩

theorem reads_conditioned {s : String} {P : List Token → Prop}
    (ha : Prints a (Spans .expression a)) (hs : Reads endsPhrase s P)
    (hstarts : Starts endsSpace s) :
    Reads endsPhrase (" " ++ ("(" ++ (a.sourceForm ++ ")") ++ (" " ++ s))) fun ts => ∃ o us c vs m,
      ts = o :: (us ++ c :: vs) ∧ o.kind = .openParen ∧ Derives .expression us [m] ∧
      m.unplaced = a.unplaced ∧ c.kind = .closeParen ∧ P vs := by
  have hgroup := (reads_group ha.reads (.inr ha.starts)).append (hs.after_space hstarts)
    (.append ⟨_, _, rfl, rfl⟩ _)
  apply (hgroup.after_space (.append (.append ⟨_, _, rfl, rfl⟩ _) _)).imp
  rintro _ ⟨_, vs, rfl, ⟨o, us, c, rfl, ho, ⟨m, hm, hunplaced⟩, hc⟩, hvs⟩
  exact ⟨o, us, c, vs, m, by simp, ho, derives_of_chain hm, hunplaced, hc, hvs⟩

theorem loop_prints (ha : Prints a (Spans .expression a)) (hb : Prints b (Spans .block b)) :
    Prints (.loop a b line) (Spans .statement (.loop a b line)) := by
  have hform : sourceForm (.loop a b line) =
      "while" ++ (" " ++ ("(" ++ (a.sourceForm ++ ")") ++ (" " ++ b.sourceForm))) := by
    have hopen : "while (" = "while" ++ (" " ++ "(") := rfl
    have hclose : ") " = ")" ++ " " := rfl
    rw [sourceForm, hopen, hclose]
    simp only [String.append_assoc]
  have hwhile := reads_keyword (w := "while") (k := .whileWord) (by decide) (by decide)
  have hrest := reads_conditioned ha hb.reads (hb.starts.mono fun _ => endsSpace_of_startsPhrase)
  apply Prints.of_form hform (.append ⟨_, _, rfl, rfl⟩ _)
  apply (hwhile.cons hrest (.append ⟨_, _, rfl, rfl⟩ _)).imp
  rintro _ ⟨w, _, rfl, hw, -, o, us, c, _, m, rfl, ho, hm, hunplaced, hc, -, -, ms, -, -, hms,
    hunplaced'⟩
  refine ⟨w, _, _, rfl, ?_, fun _ _ => .while hw ho hm hc hms⟩
  simp only [unplaced, hunplaced, ← hunplaced']

theorem branch_prints (ha : Prints a (Spans .expression a)) (hb : Prints b (Spans .block b))
    (hc : Prints c (Spans .block c)) :
    Prints (.branch a b c line) (Spans .statement (.branch a b c line)) := by
  have hform : sourceForm (.branch a b c line) = "if" ++ (" " ++ ("(" ++ (a.sourceForm ++ ")") ++
      (" " ++ (b.sourceForm ++ (" " ++ ("else" ++ (" " ++ c.sourceForm))))))) := by
    have hopen : "if (" = "if" ++ (" " ++ "(") := rfl
    have hclose : ") " = ")" ++ " " := rfl
    have helse : " else " = " " ++ ("else" ++ " ") := rfl
    rw [sourceForm, hopen, hclose, helse]
    simp only [String.append_assoc]
  have hif := reads_keyword (w := "if") (k := .ifWord) (by decide) (by decide)
  have helse := reads_keyword (w := "else") (k := .elseWord) (by decide) (by decide)
  have halternative := (helse.cons (hc.reads.after_space (hc.starts.mono fun _ =>
    endsSpace_of_startsPhrase)) (.append ⟨_, _, rfl, rfl⟩ _)).after_space
    (.append ⟨_, _, rfl, rfl⟩ _)
  have hrest := reads_conditioned ha (hb.reads.append halternative (.append ⟨_, _, rfl, rfl⟩ _))
    ((hb.starts.append _).mono fun _ => endsSpace_of_startsPhrase)
  apply Prints.of_form hform (.append ⟨_, _, rfl, rfl⟩ _)
  apply (hif.cons hrest (.append ⟨_, _, rfl, rfl⟩ _)).imp
  rintro _ ⟨w, _, rfl, hw, -, o, us, c, _, m, rfl, ho, hm, hunplaced, hc, vs, _, rfl,
    ⟨-, -, ms, -, -, hms, hunplaced'⟩, e, ws, rfl, he, -, -, -, ms', -, -, hms', hunplaced''⟩
  refine ⟨w, _, .branch m (.block ms none) (.block ms' none) w.line, rfl, ?_, fun next _ => ?_⟩
  · simp only [unplaced, hunplaced, ← hunplaced', ← hunplaced'']
  · have halternative : Derives (.alternative next) (e :: ws) ms' := .otherwise he hms'
    have hbranch : Derives (.branch next) (w :: o :: (us ++ c :: (vs ++ ([] ++ e :: ws))))
        [.branch m (.block ms none) (.block ms' none) w.line] :=
      .branch ho hm hc hms (List.forall_mem_nil _) halternative
    exact .conditional hw hbranch

theorem exit_prints : Prints (.exit line) (Spans .statement (.exit line)) := by
  have hbreak := reads_keyword (w := "break") (k := .breakWord) (by decide) (by decide)
  have hform : sourceForm (.exit line) = "break" := rfl
  refine ⟨hform ▸ ⟨_, _, rfl, rfl⟩, (hbreak.mono fun _ => endsWord_of_endsPhrase).imp ?_⟩
  rintro _ ⟨w, rfl, hw, -⟩
  exact ⟨w, [], .exit none, rfl, rfl, fun _ _ => .exit hw⟩

/-! ## Trees -/

theorem wellFormed_prints {category : Category} (h : WellFormed Binary64.IsUnsigned category n) :
    Prints n (Spans category n) := by
  induction h with
  | int hi => exact int_prints hi
  | float hx => exact float_prints hx
  | string => exact string_prints
  | bool => exact bool_prints
  | name hl =>
    refine ⟨(name_prints hl).starts, (name_prints hl).reads.imp ?_⟩
    rintro _ ⟨x, rfl, hx, hunplaced⟩
    exact ⟨_, .primary (.name hx), hunplaced⟩
  | unary hk hop _ ih => exact unary_prints hk hop ih
  | binary hk hop _ _ iha ihb => exact binary_prints hk hop iha ihb
  | index _ _ iha ihb => exact index_prints iha ihb
  | call hf _ ih => exact call_prints hf ih
  | array _ ih => exact array_prints ih
  | function hps _ ih => exact function_prints hps ih
  | statements _ ih => exact block_prints ih
  | block _ ih => exact block_statement_prints ih
  | expression _ ih => exact expression_prints ih
  | print _ ih => exact print_prints ih
  | fresh hx hop _ ih => exact fresh_prints hx hop ih
  | assign hx hk hop _ ih => exact assign_prints hx hk hop ih
  | branch _ _ _ iha ihb ihc => exact branch_prints iha ihb ihc
  | loop _ _ iha ihb => exact loop_prints iha ihb
  | exit => exact exit_prints

end ScopeScript
