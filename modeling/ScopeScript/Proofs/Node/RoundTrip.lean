import ScopeScript.Proofs.Node.Derived
import ScopeScript.Proofs.Node.Printing
import ScopeScript.Proofs.Parser.Exact

/-!
# Printing and reading back

The source form of a well-formed tree reads as the same tree. What is read is
well-formed, apart from numerals that are too large for a float, so whatever a
program says survives printing.
-/

namespace ScopeScript

mutual

def Node.literals : Node → List Value
  | .leaf _ | .exit _ => []
  | .bare v | .literal v _ => [v]
  | .unary _ n _ | .expression n _ | .print n _ => n.literals
  | .binary _ a b _ | .index a b _ | .call a b _ | .function a b _ | .loop a b _ =>
    a.literals ++ b.literals
  | .declaration a b c _ | .branch a b c _ => a.literals ++ (b.literals ++ c.literals)
  | .array ns _ | .arguments ns _ | .parameters ns _ | .block ns _ | .other _ ns _ =>
    Node.allLiterals ns

def Node.allLiterals : List Node → List Value
  | [] => []
  | n :: ns => n.literals ++ Node.allLiterals ns

end

namespace Node

variable {F G : Binary64 → Prop} {category : Category} {n : Node} {ns : List Node}

/-! ## Literals -/

theorem literals_subset_allLiterals (h : n ∈ ns) : n.literals ⊆ allLiterals ns := by
  induction ns with
  | nil => cases h
  | cons m ns ih =>
    rcases List.mem_cons.mp h with rfl | h
    · exact List.subset_append_left ..
    · exact fun v hv => List.mem_append_right _ (ih h hv)

/-- Only the floats among the literals matter. -/
theorem WellFormed.of_floats (h : WellFormed F category n)
    (hG : ∀ x, .float x ∈ n.literals → F x → G x) : WellFormed G category n := by
  induction h with
  | int hi => exact .int hi
  | @float x _ hx => exact .float (hG x (List.mem_singleton_self _) hx)
  | string => exact .string
  | bool => exact .bool
  | name hl => exact .name hl
  | unary hk hop _ ih => exact .unary hk hop (ih hG)
  | binary hk hop _ _ iha ihb =>
    exact .binary hk hop (iha fun x hx => hG x (List.mem_append_left _ hx))
      (ihb fun x hx => hG x (List.mem_append_right _ hx))
  | index _ _ iha ihb =>
    exact .index (iha fun x hx => hG x (List.mem_append_left _ hx))
      (ihb fun x hx => hG x (List.mem_append_right _ hx))
  | call hf _ ih =>
    exact .call hf fun n hn => ih n hn fun x hx =>
      hG x (List.mem_append_right _ (literals_subset_allLiterals hn hx))
  | array _ ih =>
    exact .array fun n hn => ih n hn fun x hx => hG x (literals_subset_allLiterals hn hx)
  | function hps _ ih => exact .function hps (ih fun x hx => hG x (List.mem_append_right _ hx))
  | statements _ ih =>
    exact .statements fun n hn => ih n hn fun x hx => hG x (literals_subset_allLiterals hn hx)
  | block _ ih => exact .block (ih hG)
  | expression _ ih => exact .expression (ih hG)
  | print _ ih => exact .print (ih hG)
  | fresh hx hop _ ih =>
    exact .fresh hx hop (ih fun x hx => hG x (List.mem_append_right _ (List.mem_append_right _ hx)))
  | assign hx hk hop _ ih =>
    exact .assign hx hk hop
      (ih fun x hx => hG x (List.mem_append_right _ (List.mem_append_right _ hx)))
  | branch _ _ _ iha ihb ihc =>
    exact .branch (iha fun x hx => hG x (List.mem_append_left _ hx))
      (ihb fun x hx => hG x (List.mem_append_right _ (List.mem_append_left _ hx)))
      (ihc fun x hx => hG x (List.mem_append_right _ (List.mem_append_right _ hx)))
  | loop _ _ iha ihb =>
    exact .loop (iha fun x hx => hG x (List.mem_append_left _ hx))
      (ihb fun x hx => hG x (List.mem_append_right _ hx))
  | exit => exact .exit

theorem allWritable_iff : allWritable ns = true ↔ ∀ n ∈ ns, n.isWritable = true := by
  induction ns with
  | nil => simp [allWritable]
  | cons n ns ih => simp [allWritable, ih]

theorem WellFormed.isWritable (h : WellFormed F category n) : n.isWritable = true := by
  induction h with
  | @int i _ hi =>
    rw [Node.isWritable, Value.isWritable]
    exact Numeral.isWritable_natCast hi
  | float _ | string | bool | name _ | exit => rfl
  | unary _ _ _ ih => exact ih
  | binary _ _ _ _ iha ihb | index _ _ iha ihb | loop _ _ iha ihb =>
    rw [Node.isWritable, iha, ihb]
    rfl
  | call _ _ ih => exact allWritable_iff.mpr ih
  | array _ ih | statements _ ih => exact allWritable_iff.mpr ih
  | @function ps _ _ _ hps _ ih =>
    have hparameters : allWritable ps = true := by
      apply allWritable_iff.mpr
      intro p hp
      obtain ⟨l, rfl, -⟩ := hps p hp
      rfl
    rw [Node.isWritable, Node.isWritable, hparameters, ih]
    rfl
  | block _ ih | expression _ ih | print _ ih => exact ih
  | fresh _ _ _ ih | assign _ _ _ _ ih => exact ih
  | branch _ _ _ iha ihb ihc =>
    rw [Node.isWritable, iha, ihb, ihc]
    rfl

/-! ## Reading back -/

/-- Printed and read, the tree is the same up to its lines, unless the bounds on levels
and nesting are too small for it. -/
def Survives (read : Nat → List Char → Except Fault Node) (n : Node) : Prop :=
  ∀ levels, n.height ≤ levels → ∃ text, render? programForm levels n = .ok text ∧
    ∀ nesting, 2 * text.length + 4 ≤ nesting →
      ∃ m, read nesting text.toList = .ok m ∧ m.unplaced = n.unplaced

theorem WellFormed.render (h : WellFormed F category n) {levels : Nat} (hn : n.height ≤ levels) :
    render? programForm levels n = .ok n.programForm := by
  rw [render?, if_neg (Nat.not_lt.mpr hn), if_pos h.isWritable]

theorem length_le_of_tokenize {text : String} {ts : List Token} {stop : Token}
    (h : tokenize text.toList = .ok (ts ++ [stop])) : ts.length ≤ text.length := by
  have hcount := Lexer.length_tokenize_le h
  rw [List.length_append, List.length_singleton, String.length_toList] at hcount
  exact Nat.le_of_succ_le_succ hcount

theorem block_survives (h : WellFormed Binary64.IsUnsigned .block n) : Survives parse n := by
  intro levels hlevels
  refine ⟨_, h.render hlevels, fun nesting hnesting => ?_⟩
  cases h with
  | @statements ns line hns =>
    have hnext : Kind.endOfInput.endsBlock = true := rfl
    have hreads := reads_statements separates_newline (.inl rfl) hnext
      fun n hn => wellFormed_prints (hns n hn)
    obtain ⟨ts, stop, ⟨ms, hms, hall⟩, hstop, htokens⟩ := hreads.tokenize
    have hcount : ts.length ≤ _ := length_le_of_tokenize htokens
    refine ⟨.block ms none, ?_, ?_⟩
    · change (tokenize _ >>= _) = _
      rw [programForm, htokens]
      exact Parser.program_of_derives hms hstop (by rw [programForm] at hnesting; omega)
    · simp [Node.unplaced, hall]

theorem expression_survives (h : WellFormed Binary64.IsUnsigned .expression n) :
    Survives parseFragment n := by
  intro levels hlevels
  refine ⟨_, h.render hlevels, fun nesting hnesting => ?_⟩
  have hform : n.programForm = n.sourceForm := by cases h <;> rfl
  obtain ⟨ts, stop, ⟨m, hm, hunplaced⟩, hstop, htokens⟩ := (wellFormed_prints h).reads.tokenize
  have hcount : ts.length ≤ _ := length_le_of_tokenize htokens
  rw [hform] at hnesting ⊢
  refine ⟨m, ?_, hunplaced⟩
  change (tokenize _ >>= _) = _
  rw [htokens]
  exact Parser.fragment_of_derives (derives_of_chain hm) hstop (by omega)

/-! ## Trees that were read -/

theorem parse_wellFormed {nesting : Nat} {cs : List Char} (h : parse nesting cs = .ok n) :
    WellFormed Binary64.IsLiteral .block n := by
  obtain ⟨ts, hts, hn⟩ := Fault.bind_eq_ok_iff.mp h
  obtain ⟨e, us, ns, rfl, -, rfl, hns⟩ := Parser.derives_of_program hn
  have hregular := Lexer.regular_of_tokenize hts
  exact .statements (hns.wellFormed fun t ht => hregular t (List.mem_append_left _ ht))

theorem parseFragment_wellFormed {nesting : Nat} {cs : List Char}
    (h : parseFragment nesting cs = .ok n) : WellFormed Binary64.IsLiteral .expression n := by
  obtain ⟨ts, hts, hn⟩ := Fault.bind_eq_ok_iff.mp h
  obtain ⟨e, es, us, rfl, -, -, he⟩ := Parser.derives_of_fragment hn
  have hregular := Lexer.regular_of_tokenize hts
  exact he.wellFormed (fun t ht => hregular t (List.mem_append_left _ ht)) n
    (List.mem_singleton_self _)

theorem WellFormed.of_finite (h : WellFormed Binary64.IsLiteral category n)
    (hfinite : .float (.infinite false) ∉ n.literals) :
    WellFormed Binary64.IsUnsigned category n := by
  refine h.of_floats fun x hx hliteral => hliteral.resolve_right ?_
  rintro rfl
  exact hfinite hx

/-- Printing is undone by reading, for programs and for expressions; and every tree that was
read, but for literals that overflowed, is one of those. -/
theorem printing_undone_by_reading :
    (∀ n, WellFormed Binary64.IsUnsigned .block n → Survives parse n) ∧
    (∀ n, WellFormed Binary64.IsUnsigned .expression n → Survives parseFragment n) ∧
    (∀ nesting cs n, parse nesting cs = .ok n → WellFormed Binary64.IsLiteral .block n ∧
      (.float (.infinite false) ∉ n.literals → Survives parse n)) ∧
    (∀ nesting cs n, parseFragment nesting cs = .ok n →
      WellFormed Binary64.IsLiteral .expression n ∧
      (.float (.infinite false) ∉ n.literals → Survives parseFragment n)) := by
  refine ⟨fun n h => block_survives h, fun n h => expression_survives h, ?_, ?_⟩
  · intro nesting cs n h
    have hn := parse_wellFormed h
    exact ⟨hn, fun hfinite => block_survives (hn.of_finite hfinite)⟩
  · intro nesting cs n h
    have hn := parseFragment_wellFormed h
    exact ⟨hn, fun hfinite => expression_survives (hn.of_finite hfinite)⟩

/-- The program `x = -y`, and the expression on its right. -/
theorem printing_undone_on_assignment : ∃ n e : Node,
    parse 8 "x = -y".toList = .ok n ∧ WellFormed Binary64.IsUnsigned .block n ∧
    Survives parse n ∧ parseFragment 8 "-y".toList = .ok e ∧
    WellFormed Binary64.IsUnsigned .expression e ∧ Survives parseFragment e := by
  have hprogram : tokenize "x = -y".toList = .ok [⟨.name, .text "x", 1, 1, ['x']⟩,
      ⟨.assign, .text "=", 1, 3, ['=']⟩, ⟨.minus, .text "-", 1, 5, ['-']⟩,
      ⟨.name, .text "y", 1, 6, ['y']⟩, ⟨.endOfInput, .absent, 1, 7, []⟩] :=
    Fault.eq_ok_of_toOption (by decide +kernel)
  have hfragment : tokenize "-y".toList = .ok [⟨.minus, .text "-", 1, 1, ['-']⟩,
      ⟨.name, .text "y", 1, 2, ['y']⟩, ⟨.endOfInput, .absent, 1, 3, []⟩] :=
    Fault.eq_ok_of_toOption (by decide +kernel)
  have hn : parse 8 "x = -y".toList = .ok (.block [.declaration
      (.leaf ⟨"IDENT", "x", some 1, some 1⟩) (.leaf ⟨"ASSIGN", "=", none, none⟩)
      (.unary ⟨"MINUS", "-", none, none⟩ (.leaf ⟨"IDENT", "y", some 1, some 6⟩) (some 1))
      (some 1)] none) := Fault.bind_eq_ok_iff.mpr ⟨_, hprogram, rfl⟩
  have he : parseFragment 8 "-y".toList = .ok (.unary ⟨"MINUS", "-", none, none⟩
      (.leaf ⟨"IDENT", "y", some 1, some 2⟩) (some 1)) :=
    Fault.bind_eq_ok_iff.mpr ⟨_, hfragment, rfl⟩
  obtain ⟨hblock, hexpression, hparse, hparseFragment⟩ := printing_undone_by_reading
  have hnfinite := (hparse _ _ _ hn).1.of_finite (List.not_mem_nil)
  have hefinite := (hparseFragment _ _ _ he).1.of_finite (List.not_mem_nil)
  exact ⟨_, _, hn, hnfinite, hblock _ hnfinite, he, hefinite, hexpression _ hefinite⟩

end Node

end ScopeScript
