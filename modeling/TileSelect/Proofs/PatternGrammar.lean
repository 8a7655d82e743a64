import TileSelect.Proofs.PatternSyntax
import TileSelect.Proofs.SExprPrinting

/-! # The grammar of patterns

Which terms are patterns is said here without the reader: a pattern is an opcode, an opcode in parentheses, or an
opcode and two operands in parentheses, where an operand is a pattern or the symbol for anything.  The reader gives
a term the pattern that the grammar gives it and refuses every other term, with the blame on a part of it.  Printing
stays inside the grammar as long as all opcodes have names. -/
namespace TileSelect.Pattern

variable {μ : Type}

/-- The names of opcodes; the wildcard has two. -/
def opcodeNames : List (String × Opcode) :=
  [("ref", .ref), ("add", .add), ("mul", .mul), ("sub", .sub), ("any", .any), ("*", .any)]

mutual

inductive Denotes : SExpr μ → Pattern → Prop
  | bare (mark : μ) {text : String} {op : Opcode} (hop : (text, op) ∈ opcodeNames) :
      Denotes (.symbol mark text) ⟨op, .free, .free⟩
  | alone (mark inner : μ) {text : String} {op : Opcode} (hop : (text, op) ∈ opcodeNames) :
      Denotes (.list mark [.symbol inner text]) ⟨op, .free, .free⟩
  | applied (mark inner : μ) {text : String} {op : Opcode} (hop : (text, op) ∈ opcodeNames)
      {l r : SExpr μ} {left right : Shape} (hl : DenotesOperand l left) (hr : DenotesOperand r right) :
      Denotes (.list mark [.symbol inner text, l, r]) ⟨op, left, right⟩

inductive DenotesOperand : SExpr μ → Shape → Prop
  | anything (mark : μ) : DenotesOperand (.symbol mark "_") .free
  | pattern {term : SExpr μ} {p : Pattern} (h : Denotes term p) : DenotesOperand term p.shape

end

theorem parse?_eq_some_iff {text : String} {op : Opcode} :
    Opcode.parse? text = some op ↔ (text, op) ∈ opcodeNames := by
  unfold Opcode.parse? opcodeNames
  split_ifs <;> grind

theorem readOpcode_eq_ok_iff {term : SExpr μ} {op : Opcode} :
    readOpcode term = .ok op ↔ ∃ mark text, term = .symbol mark text ∧ (text, op) ∈ opcodeNames := by
  cases term with
  | symbol mark text => simp [readOpcode_symbol, parse?_eq_some_iff]
  | list mark items => simp [readOpcode_list]

theorem term_of_readOpcode_eq_error {term : SExpr μ} {blame : Blame μ}
    (h : readOpcode term = .error blame) : blame.term = term := by
  unfold readOpcode at h
  split at h
  · cases h
    rfl
  · split at h
    · cases h
    · cases h
      rfl

theorem denotesOperand_of_readShape {term : SExpr μ} {shape : Shape}
    (h : readShape term = .ok shape) : DenotesOperand term shape := by
  fun_induction readShape term generalizing shape with
  | case1 mark =>
    obtain rfl := Except.ok.inj h
    exact .anything mark
  | case2 mark text hwild =>
    obtain ⟨op, hop, rfl⟩ := map_readOpcode.mp h
    exact .pattern (.bare mark (parse?_eq_some_iff.mp (readOpcode_symbol.mp hop)))
  | case3 mark head =>
    obtain ⟨op, hop, rfl⟩ := map_readOpcode.mp h
    obtain ⟨inner, text, rfl, hname⟩ := readOpcode_eq_ok_iff.mp hop
    exact .pattern (.alone mark inner hname)
  | case4 mark head left right ihl ihr =>
    obtain ⟨op, l, r, hop, hl, hr, rfl⟩ := (readShape_three mark).mp h
    obtain ⟨inner, text, rfl, hname⟩ := readOpcode_eq_ok_iff.mp hop
    exact .pattern (.applied mark inner hname (ihl hl) (ihr hr))
  | case5 mark items hone hthree => cases h

theorem ne_wildcard_of_mem_opcodeNames {text : String} {op : Opcode}
    (h : (text, op) ∈ opcodeNames) : text ≠ wildcard := by
  have hall : ∀ entry ∈ opcodeNames, entry.1 ≠ wildcard := by decide
  exact hall _ h

mutual

theorem Denotes.readShape_eq {term : SExpr μ} {p : Pattern} (h : Denotes term p) :
    readShape term = .ok p.shape := by
  match h with
  | .bare mark hop =>
    rw [readShape, if_neg (ne_wildcard_of_mem_opcodeNames hop), map_readOpcode]
    exact ⟨_, readOpcode_eq_ok_iff.mpr ⟨mark, _, rfl, hop⟩, rfl⟩
  | .alone mark inner hop =>
    rw [readShape, map_readOpcode]
    exact ⟨_, readOpcode_eq_ok_iff.mpr ⟨inner, _, rfl, hop⟩, rfl⟩
  | .applied mark inner hop hl hr =>
    have hhead := readOpcode_eq_ok_iff.mpr ⟨inner, _, rfl, hop⟩
    exact (readShape_three mark).mpr ⟨_, _, _, hhead, hl.readShape_eq, hr.readShape_eq, rfl⟩

theorem DenotesOperand.readShape_eq {term : SExpr μ} {shape : Shape} (h : DenotesOperand term shape) :
    readShape term = .ok shape := by
  match h with
  | .anything mark => rw [readShape, if_pos (by rfl)]
  | .pattern h => exact h.readShape_eq

end

theorem shape_injective {p q : Pattern} (h : p.shape = q.shape) : p = q := by
  cases p
  cases q
  simpa [shape] using h

theorem denotes_of_denotesOperand {term : SExpr μ} {p : Pattern} (h : DenotesOperand term p.shape) :
    Denotes term p := by
  generalize hshape : p.shape = shape at h
  cases h with
  | anything mark => cases hshape
  | pattern h =>
    obtain rfl := shape_injective hshape
    exact h

theorem read_eq_ok_iff_denotes {term : SExpr μ} {p : Pattern} :
    read term = .ok p ↔ Denotes term p := by
  rw [read_eq_ok_iff]
  constructor
  · intro h
    exact denotes_of_denotesOperand (denotesOperand_of_readShape h)
  · exact fun h => h.readShape_eq

theorem mem_parts_of_readOpcode_eq_error {term : SExpr μ} {blame : Blame μ}
    (h : readOpcode term = .error blame) : blame.term ∈ term.parts := by
  rw [term_of_readOpcode_eq_error h]
  exact SExpr.mem_parts_self term

theorem mem_parts_of_readShape_eq_error {term : SExpr μ} {blame : Blame μ}
    (h : readShape term = .error blame) : blame.term ∈ term.parts := by
  fun_induction readShape term with
  | case1 mark => cases h
  | case2 mark text hwild =>
    exact mem_parts_of_readOpcode_eq_error (Result.map_eq_error_iff.mp h)
  | case3 mark head =>
    have hhead := mem_parts_of_readOpcode_eq_error (Result.map_eq_error_iff.mp h)
    exact SExpr.mem_parts_of_mem_items List.mem_cons_self hhead
  | case4 mark head left right ihl ihr =>
    rcases Result.bind_eq_error_iff.mp h with h | ⟨op, -, h⟩
    · exact SExpr.mem_parts_of_mem_items (by simp) (mem_parts_of_readOpcode_eq_error h)
    rcases Result.bind_eq_error_iff.mp h with h | ⟨l, -, h⟩
    · exact SExpr.mem_parts_of_mem_items (by simp) (ihl h)
    rcases Result.bind_eq_error_iff.mp h with h | ⟨r, -, h⟩
    · exact SExpr.mem_parts_of_mem_items (by simp) (ihr h)
    · cases h
  | case5 mark items hone hthree =>
    cases h
    exact SExpr.mem_parts_self _

theorem mem_parts_of_read_eq_error {term : SExpr μ} {blame : Blame μ}
    (h : read term = .error blame) : blame.term ∈ term.parts := by
  rcases Result.bind_eq_error_iff.mp h with h | ⟨shape, -, h⟩
  · exact mem_parts_of_readShape_eq_error h
  · cases shape with
    | free =>
      cases h
      exact SExpr.mem_parts_self term
    | node op left right => cases h

theorem isNamed_iff_mem {op : Opcode} :
    op.isNamed = true ↔ op ∈ [Opcode.ref, .add, .mul, .sub, .any] := by
  cases op <;> simp [Opcode.isNamed]

theorem exists_parseFile_render (p : Pattern) (name : String) :
    ∃ term, SExpr.parseFile ⟨name, Text.decode (Text.encode p.render.toList)⟩ = .ok [term] ∧
      term.unmarked = p.term := by
  rw [Text.decode_encode, render, String.toList_ofList]
  obtain ⟨found, hparse, hfound⟩ := (SExpr.writes_pattern p).parseFile name
  obtain ⟨term, rfl, hterm⟩ := List.map_eq_singleton_iff.mp hfound
  exact ⟨term, hparse, hterm⟩

/-- The text of a pattern is always read as one term.  That term is read as the pattern if all its opcodes are among
the five with a meaning, and is refused otherwise.  Of all terms, exactly those in the grammar are read, as what they
denote, and where another one is refused the blame is on a part of it. -/
theorem read_render (name : String) :
    (∀ p : Pattern, ∃ term,
      SExpr.parseFile ⟨name, Text.decode (Text.encode p.render.toList)⟩ = .ok [term] ∧
      ((∀ op ∈ p.shape.opcodes, op ∈ [Opcode.ref, .add, .mul, .sub, .any]) → read term = .ok p) ∧
      ((∃ op ∈ p.shape.opcodes, op ∉ [Opcode.ref, .add, .mul, .sub, .any]) →
        ∃ blame, read term = .error blame)) ∧
    ∀ term : SExpr μ, (∀ p, read term = .ok p ↔ Denotes term p) ∧
      ∀ blame, read term = .error blame → blame.term ∈ term.parts := by
  constructor
  · intro p
    obtain ⟨term, hparse, hterm⟩ := exists_parseFile_render p name
    have hread := fun q => read_term_eq_ok_iff (q := q) hterm
    simp only [Shape.Named, isNamed_iff_mem] at hread
    refine ⟨term, hparse, fun hnamed => (hread p).mpr ⟨rfl, hnamed⟩, ?_⟩
    rintro ⟨op, hop, hreserved⟩
    cases hresult : read term with
    | error blame => exact ⟨blame, rfl⟩
    | ok q => exact absurd (((hread q).mp hresult).2 op hop) hreserved
  · intro term
    exact ⟨fun p => read_eq_ok_iff_denotes, fun blame => mem_parts_of_read_eq_error⟩

theorem read_render_multiplyAdd :
    (∃ term, SExpr.parseFile ⟨"", Text.decode (Text.encode "(add mul _)".toList)⟩ = .ok [term] ∧
      read term = .ok ⟨.add, .node .mul .free .free, .free⟩) ∧
    (∃ term, SExpr.parseFile ⟨"", Text.decode (Text.encode "(mul opcode(7) _)".toList)⟩ = .ok [term] ∧
      ∃ blame, read term = .error blame) ∧
    read (.list () [.symbol () "sub", .symbol () "_", .symbol () "_"]) = .ok (.leaf .sub) ∧
    ∃ blame, read (.list 0 [.symbol 1 "add", .list 2 [.symbol 3 "neg"], .symbol 4 "_"]) = .error blame ∧
      blame.term ∈ (SExpr.list 0 [.symbol 1 "add", .list 2 [.symbol 3 "neg"], .symbol 4 "_"]).parts := by
  refine ⟨?_, ?_, ?_, _, rfl, ((read_render "").2 _).2 _ rfl⟩
  · obtain ⟨term, hparse, hread, -⟩ := (@read_render Unit "").1 ⟨.add, .node .mul .free .free, .free⟩
    exact ⟨term, hparse, hread (by decide)⟩
  · obtain ⟨term, hparse, -, hrefused⟩ :=
      (@read_render Unit "").1 ⟨.mul, .node (.reserved 2) .free .free, .free⟩
    exact ⟨term, hparse, hrefused (by decide)⟩
  · apply (((read_render "").2 _).1 _).mpr
    exact .applied () () (by decide) (.anything ()) (.anything ())

end TileSelect.Pattern
