import Mathlib.Data.List.Chain
import Mathlib.Tactic.Lift
import Mathlib.Tactic.Simps.Basic
import TileSelect.Proofs.ProgramParsing
import TileSelect.Proofs.Utf8Decoding

/-! # Programs written and read back

A program with identifiers for names, binary operations and no input declared twice is read back from its own
text, and each instruction is found where it was written.  Every program that was read without error is of this
kind.  The words `input`, `add` and `ref` are identifiers like all others: what stands around a name decides
what it means. -/
namespace TileSelect

def Program.IsIdentifier (name : String) : Prop := (Program.Symbol.name name).Proper

structure Instruction.Writable (insn : Instruction) : Prop where
  binary : insn.op.isBinary = true
  dst : Program.IsIdentifier insn.dst
  lhs : Program.IsIdentifier insn.lhs
  rhs : Program.IsIdentifier insn.rhs

namespace Program

/-- Can the program be read back from its text? -/
structure Writable (program : Program) : Prop where
  distinct : program.inputs.Nodup
  inputs : ∀ name ∈ program.inputs, IsIdentifier name
  instructions : ∀ insn ∈ program.instructions, insn.Writable

instance : DecidablePred IsIdentifier := fun name =>
  inferInstanceAs (Decidable (Symbol.name name).Proper)

abbrev Identifier := {name : String // IsIdentifier name}

abbrev WritableInstruction := {insn : Instruction // insn.Writable}

theorem isIdentifier_mnemonic {op : Opcode} (h : op.isBinary = true) : IsIdentifier op.mnemonic := by
  cases op with
  | add => decide
  | mul => decide
  | sub => decide
  | ref => cases h
  | any => cases h
  | reserved => cases h

/-- A token other than a comment ends where a token of another kind starts. -/
theorem continuesWith_of_startsWith {kind kind' : TokenKind} {c : Char} (hcomment : kind ≠ .comment)
    (hne : kind ≠ kind') (h : kind'.startsWith c = true) : kind.continuesWith c = false := by
  cases kind with
  | comment => exact (hcomment rfl).elim
  | equals => rfl
  | comma => rfl
  | endOfFile => rfl
  | whitespace =>
    -- blanks start as they go on
    by_contra hc
    exact hne (startsWith_unique (Bool.eq_true_of_not_eq_false hc) h)
  | identifier =>
    cases kind' <;> simp [TokenKind.startsWith, TokenKind.continuesWith] at h hne ⊢
    all_goals aesop

/-- May the kinds of two neighbouring lexemes be these?  A comment would go on over what follows it. -/
def Apart (kind kind' : TokenKind) : Prop := kind ≠ kind' ∧ kind' ≠ .comment

/-- Lexemes that keep apart are cut as they stand. -/
theorem cut_of_apart {lexemes : List Lexeme} {kind : TokenKind}
    (h : (kind :: lexemes.map Lexeme.kind).IsChain Apart) :
    Cut (lexemes.flatMap Lexeme.text) lexemes [] := by
  induction lexemes generalizing kind with
  | nil => exact .stop fun lexeme h => lexeme.text_ne_nil (List.prefix_nil.mp h)
  | cons lexeme lexemes ih =>
    obtain ⟨⟨-, hcomment⟩, hrest⟩ := List.isChain_cons_cons.mp h
    rw [List.flatMap_cons]
    refine .take lexeme (longest_iff.mpr ?_) (ih hrest)
    cases lexemes with
    | nil => rfl
    | cons next lexemes =>
      obtain ⟨c, cs, htext, hstart, -⟩ := next.exists_cons
      have hne : lexeme.kind ≠ next.kind := (List.isChain_cons_cons.mp hrest).1.1
      have hc := continuesWith_of_startsWith hcomment hne hstart
      simp [htext, hc]

namespace Lexeme

@[simps]
def identifier (name : String) (h : IsIdentifier name) : Lexeme := ⟨.identifier, name.toList, h⟩

@[simps]
def space : Lexeme := ⟨.whitespace, [' '], by decide⟩

@[simps]
def newline : Lexeme := ⟨.whitespace, ['\n'], by decide⟩

@[simps]
def equals : Lexeme := ⟨.equals, ['='], by decide⟩

@[simps]
def comma : Lexeme := ⟨.comma, [','], by decide⟩

end Lexeme

/-- The words of lexemes from a place on, without the trivia. -/
def contentFrom (start : Nat) (lexemes : List Lexeme) : List Word :=
  (wordsFrom start lexemes).filter (!·.kind.isTrivia)

@[simp] theorem contentFrom_nil (start : Nat) : contentFrom start [] = [] := rfl

@[simp] theorem contentFrom_identifier (start : Nat) (name : String) (h : IsIdentifier name)
    (lexemes : List Lexeme) :
    contentFrom start (.identifier name h :: lexemes) =
      ⟨.identifier, Span.between start (start + name.toList.length), name⟩ ::
        contentFrom (start + name.toList.length) lexemes := by
  simp [contentFrom, wordsFrom, Lexeme.wordAt, TokenKind.isTrivia]

@[simp] theorem contentFrom_space (start : Nat) (lexemes : List Lexeme) :
    contentFrom start (.space :: lexemes) = contentFrom (start + 1) lexemes := rfl

@[simp] theorem contentFrom_newline (start : Nat) (lexemes : List Lexeme) :
    contentFrom start (.newline :: lexemes) = contentFrom (start + 1) lexemes := rfl

@[simp] theorem contentFrom_equals (start : Nat) (lexemes : List Lexeme) :
    contentFrom start (.equals :: lexemes) =
      Lexeme.equals.wordAt start :: contentFrom (start + 1) lexemes := rfl

@[simp] theorem contentFrom_comma (start : Nat) (lexemes : List Lexeme) :
    contentFrom start (.comma :: lexemes) =
      Lexeme.comma.wordAt start :: contentFrom (start + 1) lexemes := rfl

theorem wordsFrom_append (start : Nat) (xs ys : List Lexeme) :
    wordsFrom start (xs ++ ys) =
      wordsFrom start xs ++ wordsFrom (start + (xs.flatMap Lexeme.text).length) ys := by
  induction xs generalizing start with
  | nil => rfl
  | cons lexeme xs ih => simp [wordsFrom, ih, Nat.add_assoc]

theorem contentFrom_append (start : Nat) (xs ys : List Lexeme) :
    contentFrom start (xs ++ ys) =
      contentFrom start xs ++ contentFrom (start + (xs.flatMap Lexeme.text).length) ys := by
  rw [contentFrom, wordsFrom_append, List.filter_append]
  rfl

theorem statements_cons {declared : List String} {word : Word} {words rest : List Word}
    {read : Statement} (hend : word.kind ≠ .endOfFile)
    (h : statement declared (word :: words) = .ok (read, rest)) :
    statements declared (word :: words) =
      (statements (declared ++ read.declares) rest).map fun (more, error) => (read :: more, error) := by
  rw [statements, if_neg hend]
  split
  · simp_all
  · simp_all
  · next read' rest' hread =>
    rw [h] at hread
    cases hread
    rfl

/-- Six words make an instruction, whatever is written in the first. -/
theorem statement_instruction {dst equals mnemonic lhs comma rhs : Word} {op : Operation}
    (hdst : dst.kind = .identifier) (hequals : equals.kind = .equals)
    (hmnemonic : mnemonic.kind = .identifier) (hop : mnemonic.text = op.val.mnemonic)
    (hlhs : lhs.kind = .identifier) (hcomma : comma.kind = .comma) (hrhs : rhs.kind = .identifier)
    (hspan : dst.span.start ≤ rhs.span.stop) (declared : List String) (rest : List Word) :
    statement declared (dst :: equals :: mnemonic :: lhs :: comma :: rhs :: rest) =
      .ok (.instruction ⟨op, dst.text, lhs.text, rhs.text⟩ ⟨dst.span.start, rhs.span.stop⟩, rest) := by
  have hoperands : operands dst op (lhs :: comma :: rhs :: rest) =
      .ok ((⟨op, dst.text, lhs.text, rhs.text⟩, ⟨dst.span.start, rhs.span.stop⟩), rest) := by
    simp only [operands, expect, hlhs, hcomma, hrhs, if_true, Result.ok_bind, spanOf_eq_ok hspan]
  have hcomputation := computation_cons dst hmnemonic (lhs :: comma :: rhs :: rest)
  rw [Operation.ofName?_eq_some_iff.mpr hop, Option.elim_some, hoperands] at hcomputation
  simp only [statement, startsInputs_cons, hequals, instruction, expect, hdst, if_true, Result.ok_bind,
    hcomputation, bne_self_eq_false, Bool.and_false, Bool.false_eq_true, if_false]

def lineLexemes (insn : WritableInstruction) : List Lexeme :=
  [.identifier insn.val.dst insn.property.dst, .space, .equals, .space,
    .identifier insn.val.op.mnemonic (isIdentifier_mnemonic insn.property.binary), .space,
    .identifier insn.val.lhs insn.property.lhs, .comma, .space,
    .identifier insn.val.rhs insn.property.rhs, .newline]

def linesChars (insns : List Instruction) : List Char := insns.flatMap fun insn => insn.chars ++ ['\n']

/-- Instructions written on lines of their own from a place on, each with its span. -/
def linesFrom (start : Nat) : List Instruction → List (Instruction × Span)
  | [] => []
  | insn :: insns =>
    (insn, Span.between start (start + insn.chars.length)) ::
      linesFrom (start + insn.chars.length + 1) insns

def Statement.ofInstruction (located : Instruction × Span) : Statement :=
  .instruction located.1 located.2

theorem text_lineLexemes (insn : WritableInstruction) :
    (lineLexemes insn).flatMap Lexeme.text = insn.val.chars ++ ['\n'] := by
  simp [lineLexemes, Instruction.chars]

theorem statement_line (insn : WritableInstruction) (declared : List String)
    (start : Nat) (rest : List Word) :
    statement declared (contentFrom start (lineLexemes insn) ++ rest) =
      .ok (.instruction insn.val (Span.between start (start + insn.val.chars.length)), rest) := by
  obtain ⟨⟨op, dst, lhs, rhs⟩, hbinary, hdst, hlhs, hrhs⟩ := insn
  have hop : op.mnemonic = (⟨op, hbinary⟩ : Operation).val.mnemonic := rfl
  have hlength : (⟨op, dst, lhs, rhs⟩ : Instruction).chars.length = dst.toList.length + 1 + 1 + 1 +
      op.mnemonic.toList.length + 1 + lhs.toList.length + 1 + 1 + rhs.toList.length := by
    simp [Instruction.chars]
    omega
  simp only [lineLexemes, contentFrom_identifier, contentFrom_space, contentFrom_equals,
    contentFrom_comma, contentFrom_newline, contentFrom_nil, List.cons_append, List.nil_append, hlength]
  rw [statement_instruction rfl rfl rfl hop rfl rfl rfl (by simp only [Span.between]; omega)]
  simp only [Span.between, Nat.add_assoc]

theorem statements_line (insn : WritableInstruction) (declared : List String)
    (start : Nat) (rest : List Word) :
    statements declared (contentFrom start (lineLexemes insn) ++ rest) =
      (statements declared rest).map fun (more, error) =>
        (.instruction insn.val (Span.between start (start + insn.val.chars.length)) :: more, error) := by
  have hread := statement_line insn declared start rest
  simp only [lineLexemes, contentFrom_identifier, List.cons_append] at hread ⊢
  rw [statements_cons (by simp) hread, Statement.declares, List.append_nil]

theorem statements_lines (insns : List WritableInstruction) (declared : List String)
    (start length : Nat) :
    statements declared (contentFrom start (insns.flatMap lineLexemes) ++ [endWord length]) =
      .ok ((linesFrom start (insns.map Subtype.val)).map .ofInstruction, none) := by
  induction insns generalizing start with
  | nil => simp [statements, endWord, linesFrom]
  | cons insn insns ih =>
    rw [List.flatMap_cons, contentFrom_append, List.append_assoc, statements_line, text_lineLexemes, ih]
    simp [linesFrom, Statement.ofInstruction, Except.map, Nat.add_assoc]

def nameLexemes : List Identifier → List Lexeme
  | [] => []
  | [name] => [.identifier name name.property]
  | name :: next :: names =>
    .identifier name name.property :: .comma :: .space :: nameLexemes (next :: names)

theorem text_nameLexemes (names : List Identifier) :
    (nameLexemes names).flatMap Lexeme.text = joinNames (names.map Subtype.val) := by
  fun_induction nameLexemes names with
  | case1 => rfl
  | case2 name => simp [joinNames]
  | case3 name next names ih => simp [joinNames, ih]

theorem inputNames_cons {declared : List String} {word : Word} (hkind : word.kind = .identifier)
    (hnew : word.text ∉ declared) (separator : Word) (rest : List Word) :
    inputNames declared (word :: separator :: rest) =
      if separator.kind = .comma then
        (inputNames (declared ++ [word.text]) rest).map fun (names, rest) => (word.text :: names, rest)
      else .ok ([word.text], separator :: rest) := by
  rw [inputNames, if_neg (not_not.mpr hkind), if_neg (by simpa using hnew)]
  rfl

theorem inputNames_listed {names : List Identifier} (hne : names ≠ [])
    {declared : List String} (hdistinct : (declared ++ names.map Subtype.val).Nodup) {next : Word}
    (hnext : next.kind ≠ .comma) (start : Nat) (rest : List Word) :
    inputNames declared (contentFrom start (nameLexemes names) ++ next :: rest) =
      .ok (names.map Subtype.val, next :: rest) := by
  fun_induction nameLexemes names generalizing declared start with
  | case1 => exact (hne rfl).elim
  | case2 name =>
    have hnew : name.val ∉ declared := fun hmem =>
      (List.nodup_append.mp hdistinct).2.2 _ hmem _ (by simp) rfl
    rw [contentFrom_identifier, contentFrom_nil, List.singleton_append, inputNames_cons rfl hnew,
      if_neg hnext]
    rfl
  | case3 name second names ih =>
    have hnew : name.val ∉ declared := fun hmem =>
      (List.nodup_append.mp hdistinct).2.2 _ hmem _ (by simp) rfl
    have hcomma : (Lexeme.comma.wordAt (start + name.val.toList.length)).kind = .comma := rfl
    rw [contentFrom_identifier, contentFrom_comma, contentFrom_space, List.cons_append, List.cons_append,
      inputNames_cons rfl hnew, if_pos hcomma, ih (by simp) (by simpa using hdistinct)]
    rfl

def declarationLexemes (names : List Identifier) : List Lexeme :=
  .identifier "input" (by decide) :: .space :: (nameLexemes names ++ [.newline])

theorem text_declarationLexemes (names : List Identifier) :
    (declarationLexemes names).flatMap Lexeme.text =
      "input ".toList ++ joinNames (names.map Subtype.val) ++ ['\n'] := by
  simp [declarationLexemes, text_nameLexemes]

theorem exists_content_nameLexemes {names : List Identifier} (hne : names ≠ [])
    (start : Nat) : ∃ word words, contentFrom start (nameLexemes names) = word :: words ∧
      word.kind = .identifier := by
  fun_cases nameLexemes names with
  | case1 => exact (hne rfl).elim
  | case2 name => exact ⟨_, _, contentFrom_identifier .., rfl⟩
  | case3 name second names => exact ⟨_, _, contentFrom_identifier .., rfl⟩

theorem statements_declaration {names : List Identifier} (hne : names ≠ [])
    (hdistinct : (names.map Subtype.val).Nodup) {next : Word} (hnext : next.kind ≠ .comma)
    (start : Nat) (rest : List Word) :
    statements [] (contentFrom start (declarationLexemes names) ++ next :: rest) =
      (statements (names.map Subtype.val) (next :: rest)).map fun (more, error) =>
        (.inputs (names.map Subtype.val) :: more, error) := by
  have hnames := inputNames_listed hne (show ([] ++ names.map Subtype.val).Nodup from hdistinct) hnext
    (start + "input".toList.length + 1) rest
  obtain ⟨word, words, hwords, hkind⟩ := exists_content_nameLexemes hne
    (start + "input".toList.length + 1)
  simp only [declarationLexemes, contentFrom_identifier, contentFrom_space, contentFrom_append,
    contentFrom_newline, contentFrom_nil, List.append_nil, hwords, List.cons_append] at hnames ⊢
  have hread : statement [] (⟨.identifier, Span.between start (start + "input".toList.length), "input"⟩ ::
      word :: (words ++ next :: rest)) = .ok (.inputs (names.map Subtype.val), next :: rest) := by
    rw [statement, startsInputs_cons]
    simp [hkind, hnames]
  rw [statements_cons (by simp) hread, Statement.declares, List.nil_append]

def programLexemes (inputs : List Identifier)
    (insns : List WritableInstruction) : List Lexeme :=
  (if inputs.isEmpty then [] else declarationLexemes inputs) ++ insns.flatMap lineLexemes

section

variable (inputs : List Identifier)
  (insns : List WritableInstruction)

theorem text_lines :
    (insns.flatMap lineLexemes).flatMap Lexeme.text = linesChars (insns.map Subtype.val) := by
  induction insns with
  | nil => rfl
  | cons insn insns ih =>
    rw [List.flatMap_cons, List.flatMap_append, text_lineLexemes, ih, List.map_cons]
    rfl

theorem text_programLexemes : (programLexemes inputs insns).flatMap Lexeme.text =
    (⟨inputs.map Subtype.val, insns.map Subtype.val⟩ : Program).chars := by
  rw [programLexemes, List.flatMap_append, text_lines]
  cases inputs with
  | nil => rfl
  | cons name names =>
    rw [List.isEmpty_cons, if_neg Bool.false_ne_true, text_declarationLexemes]
    rfl

/-- A line starts with a name and ends with a blank. -/
theorem apart_line (insn : WritableInstruction) {kinds : List TokenKind}
    (h : (TokenKind.whitespace :: kinds).IsChain Apart) :
    (TokenKind.whitespace :: ((lineLexemes insn).map Lexeme.kind ++ kinds)).IsChain Apart := by
  simpa [lineLexemes, List.isChain_cons_cons, Apart] using h

theorem apart_lines :
    (TokenKind.whitespace :: (insns.flatMap lineLexemes).map Lexeme.kind).IsChain Apart := by
  induction insns with
  | nil => exact .singleton _
  | cons insn insns ih =>
    rw [List.flatMap_cons, List.map_append]
    exact apart_line insn ih

theorem apart_names {kinds : List TokenKind} (h : (TokenKind.whitespace :: kinds).IsChain Apart)
    (hne : inputs ≠ []) :
    (TokenKind.whitespace :: ((nameLexemes inputs).map Lexeme.kind ++ .whitespace :: kinds)).IsChain
      Apart := by
  fun_induction nameLexemes inputs with
  | case1 => exact (hne rfl).elim
  | case2 name => simpa [List.isChain_cons_cons, Apart] using h
  | case3 name next names ih =>
    have hmore := ih (by simp)
    simpa [List.isChain_cons_cons, Apart] using hmore

theorem cut_program : Cut (⟨inputs.map Subtype.val, insns.map Subtype.val⟩ : Program).chars
    (programLexemes inputs insns) [] := by
  rw [← text_programLexemes]
  cases inputs with
  | nil => exact cut_of_apart (apart_lines insns)
  | cons name names =>
    have hnames := apart_names (name :: names) (apart_lines insns) (by simp)
    refine cut_of_apart (?_ : (TokenKind.whitespace :: _).IsChain Apart)
    simpa [programLexemes, declarationLexemes, List.isChain_cons_cons, Apart] using hnames

def heading (program : Program) : List Char :=
  if program.inputs.isEmpty then [] else "input ".toList ++ joinNames program.inputs ++ ['\n']

def writtenStatements (program : Program) : List Statement :=
  (if program.inputs.isEmpty then [] else [.inputs program.inputs]) ++
    (linesFrom program.heading.length program.instructions).map .ofInstruction

theorem exists_content_lines (start length : Nat) : ∃ word words,
    contentFrom start (insns.flatMap lineLexemes) ++ [endWord length] = word :: words ∧
      word.kind ≠ .comma := by
  cases insns with
  | nil => exact ⟨_, _, rfl, by simp [endWord]⟩
  | cons insn insns =>
    rw [List.flatMap_cons, lineLexemes, List.cons_append, contentFrom_identifier]
    exact ⟨_, _, rfl, by simp⟩

theorem statements_program (hdistinct : (inputs.map Subtype.val).Nodup) (length : Nat) :
    statements [] (contentFrom 0 (programLexemes inputs insns) ++ [endWord length]) =
      .ok (writtenStatements ⟨inputs.map Subtype.val, insns.map Subtype.val⟩, none) := by
  by_cases hempty : inputs = []
  · subst hempty
    exact statements_lines insns [] 0 length
  · have hlines := statements_lines insns (inputs.map Subtype.val)
      (0 + ((declarationLexemes inputs).flatMap Lexeme.text).length) length
    obtain ⟨word, words, hwords, hcomma⟩ := exists_content_lines insns
      (0 + ((declarationLexemes inputs).flatMap Lexeme.text).length) length
    rw [hwords] at hlines
    rw [programLexemes, if_neg (by simpa using hempty), contentFrom_append, List.append_assoc, hwords,
      statements_declaration hempty hdistinct hcomma, hlines, text_declarationLexemes]
    simp only [writtenStatements, heading, List.isEmpty_iff, List.map_eq_nil_iff, if_neg hempty,
      Nat.zero_add]
    rfl

end

theorem map_fst_linesFrom (start : Nat) (insns : List Instruction) :
    (linesFrom start insns).map Prod.fst = insns := by
  induction insns generalizing start with
  | nil => rfl
  | cons insn insns ih => rw [linesFrom, List.map_cons, ih]

theorem instructions_writtenStatements (file : File) (program : Program) :
    (⟨file, writtenStatements program, none⟩ : Parsed).instructions =
      linesFrom program.heading.length program.instructions := by
  have hlines : ∀ located : List (Instruction × Span),
      (⟨file, located.map .ofInstruction, none⟩ : Parsed).instructions = located := by
    intro located
    simp [Parsed.instructions, List.filterMap_map, Function.comp_def, Statement.ofInstruction]
  rw [writtenStatements]
  by_cases hempty : program.inputs.isEmpty
  · rw [if_pos hempty, List.nil_append, hlines]
  · rw [if_neg hempty]
    exact hlines _

theorem program_writtenStatements (file : File) (program : Program) :
    (⟨file, writtenStatements program, none⟩ : Parsed).program = program := by
  have hlines : ∀ located : List (Instruction × Span),
      (located.map Statement.ofInstruction).flatMap Statement.declares = [] := by
    intro located
    induction located with
    | nil => rfl
    | cons head located ih => exact ih
  rw [Parsed.program, instructions_writtenStatements, map_fst_linesFrom]
  simp only [writtenStatements, List.flatMap_append, hlines, List.append_nil]
  obtain ⟨inputs, insns⟩ := program
  cases inputs with
  | nil => rfl
  | cons name names => simp [Statement.declares]

theorem lookup_zipIdx (located : List (Instruction × Span)) (first i : Nat) :
    ((located.zipIdx first).map fun entry => (entry.2, entry.1.2)).lookup (first + i) =
      located[i]?.map Prod.snd := by
  induction located generalizing first i with
  | nil => rfl
  | cons head located ih =>
    cases i with
    | zero => simp
    | succ i =>
      have hne : (first + (i + 1) == first) = false := by
        rw [beq_eq_false_iff_ne]
        omega
      have hrest := ih (first + 1) i
      rw [Nat.add_assoc, Nat.add_comm 1 i] at hrest
      rw [List.zipIdx_cons, List.map_cons, List.lookup_cons, hne, List.getElem?_cons_succ]
      exact hrest

/-- The span recorded for an instruction is the one it was read with. -/
theorem get_spans {parsed : Parsed} {i : Nat} {insn : Instruction} {span : Span}
    (h : parsed.instructions[i]? = some (insn, span)) : parsed.spans.get i = .ok span := by
  have hlookup := lookup_zipIdx parsed.instructions 0 i
  rw [Nat.zero_add, h] at hlookup
  simp only [SpanMap.get, SpanMap.get?, Parsed.spans, hlookup, Option.map_some]

/-- An instruction that was written in a text is found where it is said to be. -/
theorem text_of_linesFrom {file : File} {insns : List Instruction} (before after : List Char)
    (h : file.contents = before ++ linesChars insns ++ after) {i : Nat} {insn : Instruction}
    (hi : insns[i]? = some insn) :
    ∃ span, (linesFrom before.length insns)[i]? = some (insn, span) ∧
      file.text span = .ok insn.chars := by
  induction insns generalizing before i with
  | nil => cases hi
  | cons head insns ih =>
    rw [linesChars, List.flatMap_cons] at h
    cases i with
    | zero =>
      obtain rfl := Option.some.inj hi
      refine ⟨_, rfl, File.text_between before head.chars ('\n' :: (linesChars insns ++ after)) ?_⟩
      simpa [linesChars] using h
    | succ i =>
      have hmore := ih (before ++ head.chars ++ ['\n']) (by simpa [linesChars] using h) hi
      simpa [linesFrom, Nat.add_assoc] using hmore

/-- A program that can be read back is read back. -/
theorem parse_chars {program : Program} (h : program.Writable) (name : String) :
    parse ⟨name, program.chars⟩ = .ok ⟨⟨name, program.chars⟩, writtenStatements program, none⟩ := by
  obtain ⟨inputs, insns⟩ := program
  obtain ⟨hdistinct, hinputs, hinsns⟩ := h
  lift inputs to List Identifier using hinputs
  lift insns to List WritableInstruction using hinsns
  have hread : statements [] (wordsOf (programLexemes inputs insns)) =
      .ok (writtenStatements ⟨inputs.map Subtype.val, insns.map Subtype.val⟩, none) :=
    statements_program inputs insns hdistinct _
  rw [(parse_of_cut (cut_program inputs insns)).2 rfl, hread]
  rfl

theorem writable_ofClauses {clauses : List Clause} {symbols : List Symbol} (h : Derives clauses symbols)
    (hproper : ∀ symbol ∈ symbols, symbol.Proper) : (ofClauses clauses).Writable := by
  obtain ⟨rfl, hdistinct⟩ := h
  have hclause : ∀ clause ∈ clauses, ∀ symbol ∈ clause.symbols, symbol.Proper :=
    fun clause hclause symbol hsymbol =>
      hproper symbol (List.mem_append_left _ (List.mem_flatMap.mpr ⟨clause, hclause, hsymbol⟩))
  refine ⟨hdistinct, fun name hname => ?_, fun insn hinsn => ?_⟩
  · obtain ⟨clause, hmem, hname⟩ := List.mem_flatMap.mp hname
    cases clause with
    | declaration names last =>
      refine hclause _ hmem (.name name) ?_
      rcases List.mem_append.mp hname with hname | hname
      · simp [Clause.symbols, Clause.listed, hname]
      · simp [Clause.symbols, List.mem_singleton.mp hname]
    | instruction => cases hname
  · obtain ⟨clause, hmem, hinsn⟩ := List.mem_filterMap.mp hinsn
    cases clause with
    | declaration => cases hinsn
    | instruction dst op lhs rhs =>
      obtain rfl := Option.some.inj hinsn
      exact {
        binary := op.property
        dst := hclause _ hmem (.name dst) (by simp [Clause.symbols])
        lhs := hclause _ hmem (.name lhs) (by simp [Clause.symbols])
        rhs := hclause _ hmem (.name rhs) (by simp [Clause.symbols]) }

theorem writable_of_parse {file : File} {parsed : Parsed} (h : parse file = .ok parsed)
    (herror : parsed.error = none) : parsed.program.Writable := by
  obtain ⟨lexemes, rest, hcut⟩ := exists_cut file.contents
  obtain ⟨hleft, hall⟩ := parse_of_cut hcut
  by_cases hrest : rest = []
  · obtain ⟨read, error, hread, hnone, hderived, -⟩ :=
      statements_accept (closed_wordsOf lexemes) fun _ => proper_wordsOf
    rw [hall hrest, hread] at h
    obtain rfl := Except.ok.inj h
    obtain ⟨hproper, clauses, hclauses⟩ := hnone.mp herror
    have hprogram : (⟨file, read, error⟩ : Parsed).program = ofClauses clauses :=
      program_eq_ofClauses (hderived clauses hclauses) error
    exact hprogram ▸ writable_ofClauses hclauses hproper
  · rw [hleft hrest] at h
    obtain rfl := Except.ok.inj h
    cases herror

/-- Writing a program out and reading it are inverse to each other.  A program with identifiers for names,
binary operations and distinct inputs is read back from the bytes of its text without error, and the span
recorded for an instruction has the text of the instruction.  So every program that was read without error is
read again from its own text. -/
theorem parse_render (name : String) :
    (∀ program : Program, program.Writable → ∃ parsed,
      parse ⟨name, Text.decode (Text.encode program.render.toList)⟩ = .ok parsed ∧
        parsed.error = none ∧ parsed.program = program ∧
        ∀ i insn, program.instructions[i]? = some insn → ∃ span,
          parsed.spans.get i = .ok span ∧ parsed.spans.file.text span = .ok insn.chars) ∧
    ∀ file parsed, parse file = .ok parsed → parsed.error = none → ∃ again,
      parse ⟨name, Text.decode (Text.encode parsed.program.render.toList)⟩ = .ok again ∧
        again.error = none ∧ again.program = parsed.program := by
  have htext : ∀ program : Program, Text.decode (Text.encode program.render.toList) = program.chars := by
    intro program
    rw [Text.decode_encode, render, String.toList_ofList]
  refine ⟨fun program h => ?_, fun file parsed hparse herror => ?_⟩
  · rw [htext]
    refine ⟨_, parse_chars h name, rfl, program_writtenStatements _ program, fun i insn hi => ?_⟩
    have hchars : (⟨name, program.chars⟩ : File).contents = program.heading ++ linesChars program.instructions ++ [] :=
      (List.append_nil _).symm
    obtain ⟨span, hspan, htext⟩ := text_of_linesFrom program.heading [] hchars hi
    exact ⟨span, get_spans (by rwa [instructions_writtenStatements]), htext⟩
  · rw [htext]
    exact ⟨_, parse_chars (writable_of_parse hparse herror) name, rfl, program_writtenStatements _ _⟩

/-- Inputs `input` and `add`, an instruction that defines `input` again and one that defines `ref`. -/
def namesAsKeywords : Program where
  inputs := ["input", "add"]
  instructions := [⟨.sub, "input", "add", "input"⟩, ⟨.add, "ref", "input", "input'"⟩]

theorem parse_render_namesAsKeywords : ∃ parsed again,
    parse ⟨"", Text.decode (Text.encode namesAsKeywords.render.toList)⟩ = .ok parsed ∧
      parsed.error = none ∧ parsed.program = namesAsKeywords ∧
      (∃ span, parsed.spans.get 1 = .ok span ∧
        parsed.spans.file.text span = .ok "ref = add input, input'".toList) ∧
      parse ⟨"", Text.decode (Text.encode parsed.program.render.toList)⟩ = .ok again ∧
      again.error = none ∧ again.program = parsed.program := by
  have hwritable : namesAsKeywords.Writable := by
    refine ⟨by decide, by decide, ?_⟩
    simp only [namesAsKeywords, List.forall_mem_cons]
    exact ⟨⟨rfl, by decide, by decide, by decide⟩, ⟨rfl, by decide, by decide, by decide⟩, by simp⟩
  obtain ⟨parsed, hparse, herror, hprogram, hspans⟩ := (parse_render "").1 namesAsKeywords hwritable
  obtain ⟨again, hagain⟩ := (parse_render "").2 _ parsed hparse herror
  exact ⟨parsed, again, hparse, herror, hprogram, hspans 1 _ rfl, hagain⟩

end Program
end TileSelect
