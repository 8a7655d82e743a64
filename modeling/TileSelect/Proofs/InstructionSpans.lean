import TileSelect.Proofs.ProgramPrinting

/-! # Instructions in their place

The characters at the span of an instruction are a program text of their own, with this instruction in it and
nothing else.  The words of an instruction follow each other in the text, and a stretch that is taken out of a
text is cut into lexemes as it was: with less text after it, the longest lexeme at a place stays the longest. -/
namespace TileSelect.Program

structure Phrase where
  dst : Word
  equals : Word
  mnemonic : Word
  lhs : Word
  comma : Word
  rhs : Word
  op : Operation
  dst_kind : dst.kind = .identifier
  equals_kind : equals.kind = .equals
  mnemonic_kind : mnemonic.kind = .identifier
  mnemonic_text : mnemonic.text = op.val.mnemonic
  lhs_kind : lhs.kind = .identifier
  comma_kind : comma.kind = .comma
  rhs_kind : rhs.kind = .identifier

namespace Phrase

def words (p : Phrase) : List Word := [p.dst, p.equals, p.mnemonic, p.lhs, p.comma, p.rhs]

def instruction (p : Phrase) : Instruction := ⟨p.op, p.dst.text, p.lhs.text, p.rhs.text⟩

def span (p : Phrase) : Span := ⟨p.dst.span.start, p.rhs.span.stop⟩

end Phrase

theorem expect_eq_ok_iff {kind : TokenKind} {words rest : List Word} {word : Word} :
    expect kind words = .ok (word, rest) ↔ words = word :: rest ∧ word.kind = kind := by
  cases words with
  | nil => simp [expect, noWord]
  | cons head words =>
    by_cases hkind : head.kind = kind
    · rw [expect, if_pos hkind]
      constructor
      · intro h
        cases h
        exact ⟨rfl, hkind⟩
      · rintro ⟨h, -⟩
        cases h
        rfl
    · rw [expect, if_neg hkind]
      constructor
      · intro h
        cases h
      · rintro ⟨h, hword⟩
        cases h
        exact (hkind hword).elim

theorem spanOf_eq_ok_iff {first last : Word} {span : Span} :
    spanOf first last = .ok span ↔
      first.span.start ≤ last.span.stop ∧ span = ⟨first.span.start, last.span.stop⟩ := by
  rw [spanOf, Result.mapError_eq_ok_iff, Span.make_eq_ok_iff]

theorem operands_eq_ok {dst : Word} {op : Opcode} {words rest : List Word} {read : Instruction × Span}
    (h : operands dst op words = .ok (read, rest)) : ∃ lhs comma rhs,
    words = lhs :: comma :: rhs :: rest ∧ lhs.kind = .identifier ∧ comma.kind = .comma ∧
      rhs.kind = .identifier ∧
      read = (⟨op, dst.text, lhs.text, rhs.text⟩, ⟨dst.span.start, rhs.span.stop⟩) := by
  obtain ⟨⟨lhs, words'⟩, hlhs, h⟩ := Result.bind_eq_ok_iff.mp h
  obtain ⟨⟨comma, words''⟩, hcomma, h⟩ := Result.bind_eq_ok_iff.mp h
  obtain ⟨⟨rhs, words'''⟩, hrhs, h⟩ := Result.bind_eq_ok_iff.mp h
  obtain ⟨span, hspan, h⟩ := Result.bind_eq_ok_iff.mp h
  obtain ⟨rfl, hlhsKind⟩ := expect_eq_ok_iff.mp hlhs
  obtain ⟨rfl, hcommaKind⟩ := expect_eq_ok_iff.mp hcomma
  obtain ⟨rfl, hrhsKind⟩ := expect_eq_ok_iff.mp hrhs
  obtain ⟨-, rfl⟩ := spanOf_eq_ok_iff.mp hspan
  cases h
  exact ⟨lhs, comma, rhs, rfl, hlhsKind, hcommaKind, hrhsKind, rfl⟩

theorem exists_phrase_of_instruction {words rest : List Word} {read : Instruction × Span}
    (h : instruction words = .ok (read, rest)) :
    ∃ p : Phrase, words = p.words ++ rest ∧ read = (p.instruction, p.span) := by
  obtain ⟨⟨dst, words'⟩, hdst, h⟩ := Result.bind_eq_ok_iff.mp h
  obtain ⟨⟨equals, words''⟩, hequals, hcomputation⟩ := Result.bind_eq_ok_iff.mp h
  obtain ⟨⟨mnemonic, words'''⟩, hmnemonic, -⟩ := Result.bind_eq_ok_iff.mp hcomputation
  obtain ⟨rfl, hdstKind⟩ := expect_eq_ok_iff.mp hdst
  obtain ⟨rfl, hequalsKind⟩ := expect_eq_ok_iff.mp hequals
  obtain ⟨rfl, hmnemonicKind⟩ := expect_eq_ok_iff.mp hmnemonic
  have hoperands : computation dst (mnemonic :: words''') = .ok (read, rest) := hcomputation
  rw [computation_cons dst hmnemonicKind] at hoperands
  cases hop : Operation.ofName? mnemonic.text with
  | none =>
    rw [hop] at hoperands
    cases hoperands
  | some op =>
    rw [hop] at hoperands
    obtain ⟨lhs, comma, rhs, rfl, hlhs, hcomma, hrhs, rfl⟩ := operands_eq_ok hoperands
    have hname := Operation.ofName?_eq_some_iff.mp hop
    exact ⟨⟨dst, equals, mnemonic, lhs, comma, rhs, op, hdstKind, hequalsKind, hmnemonicKind, hname, hlhs,
      hcomma, hrhs⟩, rfl, rfl⟩

/-- The words that give the names of a declaration. -/
theorem inputNames_eq_ok {declared names : List String} {words rest : List Word}
    (h : inputNames declared words = .ok (names, rest)) : ∃ taken more last,
    words = taken ++ rest ∧ names = more ++ [last] ∧
      taken.map Word.symbol = Clause.listed more ++ [.name last] := by
  fun_induction inputNames declared words generalizing names rest with
  | case1 => cases h
  | case2 => cases h
  | case3 => cases h
  | case4 => cases h
  | case5 declared word hkind hnew separator tail hcomma ih =>
    obtain ⟨⟨found, rest'⟩, hfound, hrest⟩ := Result.bind_eq_ok_iff.mp h
    cases hrest
    obtain ⟨taken, more, last, rfl, rfl, hsymbols⟩ := ih hfound
    refine ⟨word :: separator :: taken, word.text :: more, last, rfl, rfl, ?_⟩
    rw [List.map_cons, List.map_cons, hsymbols, symbol_of_identifier (not_not.mp hkind),
      symbol_of_comma hcomma]
    rfl
  | case6 declared word hkind hnew separator tail hcomma =>
    cases h
    refine ⟨[word], [], word.text, rfl, rfl, ?_⟩
    rw [List.map_singleton, symbol_of_identifier (not_not.mp hkind)]
    rfl

theorem startsInputs_eq_ok_true {words : List Word} (h : startsInputs words = .ok true) :
    ∃ word rest, words = word :: rest ∧ word.symbol = .name "input" := by
  match words with
  | [] => cases h
  | [word] =>
    simp only [startsInputs] at h
    split at h <;> cases h
  | word :: next :: rest =>
    rw [startsInputs_cons] at h
    simp only [Except.ok.injEq, Bool.and_eq_true, decide_eq_true_eq] at h
    refine ⟨word, next :: rest, rfl, ?_⟩
    rw [symbol_of_identifier h.1.1, h.1.2]

/-- A statement is the words of an instruction, or of a declaration of inputs. -/
theorem statement_eq_ok {declared : List String} {words rest : List Word} {read : Statement}
    (h : statement declared words = .ok (read, rest)) :
    (∃ names last taken, read = .inputs (names ++ [last]) ∧ words = taken ++ rest ∧
        taken.map Word.symbol = (Clause.declaration names last).symbols) ∨
      ∃ p : Phrase, words = p.words ++ rest ∧ read = .instruction p.instruction p.span := by
  obtain ⟨starts, hstarts, h⟩ := Result.bind_eq_ok_iff.mp h
  cases starts with
  | true =>
    obtain ⟨⟨names, rest'⟩, hnames, h⟩ := Result.bind_eq_ok_iff.mp h
    cases h
    obtain ⟨keyword, words, rfl, hkeyword⟩ := startsInputs_eq_ok_true hstarts
    obtain ⟨taken, more, last, hwords, rfl, hsymbols⟩ := inputNames_eq_ok hnames
    refine .inl ⟨more, last, keyword :: taken, rfl, congrArg (keyword :: ·) hwords, ?_⟩
    rw [List.map_cons, hkeyword, hsymbols, Clause.symbols]
  | false =>
    obtain ⟨⟨⟨insn, span⟩, rest'⟩, hinsn, h⟩ := Result.bind_eq_ok_iff.mp h
    cases h
    obtain ⟨p, hwords, hread⟩ := exists_phrase_of_instruction hinsn
    cases hread
    exact .inr ⟨p, hwords, rfl⟩

/-- The words are those of the statements one after another. -/
inductive Spoken : List Statement → List Word → Prop
  | nil : Spoken [] []
  | inputs {names : List String} {last : String} {taken : List Word}
      (htaken : taken.map Word.symbol = (Clause.declaration names last).symbols)
      {statements : List Statement} {words : List Word} (more : Spoken statements words) :
      Spoken (.inputs (names ++ [last]) :: statements) (taken ++ words)
  | instruction (p : Phrase) {statements : List Statement} {words : List Word}
      (more : Spoken statements words) :
      Spoken (.instruction p.instruction p.span :: statements) (p.words ++ words)

/-- Statements are read up to the end of the file, or up to one that is refused. -/
theorem exists_spoken_of_statements {declared : List String} {words : List Word} {read : List Statement}
    {error : Option (Located ParseError)} (h : statements declared words = .ok (read, error)) :
    ∃ taken rest, words = taken ++ rest ∧ Spoken read taken ∧
      ∀ e, error = some e → ∃ declared, statement declared rest = .error (.malformed e) := by
  fun_induction statements declared words generalizing read error with
  | case1 => cases h
  | case2 declared word words hend =>
    cases h
    refine ⟨[], word :: words, rfl, .nil, fun e he => ?_⟩
    cases he
  | case3 => cases h
  | case4 declared word words hend error hread =>
    cases h
    refine ⟨[], word :: words, rfl, .nil, ?_⟩
    rintro _ ⟨⟩
    exact ⟨declared, hread⟩
  | case5 declared word words hend first rest hread ih =>
    obtain ⟨⟨more, error'⟩, hmore, h⟩ := Result.bind_eq_ok_iff.mp h
    cases h
    obtain ⟨taken, rest', hrest, hspoken, herror⟩ := ih hmore
    rcases statement_eq_ok hread with ⟨names, last, front, rfl, hwords, hfront⟩ | ⟨p, hwords, rfl⟩
    · refine ⟨front ++ taken, rest', ?_, .inputs hfront hspoken, herror⟩
      rw [hwords, hrest, List.append_assoc]
    · refine ⟨p.words ++ taken, rest', ?_, .instruction p hspoken, herror⟩
      rw [hwords, hrest, List.append_assoc]

def Statement.located? : Statement → Option (Instruction × Span)
  | .inputs _ => none
  | .instruction insn span => some (insn, span)

theorem instructions_eq_filterMap (parsed : Parsed) :
    parsed.instructions = parsed.statements.filterMap Statement.located? := by
  rw [Parsed.instructions]
  congr 1

theorem Spoken.exists_phrase {statements : List Statement} {words : List Word}
    (h : Spoken statements words) {located : Instruction × Span}
    (hmem : located ∈ statements.filterMap Statement.located?) :
    ∃ p : Phrase, p.words <:+: words ∧ located = (p.instruction, p.span) := by
  induction h with
  | nil => cases hmem
  | inputs htaken _ ih =>
    obtain ⟨p, hwords, hlocated⟩ := ih hmem
    exact ⟨p, hwords.trans (List.suffix_append _ _).isInfix, hlocated⟩
  | instruction p _ ih =>
    rcases List.mem_cons.mp hmem with rfl | hmem
    · exact ⟨p, (List.prefix_append _ _).isInfix, rfl⟩
    · obtain ⟨q, hwords, hlocated⟩ := ih hmem
      exact ⟨q, hwords.trans (List.suffix_append _ _).isInfix, hlocated⟩

theorem contentFrom_cons (start : Nat) (lexeme : Lexeme) (lexemes : List Lexeme) :
    contentFrom start (lexeme :: lexemes) =
      (if lexeme.kind.isTrivia then [] else [lexeme.wordAt start]) ++
        contentFrom (start + lexeme.text.length) lexemes := by
  cases hkind : lexeme.kind.isTrivia <;> simp [contentFrom, wordsFrom, Lexeme.wordAt, hkind]

/-- A word is that of a lexeme, and the words around it are those of the lexemes around this one. -/
theorem contentFrom_eq_append {start : Nat} {lexemes : List Lexeme} {word : Word}
    {before after : List Word} (h : contentFrom start lexemes = before ++ word :: after) :
    ∃ front lexeme back, lexemes = front ++ lexeme :: back ∧ contentFrom start front = before ∧
      word = lexeme.wordAt (start + (front.flatMap Lexeme.text).length) ∧
      contentFrom (start + (front.flatMap Lexeme.text).length + lexeme.text.length) back = after := by
  induction lexemes generalizing start before with
  | nil => cases before <;> cases h
  | cons first lexemes ih =>
    rw [contentFrom_cons] at h
    -- where the word is not that of the first lexeme, it is found among the others
    have hlater : ∀ before', contentFrom (start + first.text.length) lexemes = before' ++ word :: after →
        ∃ front lexeme back, first :: lexemes = (first :: front) ++ lexeme :: back ∧
          contentFrom (start + first.text.length) front = before' ∧
          word = lexeme.wordAt (start + ((first :: front).flatMap Lexeme.text).length) ∧
          contentFrom (start + ((first :: front).flatMap Lexeme.text).length + lexeme.text.length) back =
            after := by
      intro before' hrest
      obtain ⟨front, lexeme, back, rfl, hfront, hword, hback⟩ := ih hrest
      rw [Nat.add_assoc start, ← List.length_append, ← List.flatMap_cons] at hword hback
      exact ⟨front, lexeme, back, rfl, hfront, hword, hback⟩
    cases hkind : first.kind.isTrivia with
    | true =>
      rw [hkind, if_pos rfl] at h
      obtain ⟨front, lexeme, back, hlexemes, hfront, hword, hback⟩ := hlater before h
      refine ⟨first :: front, lexeme, back, hlexemes, ?_, hword, hback⟩
      rw [contentFrom_cons, hkind, if_pos rfl]
      exact hfront
    | false =>
      rw [hkind, if_neg Bool.false_ne_true] at h
      cases before with
      | nil =>
        obtain ⟨hword, hafter⟩ := List.cons.inj h
        exact ⟨[], first, lexemes, rfl, rfl, hword.symm, hafter⟩
      | cons head before =>
        obtain ⟨hhead, hrest⟩ := List.cons.inj h
        obtain ⟨front, lexeme, back, hlexemes, hfront, hword, hback⟩ := hlater before hrest
        refine ⟨first :: front, lexeme, back, hlexemes, ?_, hword, hback⟩
        rw [contentFrom_cons, hkind, if_neg Bool.false_ne_true, hfront, ← hhead]
        rfl

/-- A word without its place. -/
def Word.spelling (word : Word) : TokenKind × String := (word.kind, word.text)

def solid (lexemes : List Lexeme) : List Lexeme := lexemes.filter (!·.kind.isTrivia)

/-- What words say does not depend on where they stand, nor on the trivia between them. -/
theorem spelling_contentFrom (start : Nat) (lexemes : List Lexeme) :
    (contentFrom start lexemes).map Word.spelling =
      (solid lexemes).map fun lexeme => (lexeme.kind, String.ofList lexeme.text) := by
  induction lexemes generalizing start with
  | nil => rfl
  | cons lexeme lexemes ih =>
    rw [contentFrom_cons, List.map_append, ih, solid, solid, List.filter_cons]
    cases lexeme.kind.isTrivia <;> rfl

theorem Phrase.exists_of_spelling (p : Phrase) {words : List Word}
    (h : words.map Word.spelling = p.words.map Word.spelling) :
    ∃ q : Phrase, words = q.words ∧ q.instruction = p.instruction := by
  obtain ⟨dst, words, rfl, hdst, h⟩ := List.map_eq_cons_iff.mp h
  obtain ⟨equals, words, rfl, hequals, h⟩ := List.map_eq_cons_iff.mp h
  obtain ⟨mnemonic, words, rfl, hmnemonic, h⟩ := List.map_eq_cons_iff.mp h
  obtain ⟨lhs, words, rfl, hlhs, h⟩ := List.map_eq_cons_iff.mp h
  obtain ⟨comma, words, rfl, hcomma, h⟩ := List.map_eq_cons_iff.mp h
  obtain ⟨rhs, rfl, hrhs⟩ := List.map_eq_singleton_iff.mp h
  simp only [Word.spelling, Prod.mk.injEq] at hdst hequals hmnemonic hlhs hcomma hrhs
  refine ⟨{
    dst := dst, equals := equals, mnemonic := mnemonic, lhs := lhs, comma := comma, rhs := rhs, op := p.op
    dst_kind := hdst.1.trans p.dst_kind
    equals_kind := hequals.1.trans p.equals_kind
    mnemonic_kind := hmnemonic.1.trans p.mnemonic_kind
    mnemonic_text := hmnemonic.2.trans p.mnemonic_text
    lhs_kind := hlhs.1.trans p.lhs_kind
    comma_kind := hcomma.1.trans p.comma_kind
    rhs_kind := hrhs.1.trans p.rhs_kind }, rfl, ?_⟩
  simp only [Phrase.instruction, hdst.2, hlhs.2, hrhs.2]

theorem Longest.of_append {lexeme : Lexeme} {cs more : List Char} (h : Longest lexeme (cs ++ more)) :
    Longest lexeme cs := by
  intro other hother
  refine h other ?_
  rw [← List.append_assoc]
  exact hother.trans (List.prefix_append _ _)

theorem Cut.drop {cs rest : List Char} {front lexemes : List Lexeme}
    (h : Cut cs (front ++ lexemes) rest) : Cut (lexemes.flatMap Lexeme.text ++ rest) lexemes rest := by
  induction front generalizing cs with
  | nil =>
    have hcs := h.eq_append
    rw [List.nil_append] at hcs h
    rwa [hcs] at h
  | cons first front ih =>
    cases h with
    | take _ _ more => exact ih more

theorem Cut.take_alone {cs rest : List Char} {lexemes back : List Lexeme}
    (h : Cut cs (lexemes ++ back) rest) : Cut (lexemes.flatMap Lexeme.text) lexemes [] := by
  induction lexemes generalizing cs with
  | nil => exact .stop fun lexeme hprefix => lexeme.text_ne_nil (List.prefix_nil.mp hprefix)
  | cons first lexemes ih =>
    cases h with
    | take _ longest more =>
      have hmore : Cut _ (lexemes ++ back) rest := more
      have hcs := hmore.eq_append
      rw [List.flatMap_append, List.append_assoc] at hcs
      rw [hcs] at longest
      rw [List.flatMap_cons]
      exact .take first longest.of_append (ih hmore)

theorem statements_phrase (p : Phrase) (hspan : p.dst.span.start ≤ p.rhs.span.stop) (length : Nat) :
    statements [] (p.words ++ [endWord length]) = .ok ([.instruction p.instruction p.span], none) := by
  have hend : p.dst.kind ≠ .endOfFile := by
    rw [p.dst_kind]
    decide
  have hread := statement_instruction p.dst_kind p.equals_kind p.mnemonic_kind p.mnemonic_text p.lhs_kind
    p.comma_kind p.rhs_kind hspan [] [endWord length]
  have hlast : statements [] [endWord length] = .ok ([], none) := by
    rw [statements]
    exact if_pos rfl
  have hwords : p.words ++ [endWord length] =
      p.dst :: p.equals :: p.mnemonic :: p.lhs :: p.comma :: p.rhs :: [endWord length] := rfl
  rw [hwords, statements_cons hend hread, Statement.declares, List.append_nil, hlast]
  rfl

/-- A text whose words are those of an instruction is read as this instruction alone. -/
theorem parse_of_phrase {name : String} {lexemes : List Lexeme}
    (hcut : Cut (lexemes.flatMap Lexeme.text) lexemes []) {p : Phrase} {start : Nat}
    (h : contentFrom start lexemes = p.words) : ∃ alone,
    parse ⟨name, lexemes.flatMap Lexeme.text⟩ = .ok alone ∧ alone.error = none ∧
      alone.program = ⟨[], [p.instruction]⟩ := by
  have hspelling := (spelling_contentFrom 0 lexemes).trans (spelling_contentFrom start lexemes).symm
  rw [h] at hspelling
  obtain ⟨q, hwords, hinsn⟩ := p.exists_of_spelling hspelling
  have hwordsOf : wordsOf lexemes = q.words ++ [endWord (lexemes.flatMap Lexeme.text).length] := by
    rw [← hwords]
    rfl
  have hclosed := closed_wordsOf lexemes
  rw [hwordsOf] at hclosed
  have hspan : q.dst.span.start ≤ q.rhs.span.stop := hclosed.1 q.rhs (by simp)
  have hparse : parse ⟨name, lexemes.flatMap Lexeme.text⟩ = _ := (parse_of_cut hcut).2 rfl
  rw [hwordsOf, statements_phrase q hspan] at hparse
  refine ⟨_, hparse, rfl, ?_⟩
  rw [← hinsn]
  rfl

/-- The words of an instruction are those of lexemes that follow each other, from the start of the first word to the
end of the last. -/
theorem lexemes_of_phrase {lexemes : List Lexeme} {before after : List Word} {p : Phrase}
    (h : wordsOf lexemes = before ++ p.words ++ after) : ∃ front inner back,
    lexemes = front ++ (inner ++ back) ∧
      contentFrom (front.flatMap Lexeme.text).length inner = p.words ∧
      p.span = Span.between (front.flatMap Lexeme.text).length
        ((front.flatMap Lexeme.text).length + (inner.flatMap Lexeme.text).length) := by
  -- the end of the file is behind the last word
  have hcontent : ∃ after', contentFrom 0 lexemes = before ++ p.words ++ after' := by
    rcases List.eq_nil_or_concat after with rfl | ⟨after', last, rfl⟩
    · have hlast := congrArg List.getLast? h
      simp only [wordsOf, List.getLast?_append, List.getLast?_singleton, Phrase.words] at hlast
      have hrhs : endWord (lexemes.flatMap Lexeme.text).length = p.rhs := by simpa using hlast
      have hkind := congrArg Word.kind hrhs
      rw [p.rhs_kind] at hkind
      cases hkind
    · rw [List.concat_eq_append, ← List.append_assoc] at h
      exact ⟨after', (List.append_inj_left' h rfl)⟩
  obtain ⟨after', hcontent⟩ := hcontent
  have hdst : contentFrom 0 lexemes = before ++ p.dst ::
      ([p.equals, p.mnemonic, p.lhs, p.comma] ++ p.rhs :: after') := by
    rw [hcontent, Phrase.words]
    simp
  obtain ⟨front, first, behind, rfl, -, hfirst, hbehind⟩ := contentFrom_eq_append hdst
  obtain ⟨middle, last, back, rfl, hmiddle, hlast, -⟩ := contentFrom_eq_append hbehind
  have hkind : first.kind.isTrivia = false := by
    have hfirstKind : p.dst.kind = first.kind := by rw [hfirst]; rfl
    rw [← hfirstKind, p.dst_kind]
    rfl
  have hkind' : last.kind.isTrivia = false := by
    have hlastKind : p.rhs.kind = last.kind := by rw [hlast]; rfl
    rw [← hlastKind, p.rhs_kind]
    rfl
  rw [Nat.zero_add] at hfirst hmiddle hlast
  refine ⟨front, first :: (middle ++ [last]), back, by simp, ?_, ?_⟩
  · rw [contentFrom_cons, hkind, if_neg Bool.false_ne_true, contentFrom_append, hmiddle, contentFrom_cons,
      hkind', if_neg Bool.false_ne_true, ← hfirst, ← hlast]
    rfl
  · rw [Phrase.span, hfirst, hlast]
    simp only [Lexeme.wordAt, Span.between, List.flatMap_cons, List.flatMap_append, List.flatMap_nil,
      List.append_nil, List.length_append, Span.mk.injEq, true_and]
    omega

theorem statements_of_parse {file : File} {parsed : Parsed} {lexemes : List Lexeme}
    (hcut : Cut file.contents lexemes []) (h : parse file = .ok parsed) :
    parsed.file = file ∧ statements [] (wordsOf lexemes) = .ok (parsed.statements, parsed.error) := by
  rw [(parse_of_cut hcut).2 rfl] at h
  cases hread : statements [] (wordsOf lexemes) with
  | error fault =>
    rw [hread] at h
    cases h
  | ok read =>
    rw [hread] at h
    cases h
    exact ⟨rfl, rfl⟩

/-- The statements of a text are said by the first words of it; by none of them, if some of the text is left. -/
theorem parse_eq_ok {file : File} {parsed : Parsed} (h : parse file = .ok parsed) :
    parsed.file = file ∧ ∃ lexemes left taken rest, Cut file.contents lexemes left ∧
      wordsOf lexemes = taken ++ rest ∧ Spoken parsed.statements taken := by
  obtain ⟨lexemes, left, hcut⟩ := exists_cut file.contents
  by_cases hleft : left = []
  · subst hleft
    obtain ⟨hfile, hread⟩ := statements_of_parse hcut h
    obtain ⟨taken, rest, hwords, hspoken, -⟩ := exists_spoken_of_statements hread
    exact ⟨hfile, lexemes, [], taken, rest, hcut, hwords, hspoken⟩
  · rw [(parse_of_cut hcut).1 hleft] at h
    cases h
    exact ⟨rfl, lexemes, left, [], wordsOf lexemes, hcut, rfl, .nil⟩

theorem get?_spans (parsed : Parsed) (i : Nat) :
    parsed.spans.get? i = parsed.instructions[i]?.map Prod.snd := by
  have hlookup := lookup_zipIdx parsed.instructions 0 i
  rwa [Nat.zero_add] at hlookup

theorem exists_span {parsed : Parsed} {i : Nat} {insn : Instruction}
    (h : parsed.program.instructions[i]? = some insn) :
    ∃ span, parsed.instructions[i]? = some (insn, span) := by
  rw [Parsed.program, List.getElem?_map, Option.map_eq_some_iff] at h
  obtain ⟨⟨insn, span⟩, hread, rfl⟩ := h
  exact ⟨span, hread⟩

/-- The text at the span of an instruction is read as this instruction alone, also where the text around it has an
error further on. -/
theorem exists_parse_span {file : File} {parsed : Parsed} (h : parse file = .ok parsed)
    {insn : Instruction} {span : Span} (hmem : (insn, span) ∈ parsed.instructions) (name : String) :
    ∃ text alone, file.text span = .ok text ∧ parse ⟨name, text⟩ = .ok alone ∧ alone.error = none ∧
      alone.program = ⟨[], [insn]⟩ := by
  rw [instructions_eq_filterMap] at hmem
  obtain ⟨-, lexemes, left, taken, rest, hcut, htaken, hspoken⟩ := parse_eq_ok h
  obtain ⟨p, ⟨before, after, hp⟩, hlocated⟩ := hspoken.exists_phrase hmem
  cases hlocated
  have hwords : wordsOf lexemes = before ++ p.words ++ (after ++ rest) := by
    rw [htaken, ← hp, List.append_assoc]
  obtain ⟨front, inner, back, rfl, hinner, hspan⟩ := lexemes_of_phrase hwords
  obtain ⟨alone, hparse, herror, hprogram⟩ := parse_of_phrase hcut.drop.take_alone hinner
  refine ⟨inner.flatMap Lexeme.text, alone, ?_, hparse, herror, hprogram⟩
  have hcontents : file.contents = front.flatMap Lexeme.text ++ inner.flatMap Lexeme.text ++
      (back.flatMap Lexeme.text ++ left) := by
    simpa using hcut.eq_append
  rw [hspan]
  exact File.text_between _ _ _ hcontents

end TileSelect.Program
