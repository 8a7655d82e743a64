import TileSelect.Proofs.InstructionSpans

/-! # Statements in their place

The words of a text are statements one after another, and reading goes on to the end of them or to a statement that
breaks off.  What was read is then what the statements before it say, and their spans stand before the word where it
breaks off. -/
namespace TileSelect.Program

theorem within_wordsFrom {start : Nat} {lexemes : List Lexeme} {word : Word}
    (h : word ∈ wordsFrom start lexemes) : start ≤ word.span.start ∧ word.span.start < word.span.stop ∧
      word.span.stop ≤ (start + (lexemes.flatMap Lexeme.text).length : Nat) := by
  induction lexemes generalizing start with
  | nil => cases h
  | cons lexeme lexemes ih =>
    have hpos := List.length_pos_iff.mpr lexeme.text_ne_nil
    rw [List.flatMap_cons, List.length_append]
    rcases List.mem_cons.mp h with rfl | h
    · simp only [Lexeme.wordAt, Span.between]
      omega
    · have hword := ih h
      omega

def Word.Before (first second : Word) : Prop := first.span.stop ≤ second.span.start

theorem pairwise_wordsFrom (start : Nat) (lexemes : List Lexeme) :
    (wordsFrom start lexemes).Pairwise Word.Before := by
  induction lexemes generalizing start with
  | nil => exact .nil
  | cons lexeme lexemes ih =>
    refine List.pairwise_cons.mpr ⟨fun word hword => ?_, ih _⟩
    exact (within_wordsFrom hword).1

theorem pairwise_wordsOf (lexemes : List Lexeme) : (wordsOf lexemes).Pairwise Word.Before := by
  refine List.pairwise_append.mpr ⟨(pairwise_wordsFrom 0 lexemes).filter _, List.pairwise_singleton _ _, ?_⟩
  intro word hword last hlast
  obtain rfl := List.mem_singleton.mp hlast
  have hwithin := (within_wordsFrom (List.mem_of_mem_filter hword)).2.2
  rwa [Nat.zero_add] at hwithin

theorem start_lt_stop {lexemes : List Lexeme} {word : Word} (h : word ∈ wordsOf lexemes)
    (hkind : word.kind ≠ .endOfFile) : word.span.start < word.span.stop := by
  rcases List.mem_append.mp h with h | h
  · exact (within_wordsFrom (List.mem_of_mem_filter h)).2.1
  · rw [List.mem_singleton.mp h] at hkind
    exact (hkind rfl).elim

/-- The symbols are the start of a clause, but no whole one. -/
def Incomplete (symbols : List Symbol) : Prop :=
  (∃ clause : Clause, symbols <+: clause.symbols) ∧ ∀ clause : Clause, symbols ≠ clause.symbols

/-- After a declaration that ends, there is no comma. -/
def Uncontinued (symbols : List Symbol) : Prop := symbols.head? ≠ some .comma

theorem Clause.listed_cons (name : String) (names : List String) :
    listed (name :: names) = .name name :: .comma :: listed names := rfl

theorem Clause.exists_name (names : List String) (last : String) :
    ∃ name rest, listed names ++ [.name last] = .name name :: rest := by
  cases names with
  | nil => exact ⟨last, [], rfl⟩
  | cons name names => exact ⟨name, _, rfl⟩

theorem Clause.exists_head (clause : Clause) : ∃ name rest, clause.symbols = .name name :: rest := by
  cases clause with
  | declaration names last => exact ⟨_, _, rfl⟩
  | instruction dst op lhs rhs => exact ⟨_, _, rfl⟩

theorem Incomplete.uncontinued {symbols : List Symbol} (h : Incomplete symbols) :
    Uncontinued symbols := by
  obtain ⟨⟨clause, rest, hsymbols⟩, -⟩ := h
  obtain ⟨name, more, hhead⟩ := clause.exists_head
  cases symbols with
  | nil => exact nofun
  | cons symbol symbols =>
    rw [hhead, List.cons_append, List.cons.injEq] at hsymbols
    simp [Uncontinued, hsymbols.1]

theorem uncontinued_clauses (clauses : List Clause) {symbols : List Symbol} (h : Uncontinued symbols) :
    Uncontinued (clauses.flatMap Clause.symbols ++ symbols) := by
  cases clauses with
  | nil => exact h
  | cons clause clauses =>
    obtain ⟨name, rest, hhead⟩ := clause.exists_head
    simp [Uncontinued, hhead]

theorem listed_unique {names names' : List String} {last last' : String} {after after' : List Symbol}
    (h : Clause.listed names ++ .name last :: after = Clause.listed names' ++ .name last' :: after')
    (hafter : Uncontinued after) (hafter' : Uncontinued after') :
    names = names' ∧ last = last' ∧ after = after' := by
  -- where one list ends and the other goes on, a comma follows the last name of the first
  induction names generalizing names' with
  | nil =>
    cases names' with
    | nil => simpa [Clause.listed] using h
    | cons name names' =>
      obtain ⟨-, rfl⟩ := List.cons.inj h
      exact (hafter rfl).elim
  | cons name names ih =>
    cases names' with
    | nil =>
      obtain ⟨-, rfl⟩ := List.cons.inj h
      exact (hafter' rfl).elim
    | cons name' names' =>
      simp only [Clause.listed_cons, List.cons_append, List.cons.injEq, Symbol.name.injEq, true_and] at h
      obtain ⟨rfl, h⟩ := h
      obtain ⟨rfl, hlast⟩ := ih h
      exact ⟨rfl, hlast⟩

theorem mnemonic_injective {op op' : Operation} (h : op.val.mnemonic = op'.val.mnemonic) : op = op' := by
  have hop := Operation.ofName?_eq_some_iff.mpr h
  rw [Operation.ofName?_eq_some_iff.mpr rfl] at hop
  exact Option.some.inj hop

theorem declaration_ne_instruction {names : List String} {last dst : String} {after rest : List Symbol} :
    (Clause.declaration names last).symbols ++ after ≠ .name dst :: .equals :: rest := by
  obtain ⟨name, more, hname⟩ := Clause.exists_name names last
  intro h
  rw [Clause.symbols, hname] at h
  simp at h

theorem clause_unique {clause clause' : Clause} {after after' : List Symbol}
    (h : clause.symbols ++ after = clause'.symbols ++ after') (hafter : Uncontinued after)
    (hafter' : Uncontinued after') : clause = clause' ∧ after = after' := by
  match clause, clause' with
  | .declaration names last, .declaration names' last' =>
    simp only [Clause.symbols, List.cons_append, List.append_assoc, List.cons.injEq, true_and,
      List.nil_append] at h
    obtain ⟨rfl, rfl, rfl⟩ := listed_unique h hafter hafter'
    exact ⟨rfl, rfl⟩
  | .declaration names last, .instruction dst op lhs rhs => exact (declaration_ne_instruction h).elim
  | .instruction dst op lhs rhs, .declaration names last =>
    exact (declaration_ne_instruction h.symm).elim
  | .instruction dst op lhs rhs, .instruction dst' op' lhs' rhs' =>
    simp only [Clause.symbols, List.cons_append, List.nil_append, List.cons.injEq, Symbol.name.injEq,
      true_and] at h
    obtain ⟨rfl, hop, rfl, rfl, rfl⟩ := h
    exact ⟨by rw [mnemonic_injective hop], rfl⟩

theorem Incomplete.ne_append {symbols after : List Symbol} (h : Incomplete symbols)
    (hafter : Uncontinued after) (clause : Clause) : symbols ≠ clause.symbols ++ after := by
  rintro rfl
  obtain ⟨⟨whole, rest, hwhole⟩, hnone⟩ := h
  cases after with
  | nil => exact hnone clause (List.append_nil _)
  | cons symbol after =>
    -- the clause that the symbols start would be another one with something behind it
    have heq : clause.symbols ++ (symbol :: after ++ rest) = whole.symbols ++ [] := by
      rw [List.append_nil, ← hwhole, List.append_assoc]
    obtain ⟨-, hnil⟩ := clause_unique heq hafter nofun
    cases hnil

/-- Symbols are whole clauses and part of one in one way only. -/
theorem clauses_unique {clauses clauses' : List Clause} {pending pending' : List Symbol}
    (h : clauses.flatMap Clause.symbols ++ pending = clauses'.flatMap Clause.symbols ++ pending')
    (hpending : Incomplete pending) (hpending' : Incomplete pending') :
    clauses = clauses' ∧ pending = pending' := by
  induction clauses generalizing clauses' with
  | nil =>
    cases clauses' with
    | nil => exact ⟨rfl, h⟩
    | cons clause' clauses' =>
      rw [List.flatMap_cons, List.append_assoc] at h
      exact (hpending.ne_append (uncontinued_clauses clauses' hpending'.uncontinued) clause' h).elim
  | cons clause clauses ih =>
    cases clauses' with
    | nil =>
      rw [List.flatMap_cons, List.append_assoc] at h
      exact (hpending'.ne_append (uncontinued_clauses clauses hpending.uncontinued) clause h.symm).elim
    | cons clause' clauses' =>
      rw [List.flatMap_cons, List.flatMap_cons, List.append_assoc, List.append_assoc] at h
      obtain ⟨rfl, hrest⟩ := clause_unique h (uncontinued_clauses clauses hpending.uncontinued)
        (uncontinued_clauses clauses' hpending'.uncontinued)
      obtain ⟨rfl, rfl⟩ := ih hrest
      exact ⟨rfl, rfl⟩

/-- Is a statement begun or due, and not at its end? -/
def Pending.IsOpen : Pending → Prop
  | declared .. | finished => False
  | _ => True

theorem length_listed (names : List String) : (Clause.listed names).length = 2 * names.length := by
  induction names with
  | nil => rfl
  | cons name names ih =>
    simp only [Clause.listed_cons, List.length_cons, ih]
    omega

theorem listed_ne (names names' : List String) (last : String) :
    Clause.listed names ≠ Clause.listed names' ++ [.name last] := by
  intro h
  have hlength := congrArg List.length h
  rw [List.length_append, length_listed, length_listed, List.length_singleton] at hlength
  omega

theorem incomplete_of_prefix (dst : String) (op : Operation) (lhs rhs : String) {symbols : List Symbol}
    (h : symbols <+: (Clause.instruction dst op lhs rhs).symbols) (hlength : symbols.length < 6)
    (hdeclaration : ∀ names last, symbols ≠ (Clause.declaration names last).symbols) :
    Incomplete symbols := by
  refine ⟨⟨_, h⟩, fun clause hclause => ?_⟩
  cases clause with
  | declaration names last => exact hdeclaration names last hclause
  | instruction => simp [hclause, Clause.symbols] at hlength

theorem Pending.IsOpen.incomplete {pending : Pending} (h : pending.IsOpen) :
    Incomplete pending.symbols := by
  -- a declaration has two symbols or more, and its second one is no equals sign
  have hshort : ∀ {symbols : List Symbol}, symbols.length < 2 → ∀ names last,
      symbols ≠ (Clause.declaration names last).symbols := by
    rintro _ hlength names last rfl
    rw [Clause.symbols, List.length_cons, List.length_append, List.length_singleton] at hlength
    omega
  have hequals : ∀ {dst rest} names last,
      .name dst :: .equals :: rest ≠ (Clause.declaration names last).symbols := by
    intro dst rest names last heq
    have hsymbols := heq.symm
    rw [← List.append_nil (Clause.symbols _)] at hsymbols
    exact declaration_ne_instruction hsymbols
  let add : Operation := ⟨.add, rfl⟩
  cases pending with
  | nothing => exact incomplete_of_prefix "" add "" "" ⟨_, rfl⟩ (by decide) (hshort (by decide))
  | keyword => exact incomplete_of_prefix "input" add "" "" ⟨_, rfl⟩ (by decide) (hshort (by decide))
  | declaring names =>
    refine ⟨⟨.declaration names "", [.name ""], rfl⟩, fun clause hclause => ?_⟩
    cases clause with
    | declaration names' last => exact listed_ne names names' last (List.cons.inj hclause).2
    | instruction dst op lhs rhs =>
      have htail := (List.cons.inj hclause).2
      cases names with
      | nil => cases htail
      | cons name names => cases htail
  | declared names last => exact h.elim
  | destination dst =>
    exact incomplete_of_prefix dst add "" "" ⟨_, rfl⟩ (Nat.one_lt_succ_succ _) (hshort Nat.one_lt_two)
  | equation dst => exact incomplete_of_prefix dst add "" "" ⟨_, rfl⟩ (by simp [symbols]) hequals
  | operation dst op => exact incomplete_of_prefix dst op "" "" ⟨_, rfl⟩ (by simp [symbols]) hequals
  | operand dst op lhs => exact incomplete_of_prefix dst op lhs "" ⟨_, rfl⟩ (by simp [symbols]) hequals
  | separated dst op lhs => exact incomplete_of_prefix dst op lhs "" ⟨_, rfl⟩ (by simp [symbols]) hequals
  | finished => exact h.elim

/-- From this part of a statement on, the words break off at the word of the error. -/
def BreaksOff (pending : Pending) (words : List Word) (error : Located ParseError) : Prop :=
  ∃ taken word after, ∃ last : Pending, words = taken ++ word :: after ∧ error.span = word.span ∧
    last.IsOpen ∧ last.symbols = pending.symbols ++ taken.map Word.symbol

theorem BreaksOff.here (pending : Pending) (h : pending.IsOpen) (word : Word) (words : List Word)
    (cause : ParseError) : BreaksOff pending (word :: words) ⟨word.span, cause⟩ :=
  ⟨[], word, words, pending, rfl, rfl, h, (List.append_nil _).symm⟩

theorem BreaksOff.cons {pending : Pending} {word : Word} {words : List Word}
    {error : Located ParseError} (next : Pending) (h : BreaksOff next words error)
    (hnext : next.symbols = pending.symbols ++ [word.symbol]) : BreaksOff pending (word :: words) error := by
  obtain ⟨taken, refused, after, last, rfl, hspan, hopen, hlast⟩ := h
  refine ⟨word :: taken, refused, after, last, rfl, hspan, hopen, ?_⟩
  rw [hlast, hnext, List.map_cons, List.append_assoc, List.singleton_append]

/-- A word is expected where the statement is at this part: it breaks off here, or goes on. -/
theorem breaksOff_of_expect {α : Type} {kind : TokenKind} {words : List Word} {pending : Pending}
    {error : Located ParseError} {f : Word × List Word → Except Failure α} (hopen : pending.IsOpen)
    (h : expect kind words >>= f = .error (.malformed error))
    (hf : ∀ word rest, word.kind = kind → f (word, rest) = .error (.malformed error) →
      BreaksOff pending (word :: rest) error) : BreaksOff pending words error := by
  rcases Result.bind_eq_error_iff.mp h with hrefused | ⟨⟨word, rest⟩, hread, hlater⟩
  · cases words with
    | nil => cases hrefused
    | cons word words =>
      rw [expect] at hrefused
      split at hrefused
      · cases hrefused
      · cases hrefused
        exact .here pending hopen word words .unexpectedToken
  · obtain ⟨rfl, hkind⟩ := expect_eq_ok_iff.mp hread
    exact hf word rest hkind hlater

theorem spanOf_ne_malformed {first last : Word} {error : Located ParseError} :
    spanOf first last ≠ .error (.malformed error) := by
  rw [spanOf]
  cases Span.make first.span.start last.span.stop <;> simp [Except.mapError]

theorem breaksOff_of_operands {dst : Word} {op : Operation} {words : List Word}
    {error : Located ParseError} (h : operands dst op words = .error (.malformed error)) :
    BreaksOff (.operation dst.text op) words error := by
  refine breaksOff_of_expect trivial h fun lhs rest hlhs h => ?_
  refine .cons (.operand dst.text op lhs.text) ?_ (by rw [symbol_of_identifier hlhs]; rfl)
  refine breaksOff_of_expect trivial h fun comma rest hcomma h => ?_
  refine .cons (.separated dst.text op lhs.text) ?_ (by rw [symbol_of_comma hcomma]; rfl)
  refine breaksOff_of_expect trivial h fun rhs rest hrhs h => ?_
  rcases Result.bind_eq_error_iff.mp h with h | ⟨span, -, h⟩
  · exact (spanOf_ne_malformed h).elim
  · cases h

theorem breaksOff_of_computation {dst : Word} {words : List Word} {error : Located ParseError}
    (h : computation dst words = .error (.malformed error)) :
    BreaksOff (.equation dst.text) words error := by
  refine breaksOff_of_expect trivial h fun mnemonic rest hkind hrest => ?_
  have hcomputation : computation dst (mnemonic :: rest) = .error (.malformed error) := by
    rw [computation, expect, if_pos hkind]
    exact hrest
  rw [computation_cons dst hkind] at hcomputation
  cases hop : Operation.ofName? mnemonic.text with
  | none =>
    rw [hop] at hcomputation
    cases hcomputation
    exact .here (.equation dst.text) trivial mnemonic rest .unknownOperation
  | some op =>
    rw [hop] at hcomputation
    refine .cons (.operation dst.text op) (breaksOff_of_operands hcomputation) ?_
    rw [symbol_of_identifier hkind, Operation.ofName?_eq_some_iff.mp hop]
    rfl

theorem breaksOff_of_instruction {words : List Word} {error : Located ParseError}
    (h : instruction words = .error (.malformed error)) : BreaksOff .nothing words error := by
  refine breaksOff_of_expect trivial h fun dst rest hdst h => ?_
  refine .cons (.destination dst.text) ?_ (by rw [symbol_of_identifier hdst]; rfl)
  refine breaksOff_of_expect trivial h fun equals rest hequals h => ?_
  exact .cons (.equation dst.text) (breaksOff_of_computation h) (by rw [symbol_of_equals hequals]; rfl)

theorem breaksOff_of_inputNames {declared : List String} {words : List Word} {error : Located ParseError}
    (h : inputNames declared words = .error (.malformed error)) (names : List String) :
    BreaksOff (.declaring names) words error := by
  fun_induction inputNames declared words generalizing names with
  | case1 => cases h
  | case2 declared word words hkind =>
    cases h
    exact .here (.declaring names) trivial word words .unexpectedToken
  | case3 declared word words hkind hmem =>
    cases h
    exact .here (.declaring names) trivial word words .inputDeclared
  | case4 => cases h
  | case5 declared word hkind hnew separator rest hcomma ih =>
    rcases Result.bind_eq_error_iff.mp h with hmore | ⟨_, -, hnone⟩
    · refine .cons (.declared names word.text) (.cons _ (ih hmore (names ++ [word.text])) ?_) ?_
      · rw [symbol_of_comma hcomma]
        simp [Pending.symbols, Clause.symbols, Clause.listed]
      · rw [symbol_of_identifier (not_not.mp hkind)]
        simp [Pending.symbols, Clause.symbols]
    · cases hnone
  | case6 => cases h

theorem startsInputs_ne_malformed (words : List Word) {error : Located ParseError} :
    startsInputs words ≠ .error (.malformed error) := by
  intro h
  cases words with
  | nil => cases h
  | cons word words =>
    cases words with
    | nil =>
      simp only [startsInputs] at h
      split at h <;> cases h
    | cons next rest =>
      rw [startsInputs_cons] at h
      cases h

/-- A statement that is not read breaks off. -/
theorem breaksOff_of_statement {declared : List String} {words : List Word} {error : Located ParseError}
    (h : statement declared words = .error (.malformed error)) : BreaksOff .nothing words error := by
  rcases Result.bind_eq_error_iff.mp h with h | ⟨starts, hstarts, h⟩
  · exact (startsInputs_ne_malformed words h).elim
  · cases starts with
    | true =>
      rcases Result.bind_eq_error_iff.mp h with h | ⟨_, -, h⟩
      · obtain ⟨keyword, rest, rfl, hkeyword⟩ := startsInputs_eq_ok_true hstarts
        exact .cons (.declaring []) (breaksOff_of_inputNames h []) (by rw [hkeyword]; rfl)
      · cases h
    | false =>
      rcases Result.bind_eq_error_iff.mp h with h | ⟨_, -, h⟩
      · exact breaksOff_of_instruction h
      · cases h

theorem Phrase.map_symbol (p : Phrase) : p.words.map Word.symbol =
    (Clause.instruction p.dst.text p.op p.lhs.text p.rhs.text).symbols := by
  simp only [words, List.map_cons, List.map_nil, symbol_of_identifier p.dst_kind,
    symbol_of_equals p.equals_kind, symbol_of_identifier p.mnemonic_kind, p.mnemonic_text,
    symbol_of_identifier p.lhs_kind, symbol_of_comma p.comma_kind, symbol_of_identifier p.rhs_kind,
    Clause.symbols]

theorem Spoken.exists_clauses {statements : List Statement} {words : List Word}
    (h : Spoken statements words) : ∃ clauses, List.Forall₂ Says statements clauses ∧
      words.map Word.symbol = clauses.flatMap Clause.symbols := by
  induction h with
  | nil => exact ⟨[], .nil, rfl⟩
  | @inputs names last taken htaken _ _ _ ih =>
    obtain ⟨clauses, hsays, hwords⟩ := ih
    refine ⟨.declaration names last :: clauses, .cons (.inputs names last) hsays, ?_⟩
    rw [List.map_append, htaken, hwords, List.flatMap_cons]
  | instruction p _ ih =>
    obtain ⟨clauses, hsays, hwords⟩ := ih
    refine ⟨_ :: clauses, .cons (.instruction p.dst.text p.op p.lhs.text p.rhs.text p.span) hsays, ?_⟩
    rw [List.map_append, p.map_symbol, hwords, List.flatMap_cons]

theorem Phrase.dst_mem (p : Phrase) : p.dst ∈ p.words := by simp [words]

theorem Phrase.rhs_mem (p : Phrase) : p.rhs ∈ p.words := by simp [words]

/-- The span of an instruction ends before that of the next starts. -/
theorem Spoken.pairwise {statements : List Statement} {words : List Word} (h : Spoken statements words)
    (hwords : words.Pairwise Word.Before) : (statements.filterMap Statement.located?).Pairwise
      fun first second => first.2.stop ≤ second.2.start := by
  induction h with
  | nil => exact .nil
  | inputs htaken _ ih => exact ih (List.pairwise_append.mp hwords).2.1
  | instruction p more ih =>
    obtain ⟨-, hmore, hbefore⟩ := List.pairwise_append.mp hwords
    refine List.pairwise_cons.mpr ⟨fun located hlocated => ?_, ih hmore⟩
    obtain ⟨q, hq, rfl⟩ := more.exists_phrase hlocated
    exact hbefore p.rhs p.rhs_mem q.dst (hq.subset q.dst_mem)

theorem Phrase.start_lt_stop {p : Phrase} {lexemes : List Lexeme} (h : p.words.Sublist (wordsOf lexemes)) :
    p.span.start < p.span.stop := by
  have hdst := Program.start_lt_stop (h.subset p.dst_mem) (by rw [p.dst_kind]; decide)
  have hrhs := Program.start_lt_stop (h.subset p.rhs_mem) (by rw [p.rhs_kind]; decide)
  have hbefore : p.dst.span.stop ≤ p.rhs.span.start :=
    (List.pairwise_cons.mp ((pairwise_wordsOf lexemes).sublist h)).1 p.rhs (by simp)
  simp only [Phrase.span]
  omega

/-- Adds a statement to a program.  The span of an instruction is recorded under the number of those before it. -/
def Statement.addTo (read : Program × SpanMap Nat) : Statement → Except Fault (Program × SpanMap Nat)
  | .inputs names => .ok (⟨read.1.inputs ++ names, read.1.instructions⟩, read.2)
  | .instruction insn span => do
    let spans ← read.2.put read.1.instructions.length span
    .ok (⟨read.1.inputs, read.1.instructions ++ [insn]⟩, spans)

theorem keys_spans (parsed : Parsed) :
    parsed.spans.entries.map Prod.fst = List.range parsed.program.instructions.length := by
  have hlength : parsed.program.instructions.length = parsed.instructions.length := List.length_map _
  rw [Parsed.spans, List.map_map, hlength, List.range_eq_range']
  exact List.zipIdx_map_snd 0 parsed.instructions

theorem addTo_read (file : File) (read : List Statement) (error : Option (Located ParseError))
    (statement : Statement) :
    let parsed : Parsed := ⟨file, read, error⟩
    let more : Parsed := ⟨file, read ++ [statement], error⟩
    statement.addTo (parsed.program, parsed.spans) = .ok (more.program, more.spans) := by
  intro parsed more
  cases statement with
  | inputs names =>
    have hinstructions : more.instructions = parsed.instructions := by
      simp [more, parsed, Parsed.instructions, List.filterMap_append]
    simp [Statement.addTo, Parsed.program, Parsed.spans, hinstructions, more, parsed, Statement.declares]
  | instruction insn span =>
    have hinstructions : more.instructions = parsed.instructions ++ [(insn, span)] := by
      simp [more, parsed, Parsed.instructions, List.filterMap_append]
    have hnew : parsed.program.instructions.length ∉ parsed.spans.entries.map Prod.fst := by
      rw [keys_spans]
      exact List.not_mem_range_self
    rw [Statement.addTo, SpanMap.put_eq_ok hnew]
    simp [Parsed.program, Parsed.spans, hinstructions, more, parsed, Statement.declares, List.zipIdx_append]

/-- No span is refused. -/
theorem foldlM_addTo (file : File) (read : List Statement) (error : Option (Located ParseError)) :
    read.foldlM Statement.addTo (⟨[], []⟩, .empty file) =
      .ok ((⟨file, read, error⟩ : Parsed).program, (⟨file, read, error⟩ : Parsed).spans) := by
  induction read using List.reverseRecOn with
  | nil => rfl
  | append_singleton read statement ih =>
    rw [List.foldlM_append, ih, Result.ok_bind, List.foldlM_cons, addTo_read file read error]
    rfl

theorem get_spans_eq_ok_iff {parsed : Parsed} {i : Nat} {span : Span} :
    parsed.spans.get i = .ok span ↔ ∃ insn, parsed.instructions[i]? = some (insn, span) := by
  constructor
  · intro h
    rw [SpanMap.get, get?_spans] at h
    cases hread : parsed.instructions[i]? with
    | none =>
      rw [hread] at h
      cases h
    | some located =>
      rw [hread] at h
      cases h
      exact ⟨located.1, rfl⟩
  · rintro ⟨insn, hread⟩
    exact get_spans hread

theorem exists_parse (file : File) : ∃ parsed, parse file = .ok parsed := by
  obtain ⟨lexemes, rest, hcut⟩ := exists_cut file.contents
  obtain ⟨hleft, hall⟩ := parse_of_cut hcut
  by_cases hrest : rest = []
  · obtain ⟨read, error, hagrees, -⟩ := statements_agrees [] (closed_wordsOf lexemes)
    have hread : statements [] (wordsOf lexemes) = .ok (read, error) := hagrees
    refine ⟨⟨file, read, error⟩, ?_⟩
    rw [hall hrest, hread]
    rfl
  · exact ⟨_, hleft hrest⟩

theorem start_lt_stop_of_mem {file : File} {parsed : Parsed} (h : parse file = .ok parsed)
    {located : Instruction × Span} (hmem : located ∈ parsed.instructions) :
    located.2.start < located.2.stop := by
  rw [instructions_eq_filterMap] at hmem
  obtain ⟨-, lexemes, _, taken, rest, -, hwords, hspoken⟩ := parse_eq_ok h
  obtain ⟨p, hp, rfl⟩ := hspoken.exists_phrase hmem
  have hsublist : p.words.Sublist (wordsOf lexemes) := by
    rw [hwords]
    exact hp.sublist.trans (List.sublist_append_left _ _)
  exact Phrase.start_lt_stop hsublist

theorem pairwise_instructions {file : File} {parsed : Parsed} (h : parse file = .ok parsed) :
    parsed.instructions.Pairwise fun first second => first.2.stop ≤ second.2.start := by
  rw [instructions_eq_filterMap]
  obtain ⟨-, lexemes, _, taken, rest, -, hwords, hspoken⟩ := parse_eq_ok h
  have hpairwise := pairwise_wordsOf lexemes
  rw [hwords] at hpairwise
  exact hspoken.pairwise (List.pairwise_append.mp hpairwise).1

/-- The words before the one in error are whole clauses and part of one.  The statements read are those clauses, and
their spans end before the error. -/
theorem exists_clauses_of_error {lexemes : List Lexeme} {read : List Statement} {error : Located ParseError}
    (h : statements [] (wordsOf lexemes) = .ok (read, some error)) :
    ∃ before word after clauses pending, wordsOf lexemes = before ++ word :: after ∧
      error.span = word.span ∧ before.map Word.symbol = clauses.flatMap Clause.symbols ++ pending ∧
      Incomplete pending ∧ List.Forall₂ Says read clauses ∧
      ∀ located ∈ read.filterMap Statement.located?, located.2.stop ≤ error.span.start := by
  obtain ⟨taken, rest, hwords, hspoken, hrefused⟩ := exists_spoken_of_statements h
  obtain ⟨declared, hstatement⟩ := hrefused error rfl
  obtain ⟨begun, word, after, pending, rfl, hspan, hopen, hpending⟩ := breaksOff_of_statement hstatement
  obtain ⟨clauses, hsays, hclauses⟩ := hspoken.exists_clauses
  have hbegun : pending.symbols = begun.map Word.symbol := hpending
  refine ⟨taken ++ begun, word, after, clauses, pending.symbols, ?_, hspan, ?_, hopen.incomplete, hsays, ?_⟩
  · rw [hwords, List.append_assoc]
  · rw [List.map_append, hclauses, hbegun]
  · intro located hlocated
    obtain ⟨p, hp, rfl⟩ := hspoken.exists_phrase hlocated
    have hpairwise := pairwise_wordsOf lexemes
    rw [hwords] at hpairwise
    rw [hspan]
    exact (List.pairwise_append.mp hpairwise).2.2 p.rhs (hp.subset p.rhs_mem) word (by simp)

/-- Every text is read, and each instruction is recorded under its index.  The text at the span of an instruction is
this instruction and nothing else, no span is empty, and each ends before the next starts.  Nothing is read from a text
that is no concatenation of lexemes.  In any other text with an error, the words before the error are whole statements
and part of one, in one way only; the whole ones are what was read, and their spans end before the error. -/
theorem parse_spans_exact (file : File) (name : String) : ∃ parsed, parse file = .ok parsed ∧
    parsed.statements.foldlM Statement.addTo (⟨[], []⟩, .empty file) = .ok (parsed.program, parsed.spans) ∧
    parsed.spans.entries.map Prod.fst = List.range parsed.program.instructions.length ∧
    (∀ i insn, parsed.program.instructions[i]? = some insn → ∃ span text alone,
      parsed.spans.get i = .ok span ∧ span.start < span.stop ∧ file.text span = .ok text ∧
        parse ⟨name, text⟩ = .ok alone ∧ alone.error = none ∧ alone.program = ⟨[], [insn]⟩) ∧
    (∀ i j span span', i < j → parsed.spans.get i = .ok span → parsed.spans.get j = .ok span' →
      span.stop ≤ span'.start) ∧
    (¬ Lexable file.contents →
      parsed.error.isSome ∧ parsed.program = ⟨[], []⟩ ∧ parsed.spans.entries = []) ∧
    (Lexable file.contents → ∃ lexemes, Cut file.contents lexemes [] ∧ ∀ error, parsed.error = some error →
      ∃ before word after clauses pending, wordsOf lexemes = before ++ word :: after ∧
        error.span = word.span ∧ before.map Word.symbol = clauses.flatMap Clause.symbols ++ pending ∧
        Incomplete pending ∧ parsed.program = ofClauses clauses ∧
        (∀ clauses' pending', before.map Word.symbol = clauses'.flatMap Clause.symbols ++ pending' →
          Incomplete pending' → clauses' = clauses) ∧
        ∀ i span, parsed.spans.get i = .ok span → span.stop ≤ error.span.start) := by
  obtain ⟨parsed, hparse⟩ := exists_parse file
  obtain ⟨rfl, -⟩ := parse_eq_ok hparse
  obtain ⟨lexemes, rest, hcut⟩ := exists_cut parsed.file.contents
  refine ⟨parsed, hparse, foldlM_addTo _ _ parsed.error, keys_spans parsed, ?_, ?_, ?_, ?_⟩
  · intro i insn hinsn
    obtain ⟨span, hspan⟩ := exists_span hinsn
    have hmem := List.mem_of_getElem? hspan
    obtain ⟨text, alone, htext, halone⟩ := exists_parse_span hparse hmem name
    exact ⟨span, text, alone, get_spans hspan, start_lt_stop_of_mem hparse hmem, htext, halone⟩
  · intro i j span span' hlt hspan hspan'
    obtain ⟨first, hfirst⟩ := get_spans_eq_ok_iff.mp hspan
    obtain ⟨second, hsecond⟩ := get_spans_eq_ok_iff.mp hspan'
    obtain ⟨hi, hfirst⟩ := List.getElem?_eq_some_iff.mp hfirst
    obtain ⟨hj, hsecond⟩ := List.getElem?_eq_some_iff.mp hsecond
    have hbefore := List.pairwise_iff_getElem.mp (pairwise_instructions hparse) i j hi hj hlt
    rwa [hfirst, hsecond] at hbefore
  · intro hlexable
    have hrest : rest ≠ [] := fun hrest => hlexable (hcut.rest_eq_nil_iff.mp hrest)
    rw [(parse_of_cut hcut).1 hrest] at hparse
    rw [← Except.ok.inj hparse]
    exact ⟨rfl, rfl, rfl⟩
  · intro hlexable
    obtain rfl := hcut.rest_eq_nil_iff.mpr hlexable
    refine ⟨lexemes, hcut, fun error herror => ?_⟩
    have hread := (statements_of_parse hcut hparse).2
    rw [herror] at hread
    obtain ⟨before, word, after, clauses, pending, hwords, hspan, hbefore, hpending, hsays, hends⟩ :=
      exists_clauses_of_error hread
    refine ⟨before, word, after, clauses, pending, hwords, hspan, hbefore, hpending,
      program_eq_ofClauses hsays parsed.error, fun clauses' pending' hbefore' hpending' => ?_, ?_⟩
    · exact (clauses_unique (hbefore'.symm.trans hbefore) hpending' hpending).1
    · intro i span hget
      obtain ⟨insn, hinsn⟩ := get_spans_eq_ok_iff.mp hget
      have hmem := List.mem_of_getElem? hinsn
      rw [instructions_eq_filterMap] at hmem
      exact hends _ hmem

/-- A declaration with a name twice in it adds none, and leaves the instruction before it where it is. -/
theorem parse_spans_exact_nameTwice :
    let file : File := ⟨"", "t = add a, a input b, c, b".toList⟩
    ∃ parsed, parse file = .ok parsed ∧ parsed.program = ⟨[], [⟨.add, "t", "a", "a"⟩]⟩ ∧
      parsed.error = some ⟨⟨25, 26⟩, .inputDeclared⟩ ∧ ∃ span text alone, parsed.spans.get 0 = .ok span ∧
        span.stop ≤ 25 ∧ file.text span = .ok text ∧ parse ⟨"", text⟩ = .ok alone ∧
        alone.program = ⟨[], [⟨.add, "t", "a", "a"⟩]⟩ := by
  intro file
  have hread : (parse file).toOption.map (fun parsed => (parsed.program, parsed.error)) =
      some (⟨[], [⟨.add, "t", "a", "a"⟩]⟩, some ⟨⟨25, 26⟩, .inputDeclared⟩) := by
    decide +kernel
  obtain ⟨parsed, hparse, -, -, htexts, -, hnone, herror⟩ := parse_spans_exact file ""
  rw [hparse] at hread
  obtain ⟨hprogram, hfailed⟩ := Prod.mk.inj (Option.some.inj hread)
  have hlexable : Lexable file.contents := by
    by_contra hlexable
    cases hprogram.symm.trans (hnone hlexable).2.1
  obtain ⟨span, text, alone, hspan, -, htext, halone, -, honly⟩ := htexts 0 _ (by rw [hprogram]; rfl)
  obtain ⟨lexemes, -, hbefore⟩ := herror hlexable
  obtain ⟨_, _, _, _, _, -, -, -, -, -, -, hends⟩ := hbefore _ hfailed
  exact ⟨parsed, hparse, hprogram, hfailed, span, text, alone, hspan, hends 0 span hspan, htext, halone, honly⟩

end TileSelect.Program
