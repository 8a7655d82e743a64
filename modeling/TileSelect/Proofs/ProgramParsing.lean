import TileSelect.Proofs.ProgramGrammar

/-! # The parser and the grammar

The parser reads the words of a text as the grammar reads their symbols: it stops at the first word that no
program has in this place, and without such a word it gives the program of the derivation.  The end of the
file, the last word and a word of no statement, keeps it from asking for a word that is not there. -/
namespace TileSelect.Program

def Word.symbol (word : Word) : Symbol :=
  match word.kind with
  | .identifier => .name word.text
  | .equals => .equals
  | .comma => .comma
  | .endOfFile | .whitespace | .comment => .endOfFile

/-- Words as a text gives them: from left to right, without trivia, and with the end of the file only at their
end. -/
def Closed : List Word → Prop
  | [] => False
  | word :: words =>
    (∀ later ∈ words, word.span.start ≤ later.span.stop) ∧
      match word.kind with
      | .endOfFile => words = []
      | .whitespace | .comment => False
      | .identifier | .equals | .comma => Closed words

def Progress.follow (progress : Progress) (words : List Word) :
    Except (Located ParseError) Progress :=
  words.foldlM (fun progress word => (progress.step word.symbol).mapError (⟨word.span, ·⟩)) progress

namespace Progress

theorem follow_nil (progress : Progress) : progress.follow [] = .ok progress := rfl

theorem follow_cons_of_ok {progress next : Progress} {word : Word}
    (h : progress.step word.symbol = .ok next) (words : List Word) :
    progress.follow (word :: words) = next.follow words := by
  rw [follow, List.foldlM_cons, h]
  rfl

theorem follow_cons_of_error {progress : Progress} {word : Word} {cause : ParseError}
    (h : progress.step word.symbol = .error cause) (words : List Word) :
    progress.follow (word :: words) = .error ⟨word.span, cause⟩ := by
  rw [follow, List.foldlM_cons, h]
  rfl

theorem follow_cons_congr {progress progress' : Progress} {word : Word}
    (h : progress.step word.symbol = progress'.step word.symbol) (words : List Word) :
    progress.follow (word :: words) = progress'.follow (word :: words) := by
  rw [follow, List.foldlM_cons, h]
  rfl

end Progress

variable {α β : Type}

/-- What was read agrees with what the grammar says of the words: the same error at the same word, or a result
that the progress after it goes with. -/
def Agrees (read : Except Failure (α × List Word)) (followed : Except (Located ParseError) Progress)
    (goesWith : α → List Word → Progress → Prop) : Prop :=
  match read with
  | .error (.fault _) => False
  | .error (.malformed error) => followed = .error error
  | .ok (a, rest) => ∃ next, goesWith a rest next ∧ followed = next.follow rest

theorem Agrees.mono {read : Except Failure (α × List Word)}
    {followed : Except (Located ParseError) Progress}
    {goesWith goesWith' : α → List Word → Progress → Prop} (h : Agrees read followed goesWith)
    (himp : ∀ a rest next, goesWith a rest next → goesWith' a rest next) :
    Agrees read followed goesWith' := by
  match read with
  | .error (.fault _) => exact h
  | .error (.malformed error) => exact h
  | .ok (a, rest) =>
    obtain ⟨next, hnext, hfollowed⟩ := h
    exact ⟨next, himp a rest next hnext, hfollowed⟩

theorem Agrees.bind {read : Except Failure (α × List Word)}
    {followed : Except (Located ParseError) Progress} {goesWith : α → List Word → Progress → Prop}
    {f : α × List Word → Except Failure (β × List Word)} {goesWith' : β → List Word → Progress → Prop}
    (h : Agrees read followed goesWith)
    (hf : ∀ a rest next, goesWith a rest next → Agrees (f (a, rest)) (next.follow rest) goesWith') :
    Agrees (read >>= f) followed goesWith' := by
  match read with
  | .error (.fault _) => exact h
  | .error (.malformed error) => exact h
  | .ok (a, rest) =>
    obtain ⟨next, hnext, rfl⟩ := h
    exact hf a rest next hnext

namespace Closed

theorem exists_cons {words : List Word} (h : Closed words) : ∃ word rest, words = word :: rest := by
  cases words with
  | nil => exact h.elim
  | cons word rest => exact ⟨word, rest, rfl⟩

theorem tail {word : Word} {words : List Word} (h : Closed (word :: words))
    (hkind : word.kind ≠ .endOfFile) : Closed words := by
  obtain ⟨-, hrest⟩ := h
  split at hrest
  · contradiction
  · exact hrest.elim
  · exact hrest.elim
  all_goals exact hrest

theorem cons {word : Word} {words : List Word} (h : Closed words)
    (hlater : ∀ later ∈ words, word.span.start ≤ later.span.stop) (hend : word.kind ≠ .endOfFile)
    (htrivia : word.kind.isTrivia = false) : Closed (word :: words) := by
  refine ⟨hlater, ?_⟩
  cases hkind : word.kind <;> simp_all [TokenKind.isTrivia]

theorem symbol_kind {word : Word} {words : List Word} (h : Closed (word :: words)) :
    word.symbol.kind = word.kind := by
  obtain ⟨-, hrest⟩ := h
  cases hkind : word.kind <;> simp_all [Word.symbol, Symbol.kind]

theorem symbol_ne {word : Word} {words : List Word} {symbol : Symbol} (h : Closed (word :: words))
    (hkind : word.kind ≠ symbol.kind) : word.symbol ≠ symbol := by
  rintro rfl
  exact hkind h.symbol_kind.symm

end Closed

theorem symbol_of_identifier {word : Word} (h : word.kind = .identifier) :
    word.symbol = .name word.text := by
  simp [Word.symbol, h]

theorem symbol_of_equals {word : Word} (h : word.kind = .equals) : word.symbol = .equals := by
  simp [Word.symbol, h]

theorem symbol_of_comma {word : Word} (h : word.kind = .comma) : word.symbol = .comma := by
  simp [Word.symbol, h]

/-- A word of another kind is refused where one kind is due. -/
theorem Closed.follow_error {clauses : List Clause} {pending : Pending} {kind : TokenKind} {word : Word}
    {words : List Word} (h : Closed (word :: words)) (hdue : pending.due? = some kind)
    (hkind : word.kind ≠ kind) :
    Progress.follow ⟨clauses, pending⟩ (word :: words) = .error ⟨word.span, .unexpectedToken⟩ :=
  Progress.follow_cons_of_error (Progress.step_of_kind_ne hdue (h.symbol_kind ▸ hkind)) words

/-- A word is expected where the grammar has words of this kind and no others. -/
theorem expect_agrees {clauses : List Clause} {pending : Pending} {kind : TokenKind} {words : List Word}
    (h : Closed words) (hdue : pending.due? = some kind) (next : Word → Progress)
    (hkind : ∀ word : Word, word.kind = kind →
      Progress.step ⟨clauses, pending⟩ word.symbol = .ok (next word)) :
    Agrees (expect kind words) (Progress.follow ⟨clauses, pending⟩ words) fun word rest after =>
      words = word :: rest ∧ Closed rest ∧ after = next word := by
  obtain ⟨word, rest, rfl⟩ := h.exists_cons
  by_cases hword : word.kind = kind
  · have hend : word.kind ≠ .endOfFile := by
      cases pending <;> simp_all [Pending.due?] <;> simp [← hdue]
    rw [expect, if_pos hword]
    exact ⟨next word, ⟨rfl, h.tail hend, rfl⟩, Progress.follow_cons_of_ok (hkind word hword) rest⟩
  · rw [expect, if_neg hword]
    exact h.follow_error hdue hword

theorem spanOf_eq_ok {first last : Word} (h : first.span.start ≤ last.span.stop) :
    spanOf first last = .ok ⟨first.span.start, last.span.stop⟩ := by
  rw [spanOf, (Span.make_eq_ok_iff _ _ _).mpr ⟨h, rfl⟩]
  rfl

theorem operands_agrees {dst : Word} {op : Operation} {words : List Word} (clauses : List Clause)
    (h : Closed words) (hdst : ∀ later ∈ words, dst.span.start ≤ later.span.stop) :
    Agrees (operands dst op words) (Progress.follow ⟨clauses, .operation dst.text op⟩ words)
      fun read rest next => Closed rest ∧ ∃ lhs rhs, read.1 = ⟨op.val, dst.text, lhs, rhs⟩ ∧
        next = ⟨clauses ++ [.instruction dst.text op lhs rhs], .nothing⟩ := by
  refine (expect_agrees h rfl (fun lhs => ⟨clauses, .operand dst.text op lhs.text⟩) ?_).bind ?_
  · intro word hkind
    rw [symbol_of_identifier hkind, Progress.step]
  rintro lhs rest _ ⟨rfl, hrest, rfl⟩
  refine (expect_agrees hrest rfl (fun _ => ⟨clauses, .separated dst.text op lhs.text⟩) ?_).bind ?_
  · intro word hkind
    rw [symbol_of_comma hkind, Progress.step]
  rintro comma rest _ ⟨rfl, hrest, rfl⟩
  refine (expect_agrees hrest rfl
    (fun rhs => ⟨clauses ++ [.instruction dst.text op lhs.text rhs.text], .nothing⟩) ?_).bind ?_
  · intro word hkind
    rw [symbol_of_identifier hkind, Progress.step]
  rintro rhs rest _ ⟨rfl, hrest, rfl⟩
  have hspan := spanOf_eq_ok (hdst rhs (by simp))
  simp only [hspan, Result.ok_bind]
  exact ⟨_, ⟨hrest, lhs.text, rhs.text, rfl, rfl⟩, rfl⟩

theorem computation_cons {mnemonic : Word} (dst : Word) (h : mnemonic.kind = .identifier)
    (words : List Word) : computation dst (mnemonic :: words) =
      (Operation.ofName? mnemonic.text).elim (errorAt mnemonic .unknownOperation)
        fun op => operands dst op words := by
  rw [computation, expect, if_pos h, Result.ok_bind]
  cases hparse : Opcode.parse? mnemonic.text with
  | none => simp [Operation.ofName?, hparse]
  | some op => cases hop : op.isBinary <;> simp [Operation.ofName?, hparse, hop]

theorem computation_agrees {dst : Word} {words : List Word} (clauses : List Clause) (h : Closed words)
    (hdst : ∀ later ∈ words, dst.span.start ≤ later.span.stop) :
    Agrees (computation dst words) (Progress.follow ⟨clauses, .equation dst.text⟩ words)
      fun read rest next => Closed rest ∧ ∃ op lhs rhs, read.1 = ⟨op.val, dst.text, lhs, rhs⟩ ∧
        next = ⟨clauses ++ [.instruction dst.text op lhs rhs], .nothing⟩ := by
  obtain ⟨mnemonic, rest, rfl⟩ := h.exists_cons
  by_cases hkind : mnemonic.kind = .identifier
  · rw [computation_cons dst hkind]
    cases hop : Operation.ofName? mnemonic.text with
    | none =>
      refine Progress.follow_cons_of_error ?_ rest
      simp [symbol_of_identifier hkind, Progress.step, hop]
    | some op =>
      have hstep : Progress.step ⟨clauses, .equation dst.text⟩ mnemonic.symbol =
          .ok ⟨clauses, .operation dst.text op⟩ := by
        simp [symbol_of_identifier hkind, Progress.step, hop]
      rw [Progress.follow_cons_of_ok hstep]
      refine (operands_agrees clauses (h.tail (by simp [hkind])) fun later hlater =>
        hdst later (List.mem_cons_of_mem _ hlater)).mono ?_
      rintro read rest next ⟨hclosed, lhs, rhs, hread, hnext⟩
      exact ⟨hclosed, op, lhs, rhs, hread, hnext⟩
  · rw [computation, expect, if_neg hkind]
    exact h.follow_error rfl hkind

theorem follow_declared {word : Word} (h : word.symbol ≠ .comma) (clauses : List Clause)
    (names : List String) (last : String) (words : List Word) :
    Progress.follow ⟨clauses, .declared names last⟩ (word :: words) =
      Progress.follow ⟨clauses ++ [.declaration names last], .nothing⟩ (word :: words) := by
  apply Progress.follow_cons_congr
  cases hword : word.symbol <;> first | rfl | exact (h hword).elim

theorem follow_keyword {word : Word} (h : word.symbol ≠ .equals) (clauses : List Clause)
    (words : List Word) :
    Progress.follow ⟨clauses, .keyword⟩ (word :: words) =
      Progress.follow ⟨clauses, .declaring []⟩ (word :: words) := by
  apply Progress.follow_cons_congr
  cases hword : word.symbol <;> first | rfl | exact (h hword).elim

theorem step_declaring {clauses : List Clause} {names : List String} {word : Word}
    (hkind : ¬ word.kind ≠ .identifier) (hnew : ¬ (inputsOf clauses ++ names).contains word.text = true) :
    Progress.step ⟨clauses, .declaring names⟩ word.symbol =
      .ok ⟨clauses, .declared names word.text⟩ := by
  rw [symbol_of_identifier (not_not.mp hkind)]
  exact if_neg (by simpa using hnew)

theorem inputNames_agrees {words : List Word} (clauses : List Clause) (names : List String)
    (h : Closed words) :
    Agrees (inputNames (inputsOf clauses ++ names) words)
      (Progress.follow ⟨clauses, .declaring names⟩ words)
      fun read rest next => Closed rest ∧ ∃ more last, read = more ++ [last] ∧
        next = ⟨clauses ++ [.declaration (names ++ more) last], .nothing⟩ := by
  generalize hdeclared : inputsOf clauses ++ names = declared
  fun_induction inputNames declared words generalizing names with
  | case1 => exact h.elim
  | case2 declared word words hkind => exact h.follow_error rfl hkind
  | case3 declared word words hkind hmem =>
    subst hdeclared
    refine Progress.follow_cons_of_error ?_ words
    rw [symbol_of_identifier (not_not.mp hkind)]
    exact if_pos (by simpa using hmem)
  | case4 declared word hkind hnew => exact (h.tail (by simp_all)).elim
  | case5 declared word hkind hnew separator rest hcomma ih =>
    subst hdeclared
    have hrest := h.tail (by simp_all)
    have hstep : Progress.step ⟨clauses, .declared names word.text⟩ separator.symbol =
        .ok ⟨clauses, .declaring (names ++ [word.text])⟩ := by
      rw [symbol_of_comma hcomma, Progress.step]
    rw [Progress.follow_cons_of_ok (step_declaring hkind hnew), Progress.follow_cons_of_ok hstep]
    refine (ih (names ++ [word.text]) (hrest.tail (by simp [hcomma])) (by simp)).bind ?_
    rintro _ rest' _ ⟨hclosed, more, last, rfl, rfl⟩
    exact ⟨_, ⟨hclosed, word.text :: more, last, rfl, by simp⟩, rfl⟩
  | case6 declared word hkind hnew separator rest hcomma =>
    subst hdeclared
    have hrest := h.tail (by simp_all)
    have hseparator : separator.symbol ≠ .comma := hrest.symbol_ne hcomma
    refine ⟨⟨clauses ++ [.declaration names word.text], .nothing⟩,
      ⟨hrest, [], word.text, rfl, by simp⟩, ?_⟩
    rw [Progress.follow_cons_of_ok (step_declaring hkind hnew), follow_declared hseparator]

inductive Says : Statement → Clause → Prop
  | inputs (names : List String) (last : String) :
      Says (.inputs (names ++ [last])) (.declaration names last)
  | instruction (dst : String) (op : Operation) (lhs rhs : String) (span : Span) :
      Says (.instruction ⟨op, dst, lhs, rhs⟩ span) (.instruction dst op lhs rhs)

theorem Says.declares_eq {statement : Statement} {clause : Clause} (h : Says statement clause) :
    statement.declares = clause.inputs := by
  cases h <;> rfl

theorem startsInputs_cons (word next : Word) (words : List Word) :
    startsInputs (word :: next :: words) =
      .ok (decide (word.kind = .identifier ∧ word.text = "input") && next.kind != .equals) := by
  by_cases h : word.kind = .identifier ∧ word.text = "input" <;> simp [startsInputs, h]

/-- The destination of an instruction and the equals sign after it, also where the destination is `input`. -/
theorem follow_destination {dst equals : Word} (hdst : dst.kind = .identifier)
    (hequals : equals.kind = .equals) (clauses : List Clause) (words : List Word) :
    Progress.follow ⟨clauses, .nothing⟩ (dst :: equals :: words) =
      Progress.follow ⟨clauses, .equation dst.text⟩ words := by
  have hstep : Progress.step ⟨clauses, .nothing⟩ dst.symbol =
      .ok ⟨clauses, if dst.text = "input" then .keyword else .destination dst.text⟩ := by
    rw [symbol_of_identifier hdst, Progress.step, Progress.start]
  have hstep' : Progress.step ⟨clauses, if dst.text = "input" then .keyword else .destination dst.text⟩
      equals.symbol = .ok ⟨clauses, .equation dst.text⟩ := by
    by_cases hinput : dst.text = "input" <;> simp [symbol_of_equals hequals, hinput, Progress.step]
  rw [Progress.follow_cons_of_ok hstep, Progress.follow_cons_of_ok hstep']

theorem instruction_agrees {word next : Word} {words : List Word} (clauses : List Clause)
    (h : Closed (word :: next :: words)) (hend : word.kind ≠ .endOfFile)
    (hstarts : startsInputs (word :: next :: words) = .ok false) :
    Agrees (instruction (word :: next :: words))
      (Progress.follow ⟨clauses, .nothing⟩ (word :: next :: words))
      fun read rest next => Closed rest ∧ ∃ dst op lhs rhs, read.1 = ⟨op.val, dst, lhs, rhs⟩ ∧
        next = ⟨clauses ++ [.instruction dst op lhs rhs], .nothing⟩ := by
  by_cases hkind : word.kind = .identifier
  · by_cases hequals : next.kind = .equals
    · rw [follow_destination hkind hequals]
      simp only [instruction, expect, hkind, hequals, if_true, Result.ok_bind]
      refine (computation_agrees clauses ((h.tail hend).tail (by simp [hequals])) fun later hlater =>
        h.1 later (List.mem_cons_of_mem _ hlater)).mono ?_
      rintro read rest after ⟨hclosed, op, lhs, rhs, hread, hafter⟩
      exact ⟨hclosed, word.text, op, lhs, rhs, hread, hafter⟩
    · have htext : word.text ≠ "input" := by
        intro htext
        simp [startsInputs_cons, hkind, htext, hequals] at hstarts
      have hstep : Progress.step ⟨clauses, .nothing⟩ word.symbol =
          .ok ⟨clauses, .destination word.text⟩ := by
        rw [symbol_of_identifier hkind, Progress.step, Progress.start, if_neg htext]
      simp only [instruction, expect, hkind, hequals, if_true, if_false, Result.ok_bind]
      rw [Progress.follow_cons_of_ok hstep]
      exact (h.tail hend).follow_error rfl hequals
  · simp only [instruction, expect, hkind, if_false]
    refine Progress.follow_cons_of_error ?_ _
    have hname : ∀ text, word.symbol ≠ .name text := fun text => h.symbol_ne hkind
    have hfile : word.symbol ≠ .endOfFile := h.symbol_ne hend
    cases hword : word.symbol <;> first | rfl | simp_all

theorem statement_agrees {word : Word} {words : List Word} (clauses : List Clause)
    (h : Closed (word :: words)) (hend : word.kind ≠ .endOfFile) :
    Agrees (statement (inputsOf clauses) (word :: words))
      (Progress.follow ⟨clauses, .nothing⟩ (word :: words))
      fun read rest next => Closed rest ∧ ∃ clause, Says read clause ∧
        next = ⟨clauses ++ [clause], .nothing⟩ := by
  have hrest := h.tail hend
  obtain ⟨next, words, rfl⟩ := hrest.exists_cons
  cases hstarts : (decide (word.kind = .identifier ∧ word.text = "input") && next.kind != .equals) with
  | false =>
    rw [statement, startsInputs_cons, hstarts]
    refine (instruction_agrees clauses h hend (by rw [startsInputs_cons, hstarts])).bind ?_
    rintro ⟨_, span⟩ rest _ ⟨hclosed, dst, op, lhs, rhs, rfl, rfl⟩
    exact ⟨_, ⟨hclosed, _, .instruction dst op lhs rhs span, rfl⟩, rfl⟩
  | true =>
    rw [statement, startsInputs_cons, hstarts]
    simp only [Bool.and_eq_true, decide_eq_true_eq, bne_iff_ne] at hstarts
    obtain ⟨⟨hkind, htext⟩, hequals⟩ := hstarts
    have hstep : Progress.step ⟨clauses, .nothing⟩ word.symbol = .ok ⟨clauses, .keyword⟩ := by
      rw [symbol_of_identifier hkind, Progress.step, Progress.start, if_pos htext]
    rw [Progress.follow_cons_of_ok hstep, follow_keyword (hrest.symbol_ne hequals)]
    have hnames := inputNames_agrees clauses [] hrest
    rw [List.append_nil] at hnames
    refine hnames.bind ?_
    rintro _ rest _ ⟨hclosed, names, last, rfl, rfl⟩
    exact ⟨_, ⟨hclosed, _, .inputs names last, rfl⟩, rfl⟩

/-- Statements are read up to the first word refused, without a fault. -/
theorem statements_agrees {words : List Word} (clauses : List Clause) (h : Closed words) :
    ∃ read error, statements (inputsOf clauses) words = .ok (read, error) ∧
      (∀ e, error = some e → Progress.follow ⟨clauses, .nothing⟩ words = .error e) ∧
      (error = none → ∃ more, List.Forall₂ Says read more ∧
        Progress.follow ⟨clauses, .nothing⟩ words = .ok ⟨clauses ++ more, .finished⟩) := by
  generalize hdeclared : inputsOf clauses = declared
  fun_induction statements declared words generalizing clauses with
  | case1 => exact h.elim
  | case2 declared word words hend =>
    obtain ⟨-, hlast⟩ := h
    simp only [hend] at hlast
    subst hlast
    refine ⟨[], none, rfl, by simp, fun _ => ⟨[], .nil, ?_⟩⟩
    have hstep : Progress.step ⟨clauses, .nothing⟩ word.symbol = .ok ⟨clauses, .finished⟩ := by
      simp [Word.symbol, hend, Progress.step, Progress.start]
    rw [Progress.follow_cons_of_ok hstep, Progress.follow_nil, List.append_nil]
  | case3 declared word words hend fault hread =>
    subst hdeclared
    have hagrees := statement_agrees clauses h hend
    rw [hread] at hagrees
    exact hagrees.elim
  | case4 declared word words hend error hread =>
    subst hdeclared
    have hagrees := statement_agrees clauses h hend
    rw [hread] at hagrees
    refine ⟨[], some error, rfl, ?_, by simp⟩
    intro e he
    rw [← Option.some.inj he]
    exact hagrees
  | case5 declared word words hend read rest hread ih =>
    subst hdeclared
    have hagrees := statement_agrees clauses h hend
    rw [hread] at hagrees
    obtain ⟨_, ⟨hclosed, clause, hsays, rfl⟩, hfollow⟩ := hagrees
    have hinputs : inputsOf (clauses ++ [clause]) = inputsOf clauses ++ read.declares := by
      rw [inputsOf_append, hsays.declares_eq]
      simp [inputsOf]
    obtain ⟨more, error, hmore, herror, hnone⟩ := ih (clauses ++ [clause]) hclosed hinputs
    refine ⟨read :: more, error, by rw [hmore]; rfl, ?_, ?_⟩
    · intro e he
      rw [hfollow, herror e he]
    · intro he
      obtain ⟨rest', hrest', hfinal⟩ := hnone he
      refine ⟨clause :: rest', .cons hsays hrest', ?_⟩
      rw [hfollow, hfinal, List.append_assoc, List.singleton_append]

namespace Progress

theorem follow_eq_ok_iff {progress final : Progress} {words : List Word} :
    progress.follow words = .ok final ↔ progress.run (words.map Word.symbol) = .ok final := by
  induction words generalizing progress with
  | nil => rw [follow_nil, List.map_nil, run_nil, Except.ok.injEq, Except.ok.injEq]
  | cons word words ih =>
    rw [List.map_cons, run_cons]
    cases hstep : progress.step word.symbol with
    | error cause =>
      rw [follow_cons_of_error hstep]
      constructor
      · intro h
        cases h
      · intro h
        cases h
    | ok next => rw [follow_cons_of_ok hstep, Result.ok_bind, ih]

/-- The first word refused. -/
theorem follow_eq_error {progress : Progress} {words : List Word} {error : Located ParseError}
    (h : progress.follow words = .error error) : ∃ before word after next,
    words = before ++ word :: after ∧ error.span = word.span ∧
      progress.run (before.map Word.symbol) = .ok next ∧
      next.step word.symbol = .error error.cause := by
  induction words generalizing progress with
  | nil => cases h
  | cons word words ih =>
    cases hstep : progress.step word.symbol with
    | error cause =>
      rw [follow_cons_of_error hstep] at h
      cases h
      exact ⟨[], word, words, progress, rfl, rfl, rfl, hstep⟩
    | ok next =>
      rw [follow_cons_of_ok hstep] at h
      obtain ⟨before, word', after, final, rfl, hspan, hrun, hfinal⟩ := ih h
      refine ⟨word :: before, word', after, final, rfl, hspan, ?_, hfinal⟩
      rw [List.map_cons, run_cons, hstep, Result.ok_bind, hrun]

end Progress

/-- The error stands at the first word with which no program goes on. -/
def Earliest (words : List Word) (error : Located ParseError) : Prop :=
  ∃ before word after, words = before ++ word :: after ∧ error.span = word.span ∧
    Viable (before.map Word.symbol) ∧ ¬ Viable (before.map Word.symbol ++ [word.symbol]) ∧
    Explains (before.map Word.symbol) word.symbol error.cause

theorem earliest_of_follow {words : List Word} {error : Located ParseError}
    (hproper : ∀ word ∈ words, word.symbol.Proper)
    (h : Progress.initial.follow words = .error error) : Earliest words error := by
  obtain ⟨before, word, after, next, rfl, hspan, hrun, hstep⟩ := Progress.follow_eq_error h
  have hbefore : ∀ symbol ∈ before.map Word.symbol, symbol.Proper := by
    intro symbol hmem
    obtain ⟨word, hword, rfl⟩ := List.mem_map.mp hmem
    exact hproper word (List.mem_append_left _ hword)
  exact ⟨before, word, after, rfl, hspan, viable_of_run hbefore hrun, not_viable_of_step hrun hstep,
    explains_of_step hbefore hrun hstep⟩

theorem program_eq_ofClauses {file : File} {statements : List Statement} {clauses : List Clause}
    (h : List.Forall₂ Says statements clauses) (error : Option (Located ParseError)) :
    (⟨file, statements, error⟩ : Parsed).program = ofClauses clauses := by
  induction h with
  | nil => rfl
  | cons hsays _ ih =>
    simp only [Parsed.program, Parsed.instructions, ofClauses, inputsOf, Program.mk.injEq] at ih ⊢
    obtain ⟨hinputs, hinstructions⟩ := ih
    constructor
    · rw [List.flatMap_cons, List.flatMap_cons, hsays.declares_eq, hinputs]
    · cases hsays with
      | inputs names last => simpa [List.filterMap_cons, Clause.instruction?] using hinstructions
      | instruction dst op lhs rhs span =>
        simpa [List.filterMap_cons, Clause.instruction?] using hinstructions

/-- Words are read without error exactly if they are those of a program, and then as it is derived. -/
theorem statements_accept {words : List Word} (h : Closed words)
    (hproper : ∀ word ∈ words, word.symbol.Proper) :
    ∃ read error, statements [] words = .ok (read, error) ∧
      (error = none ↔ Accepted (words.map Word.symbol)) ∧
      (∀ clauses, Derives clauses (words.map Word.symbol) → List.Forall₂ Says read clauses) ∧
      ∀ e, error = some e → Earliest words e := by
  obtain ⟨read, error, hread, herror, hnone⟩ := statements_agrees [] h
  have hderived : ∀ clauses, Derives clauses (words.map Word.symbol) →
      error = none ∧ List.Forall₂ Says read clauses := by
    intro clauses hderives
    have hfollow := Progress.follow_eq_ok_iff.mpr hderives.run
    cases error with
    | some e =>
      have hrefused : Progress.initial.follow words = .error e := herror e rfl
      rw [hfollow] at hrefused
      cases hrefused
    | none =>
      obtain ⟨more, hsays, hfinal⟩ := hnone rfl
      have heq : Progress.initial.follow words = .ok ⟨more, .finished⟩ := hfinal
      rw [hfollow] at heq
      cases heq
      exact ⟨rfl, hsays⟩
  refine ⟨read, error, hread, ⟨fun hok => ?_, ?_⟩, fun clauses hd => (hderived clauses hd).2,
    fun e he => earliest_of_follow hproper (herror e he)⟩
  · obtain ⟨more, -, hfinal⟩ := hnone hok
    refine ⟨fun symbol hmem => ?_, more, derives_of_run (Progress.follow_eq_ok_iff.mp hfinal)⟩
    obtain ⟨word, hword, rfl⟩ := List.mem_map.mp hmem
    exact hproper word hword
  · rintro ⟨-, clauses, hderives⟩
    exact (hderived clauses hderives).1

theorem start_le_stop {start : Nat} {lexemes : List Lexeme} {word : Word}
    (h : word ∈ wordsFrom start lexemes) : (start : Int) ≤ word.span.stop := by
  induction lexemes generalizing start with
  | nil => cases h
  | cons lexeme lexemes ih =>
    rcases List.mem_cons.mp h with rfl | h
    · simp only [Lexeme.wordAt, Span.between]
      omega
    · have := ih h
      omega

theorem closed_wordsFrom (start : Nat) (lexemes : List Lexeme) :
    Closed ((wordsFrom start lexemes).filter (!·.kind.isTrivia) ++
      [endWord (start + (lexemes.flatMap Lexeme.text).length)]) := by
  induction lexemes generalizing start with
  | nil => exact ⟨by simp, rfl⟩
  | cons lexeme lexemes ih =>
    have hrest := ih (start + lexeme.text.length)
    rw [Nat.add_assoc, ← List.length_append, ← List.flatMap_cons] at hrest
    have hlater : ∀ later ∈ (wordsFrom (start + lexeme.text.length) lexemes).filter (!·.kind.isTrivia) ++
        [endWord (start + ((lexeme :: lexemes).flatMap Lexeme.text).length)],
        (start : Int) ≤ later.span.stop := by
      intro later hmem
      rcases List.mem_append.mp hmem with hmem | hmem
      · have := start_le_stop (List.mem_of_mem_filter hmem)
        omega
      · rw [List.mem_singleton.mp hmem]
        simp only [endWord, Span.point, Span.between]
        omega
    cases htrivia : lexeme.kind.isTrivia with
    | true => simpa [wordsFrom, Lexeme.wordAt, htrivia] using hrest
    | false =>
      have hend : lexeme.kind ≠ .endOfFile := by
        intro hkind
        obtain ⟨c, cs, -, hstart, -⟩ := lexeme.exists_cons
        rw [hkind] at hstart
        cases hstart
      have hwords : Closed (lexeme.wordAt start :: _) := hrest.cons hlater hend htrivia
      simpa [wordsFrom, Lexeme.wordAt, htrivia] using hwords

theorem proper_wordsFrom {start : Nat} {lexemes : List Lexeme} {word : Word}
    (h : word ∈ wordsFrom start lexemes) : word.symbol.Proper := by
  induction lexemes generalizing start with
  | nil => cases h
  | cons lexeme lexemes ih =>
    rcases List.mem_cons.mp h with rfl | h
    · cases hkind : lexeme.kind with
      | identifier =>
        simp only [Word.symbol, Lexeme.wordAt, hkind, Symbol.Proper, String.toList_ofList]
        exact hkind ▸ lexeme.spells
      | _ => simp [Word.symbol, Lexeme.wordAt, hkind, Symbol.Proper]
    · exact ih h

theorem closed_wordsOf (lexemes : List Lexeme) : Closed (wordsOf lexemes) := by
  simpa [wordsOf] using closed_wordsFrom 0 lexemes

theorem proper_wordsOf {lexemes : List Lexeme} {word : Word} (h : word ∈ wordsOf lexemes) :
    word.symbol.Proper := by
  rcases List.mem_append.mp h with h | h
  · exact proper_wordsFrom (List.mem_of_mem_filter h)
  · rw [List.mem_singleton.mp h]
    trivial

theorem mapM_ofToken_cut {file : File} {lexemes : List Lexeme} (h : Cut file.contents lexemes []) :
    (tokensOf 0 lexemes ++ [endToken file.contents.length]).mapM (Word.ofToken file) =
      .ok (wordsFrom 0 lexemes ++ [endWord file.contents.length]) := by
  have htext : file.contents = [] ++ lexemes.flatMap Lexeme.text ++ [] := by simpa using h.eq_append
  have hwords := mapM_ofToken [] htext
  rw [List.length_nil] at hwords
  rw [List.mapM_append, hwords, List.mapM_cons, ofToken_endToken]
  rfl

theorem filter_words_cut {cs : List Char} {lexemes : List Lexeme} (h : Cut cs lexemes []) :
    (wordsFrom 0 lexemes ++ [endWord cs.length]).filter (fun word => !word.kind.isTrivia) =
      wordsOf lexemes := by
  rw [List.filter_append, h.eq_append, List.append_nil]
  rfl

/-- Parsing reads the words of the cut; where something is left, it is the error. -/
theorem parse_of_cut {file : File} {lexemes : List Lexeme} {rest : List Char}
    (h : Cut file.contents lexemes rest) :
    (rest ≠ [] → parse file = .ok ⟨file, [], some ⟨Span.between (file.contents.length - rest.length)
      file.contents.length, .unknownText⟩⟩) ∧
    (rest = [] → parse file =
      (statements [] (wordsOf lexemes)).map fun (read, error) => ⟨file, read, error⟩) := by
  obtain ⟨last, final, hcollect, hfinal⟩ := collect_cut h []
  have hlexer : lexerAt [] file.contents = lexer file.contents := rfl
  rw [hlexer, List.length_nil] at hcollect
  rcases hfinal with ⟨rfl, rfl, hremaining⟩ | ⟨hne, rfl, hremaining, hindex⟩
  · refine ⟨fun hne => (hne rfl).elim, fun _ => ?_⟩
    simp only [parse, hcollect, Result.ok_bind, List.nil_append, mapM_ofToken_cut h, hremaining,
      filter_words_cut h]
    cases statements [] (wordsOf lexemes) <;> rfl
  · refine ⟨fun _ => ?_, fun h => (hne h).elim⟩
    have hwords := mapM_ofToken [] (by simpa using h.eq_append)
    rw [List.length_nil] at hwords
    have hspan : Span.make final.index (final.index + final.remaining) =
        .ok (Span.between (file.contents.length - rest.length) file.contents.length) := by
      rw [List.nil_append] at hindex
      refine (Span.make_eq_ok_iff _ _ _).mpr ⟨by omega, ?_⟩
      simp only [Span.between, Span.mk.injEq]
      omega
    have hpos : final.remaining ≠ 0 := by
      rw [hremaining]
      exact fun hzero => hne (List.length_eq_zero_iff.mp hzero)
    simp only [parse, hcollect, Result.ok_bind, List.append_nil, hwords, if_pos hpos, hspan]

/-- Parsing answers for every text.  A text that is no concatenation of lexemes has one error, from the first
place where no lexeme starts to its end.  Any other text is read without error exactly if its words are those
of a program, which is then the program read; otherwise the error stands at the first word with which no
program goes on. -/
theorem parse_accepts_grammar (file : File) : ∃ parsed lexemes rest,
    parse file = .ok parsed ∧ Cut file.contents lexemes rest ∧
      (¬ Lexable file.contents → parsed.syntaxError? =
        some ⟨file, Span.between (file.contents.length - rest.length) file.contents.length,
          "unknown text encountered"⟩) ∧
      (Lexable file.contents → rest = [] ∧
        (parsed.error = none ↔ Accepted ((wordsOf lexemes).map Word.symbol)) ∧
        (∀ clauses, Derives clauses ((wordsOf lexemes).map Word.symbol) →
          parsed.program = ofClauses clauses) ∧
        ∀ error, parsed.error = some error → Earliest (wordsOf lexemes) error) := by
  obtain ⟨lexemes, rest, hcut⟩ := exists_cut file.contents
  obtain ⟨hleft, hall⟩ := parse_of_cut hcut
  by_cases hrest : rest = []
  · obtain ⟨read, error, hread, hnone, hderived, hearliest⟩ :=
      statements_accept (closed_wordsOf lexemes) fun _ => proper_wordsOf
    refine ⟨⟨file, read, error⟩, lexemes, rest, ?_, hcut, fun hlexable => ?_, fun _ => ?_⟩
    · rw [hall hrest, hread]
      rfl
    · exact (hlexable (hcut.rest_eq_nil_iff.mp hrest)).elim
    · exact ⟨hrest, hnone, fun clauses hd => program_eq_ofClauses (hderived clauses hd) error, hearliest⟩
  · refine ⟨_, lexemes, rest, hleft hrest, hcut, fun _ => rfl, fun hlexable => ?_⟩
    exact (hrest (hcut.rest_eq_nil_iff.mpr hlexable)).elim

end TileSelect.Program
