import Mathlib.Data.Set.Finite.Basic
import TileSelect.Program.Parser
import TileSelect.Proofs.ProgramLexemes

/-! # The grammar of programs

A program is a sequence of declarations and instructions followed by the end of the file, and no input is
declared twice.  What can still become a program is decided symbol by symbol: `Progress` is what the symbols
read so far come to, and `Progress.step` refuses a symbol exactly if no program goes on with it. -/
namespace TileSelect.Program

/-- A word as the grammar sees it. -/
inductive Symbol where
  | name (text : String)
  | equals
  | comma
  | endOfFile
  deriving DecidableEq

def Symbol.kind : Symbol → TokenKind
  | name _ => .identifier
  | equals => .equals
  | comma => .comma
  | endOfFile => .endOfFile

/-- Is a name spelled as an identifier? -/
def Symbol.Proper : Symbol → Prop
  | name text => TokenKind.identifier.Spells text.toList
  | equals | comma | endOfFile => True

instance : DecidablePred Symbol.Proper
  | .name text => inferInstanceAs (Decidable (TokenKind.identifier.Spells text.toList))
  | .equals | .comma | .endOfFile => .isTrue trivial

abbrev Operation := {op : Opcode // op.isBinary = true}

def Operation.ofName? (name : String) : Option Operation :=
  (Opcode.parse? name).bind fun op => if h : op.isBinary = true then some ⟨op, h⟩ else none

theorem mnemonic_of_parse? {name : String} {op : Opcode} (h : Opcode.parse? name = some op)
    (hop : op.isBinary = true) : name = op.mnemonic := by
  unfold Opcode.parse? at h
  repeat' split at h
  all_goals cases h <;> simp_all [Opcode.mnemonic, Opcode.isBinary]

theorem Operation.ofName?_eq_some_iff {name : String} {op : Operation} :
    ofName? name = some op ↔ name = op.val.mnemonic := by
  constructor
  · intro h
    obtain ⟨op', hparse, hop'⟩ := Option.bind_eq_some_iff.mp h
    split at hop'
    · next hbinary =>
      cases hop'
      exact mnemonic_of_parse? hparse hbinary
    · cases hop'
  · rintro rfl
    obtain ⟨op, hop⟩ := op
    have hnamed : op.isNamed = true := by cases op <;> simp_all [Opcode.isBinary, Opcode.isNamed]
    simp [ofName?, Opcode.parse?_mnemonic hnamed, hop]

inductive Clause where
  /-- `input`, names with a comma after each, and a last name without. -/
  | declaration (names : List String) (last : String)
  /-- `dst = op lhs, rhs`. -/
  | instruction (dst : String) (op : Operation) (lhs rhs : String)
  deriving DecidableEq

namespace Clause

/-- The symbols of names with a comma after each. -/
def listed (names : List String) : List Symbol := names.flatMap fun name => [.name name, .comma]

def symbols : Clause → List Symbol
  | declaration names last => .name "input" :: (listed names ++ [.name last])
  | instruction dst op lhs rhs =>
    [.name dst, .equals, .name op.val.mnemonic, .name lhs, .comma, .name rhs]

def inputs : Clause → List String
  | declaration names last => names ++ [last]
  | instruction .. => []

def instruction? : Clause → Option Instruction
  | declaration .. => none
  | instruction dst op lhs rhs => some ⟨op, dst, lhs, rhs⟩

end Clause

def inputsOf (clauses : List Clause) : List String := clauses.flatMap Clause.inputs

theorem inputsOf_append (xs ys : List Clause) : inputsOf (xs ++ ys) = inputsOf xs ++ inputsOf ys :=
  List.flatMap_append

def ofClauses (clauses : List Clause) : Program where
  inputs := inputsOf clauses
  instructions := clauses.filterMap Clause.instruction?

/-- Are the symbols these clauses and the end of the file, with no input declared twice? -/
def Derives (clauses : List Clause) (symbols : List Symbol) : Prop :=
  symbols = clauses.flatMap Clause.symbols ++ [.endOfFile] ∧ (inputsOf clauses).Nodup

/-- Are these the symbols of a program? -/
def Accepted (symbols : List Symbol) : Prop :=
  (∀ symbol ∈ symbols, symbol.Proper) ∧ ∃ clauses, Derives clauses symbols

/-- Does a program start with these symbols? -/
def Viable (symbols : List Symbol) : Prop := ∃ more, Accepted (symbols ++ more)

/-- The part of a statement that has been read. -/
inductive Pending where
  | nothing
  /-- `input`, which an equals sign may still make a destination. -/
  | keyword
  /-- Names with a comma after each: another name is due. -/
  | declaring (names : List String)
  /-- A declaration that may end here. -/
  | declared (names : List String) (last : String)
  | destination (dst : String)
  | equation (dst : String)
  | operation (dst : String) (op : Operation)
  | operand (dst : String) (op : Operation) (lhs : String)
  | separated (dst : String) (op : Operation) (lhs : String)
  /-- The end of the file. -/
  | finished

namespace Pending

def symbols : Pending → List Symbol
  | nothing => []
  | keyword => [.name "input"]
  | declaring names => .name "input" :: Clause.listed names
  | declared names last => (Clause.declaration names last).symbols
  | destination dst => [.name dst]
  | equation dst => [.name dst, .equals]
  | operation dst op => [.name dst, .equals, .name op.val.mnemonic]
  | operand dst op lhs => [.name dst, .equals, .name op.val.mnemonic, .name lhs]
  | separated dst op lhs => [.name dst, .equals, .name op.val.mnemonic, .name lhs, .comma]
  | finished => [.endOfFile]

def inputs : Pending → List String
  | declaring names => names
  | declared names last => names ++ [last]
  | _ => []

/-- The kind of symbol that has to come next, if there is only one. -/
def due? : Pending → Option TokenKind
  | declaring _ | equation _ | operation .. | separated .. => some .identifier
  | destination _ => some .equals
  | operand .. => some .comma
  | nothing | keyword | declared .. | finished => none

end Pending

/-- What the symbols read so far come to: whole clauses and part of a statement. -/
structure Progress where
  clauses : List Clause
  pending : Pending

namespace Progress

def initial : Progress := ⟨[], .nothing⟩

def symbols (progress : Progress) : List Symbol :=
  progress.clauses.flatMap Clause.symbols ++ progress.pending.symbols

def inputs (progress : Progress) : List String :=
  inputsOf progress.clauses ++ progress.pending.inputs

def start (clauses : List Clause) : Symbol → Except ParseError Progress
  | .name text => .ok ⟨clauses, if text = "input" then .keyword else .destination text⟩
  | .endOfFile => .ok ⟨clauses, .finished⟩
  | .equals | .comma => .error .unexpectedToken

def declare (clauses : List Clause) (names : List String) : Symbol → Except ParseError Progress
  | .name text =>
    if text ∈ inputsOf clauses ++ names then .error .inputDeclared
    else .ok ⟨clauses, .declared names text⟩
  | .equals | .comma | .endOfFile => .error .unexpectedToken

def step : Progress → Symbol → Except ParseError Progress
  | ⟨clauses, .nothing⟩, symbol => start clauses symbol
  | ⟨clauses, .keyword⟩, .equals => .ok ⟨clauses, .equation "input"⟩
  | ⟨clauses, .keyword⟩, symbol => declare clauses [] symbol
  | ⟨clauses, .declaring names⟩, symbol => declare clauses names symbol
  | ⟨clauses, .declared names last⟩, .comma => .ok ⟨clauses, .declaring (names ++ [last])⟩
  | ⟨clauses, .declared names last⟩, symbol => start (clauses ++ [.declaration names last]) symbol
  | ⟨clauses, .destination dst⟩, .equals => .ok ⟨clauses, .equation dst⟩
  | ⟨clauses, .equation dst⟩, .name text =>
    match Operation.ofName? text with
    | some op => .ok ⟨clauses, .operation dst op⟩
    | none => .error .unknownOperation
  | ⟨clauses, .operation dst op⟩, .name lhs => .ok ⟨clauses, .operand dst op lhs⟩
  | ⟨clauses, .operand dst op lhs⟩, .comma => .ok ⟨clauses, .separated dst op lhs⟩
  | ⟨clauses, .separated dst op lhs⟩, .name rhs =>
    .ok ⟨clauses ++ [.instruction dst op lhs rhs], .nothing⟩
  | _, _ => .error .unexpectedToken

/-- Where one kind of symbol is due, all others are refused. -/
theorem step_of_kind_ne {clauses : List Clause} {pending : Pending} {kind : TokenKind} {symbol : Symbol}
    (hdue : pending.due? = some kind) (h : symbol.kind ≠ kind) :
    step ⟨clauses, pending⟩ symbol = .error .unexpectedToken := by
  cases pending <;> cases symbol <;> first | rfl | simp_all [Pending.due?, Symbol.kind]

def run (progress : Progress) (symbols : List Symbol) : Except ParseError Progress :=
  symbols.foldlM step progress

theorem run_nil (progress : Progress) : progress.run [] = .ok progress := rfl

theorem run_cons (progress : Progress) (symbol : Symbol) (symbols : List Symbol) :
    progress.run (symbol :: symbols) = progress.step symbol >>= fun next => next.run symbols := rfl

theorem run_append (progress : Progress) (xs ys : List Symbol) :
    progress.run (xs ++ ys) = progress.run xs >>= fun next => next.run ys :=
  List.foldlM_append

/-- The progress is that of these symbols, and no input was declared twice. -/
structure Reads (progress : Progress) (symbols : List Symbol) : Prop where
  symbols_eq : progress.symbols = symbols
  distinct : progress.inputs.Nodup

theorem reads_initial : initial.Reads [] := ⟨rfl, List.nodup_nil⟩

/-- A symbol that goes on with the statement at hand. -/
theorem Reads.shift {clauses : List Clause} {pending pending' : Pending} {xs : List Symbol}
    {symbol : Symbol} (h : Reads ⟨clauses, pending⟩ xs)
    (hsymbols : pending'.symbols = pending.symbols ++ [symbol])
    (hinputs : pending'.inputs = pending.inputs) : Reads ⟨clauses, pending'⟩ (xs ++ [symbol]) := by
  obtain ⟨rfl, hdistinct⟩ := h
  constructor
  · simp [symbols, hsymbols]
  · simpa [inputs, hinputs] using hdistinct

/-- A symbol that ends the statement at hand. -/
theorem Reads.close {clauses : List Clause} {clause : Clause} {pending : Pending} {xs : List Symbol}
    {more : List Symbol} (h : Reads ⟨clauses, pending⟩ xs)
    (hsymbols : clause.symbols = pending.symbols ++ more) (hinputs : clause.inputs = pending.inputs) :
    Reads ⟨clauses ++ [clause], .nothing⟩ (xs ++ more) := by
  obtain ⟨rfl, hdistinct⟩ := h
  constructor
  · simp [symbols, Pending.symbols, hsymbols]
  · simpa [inputs, inputsOf, Pending.inputs, hinputs] using hdistinct

theorem Reads.start {clauses : List Clause} {xs : List Symbol} {symbol : Symbol} {next : Progress}
    (h : Reads ⟨clauses, .nothing⟩ xs) (hstep : start clauses symbol = .ok next) :
    next.Reads (xs ++ [symbol]) := by
  cases symbol with
  | name text =>
    obtain rfl := Except.ok.inj hstep
    by_cases hinput : text = "input"
    · rw [if_pos hinput, hinput]
      exact h.shift rfl rfl
    · rw [if_neg hinput]
      exact h.shift rfl rfl
  | endOfFile =>
    obtain rfl := Except.ok.inj hstep
    exact h.shift rfl rfl
  | equals => cases hstep
  | comma => cases hstep

theorem Reads.declare {clauses : List Clause} {names : List String} {xs : List Symbol} {symbol : Symbol}
    {next : Progress} (h : Reads ⟨clauses, .declaring names⟩ xs)
    (hstep : declare clauses names symbol = .ok next) : next.Reads (xs ++ [symbol]) := by
  cases symbol with
  | name text =>
    simp only [Progress.declare] at hstep
    split at hstep
    · cases hstep
    · next hnew =>
      obtain rfl := Except.ok.inj hstep
      obtain ⟨rfl, hdistinct⟩ := h
      constructor
      · simp [symbols, Pending.symbols, Clause.symbols]
      · have hall : (inputsOf clauses ++ names ++ [text]).Nodup :=
          List.nodup_append.mpr ⟨hdistinct, List.nodup_singleton text, fun a ha b hb heq => by
            rw [List.mem_singleton.mp hb] at heq
            exact hnew (heq ▸ ha)⟩
        simpa [inputs, Pending.inputs] using hall
  | endOfFile => cases hstep
  | equals => cases hstep
  | comma => cases hstep

/-- One symbol more is one symbol more of what was read. -/
theorem Reads.step {progress next : Progress} {xs : List Symbol} {symbol : Symbol}
    (h : progress.Reads xs) (hstep : progress.step symbol = .ok next) :
    next.Reads (xs ++ [symbol]) := by
  revert hstep
  fun_cases Progress.step progress symbol <;> intro hstep
  case case1 => exact h.start hstep
  case case3 =>
    -- after `input` alone, a name starts the declaration
    have hdeclaring : Reads ⟨_, .declaring []⟩ xs := ⟨h.symbols_eq, h.distinct⟩
    exact hdeclaring.declare hstep
  case case4 => exact h.declare hstep
  case case5 names last =>
    refine Except.ok.inj hstep ▸ h.shift ?_ rfl
    simp [Pending.symbols, Clause.symbols, Clause.listed]
  case case6 names last _ =>
    -- what is no comma ends the declaration and starts the next statement
    have hclosed : Reads ⟨_ ++ [.declaration names last], .nothing⟩ (xs ++ []) :=
      h.close (List.append_nil _).symm rfl
    rw [List.append_nil] at hclosed
    exact hclosed.start hstep
  case case8 hop =>
    rw [Operation.ofName?_eq_some_iff.mp hop]
    exact Except.ok.inj hstep ▸ h.shift rfl rfl
  case case12 => exact Except.ok.inj hstep ▸ h.close rfl rfl
  -- the other symbols of an instruction, and the refusals
  case case2 | case7 | case10 | case11 => exact Except.ok.inj hstep ▸ h.shift rfl rfl
  case case9 | case13 => cases hstep

theorem Reads.run {progress final : Progress} {xs ys : List Symbol} (h : progress.Reads xs)
    (hrun : progress.run ys = .ok final) : final.Reads (xs ++ ys) := by
  induction ys generalizing progress xs with
  | nil =>
    obtain rfl := Except.ok.inj hrun
    rwa [List.append_nil]
  | cons symbol ys ih =>
    obtain ⟨next, hstep, hrest⟩ := Result.bind_eq_ok_iff.mp hrun
    simpa using ih (h.step hstep) hrest

theorem run_declared (clauses : List Clause) (names : List String) (last : String) {symbol : Symbol}
    (h : symbol ≠ .comma) (rest : List Symbol) :
    run ⟨clauses, .declared names last⟩ (symbol :: rest) =
      run ⟨clauses ++ [.declaration names last], .nothing⟩ (symbol :: rest) := by
  rw [run_cons, run_cons]
  cases symbol <;> first | rfl | exact (h rfl).elim

theorem declare_new {clauses : List Clause} {names : List String} {name : String}
    (h : name ∉ inputsOf clauses ++ names) :
    declare clauses names (.name name) = .ok ⟨clauses, .declared names name⟩ := if_neg h

theorem run_declaring {clauses : List Clause} {names more : List String} {last : String}
    (hdistinct : (inputsOf clauses ++ names ++ (more ++ [last])).Nodup) (rest : List Symbol) :
    run ⟨clauses, .declaring names⟩ (Clause.listed more ++ .name last :: rest) =
      run ⟨clauses, .declared (names ++ more) last⟩ rest := by
  induction more generalizing names with
  | nil =>
    have hnew : last ∉ inputsOf clauses ++ names := fun hmem =>
      (List.nodup_append.mp hdistinct).2.2 last hmem last (by simp) rfl
    rw [Clause.listed, List.flatMap_nil, List.nil_append, run_cons, step, declare_new hnew,
      Result.ok_bind, List.append_nil]
  | cons name more ih =>
    have hnew : name ∉ inputsOf clauses ++ names := fun hmem =>
      (List.nodup_append.mp hdistinct).2.2 name hmem name (by simp) rfl
    have hstep : run ⟨clauses, .declaring names⟩ (Clause.listed (name :: more) ++ .name last :: rest) =
        run ⟨clauses, .declaring (names ++ [name])⟩ (Clause.listed more ++ .name last :: rest) := by
      simp only [Clause.listed, List.flatMap_cons, List.cons_append, List.nil_append, run_cons, step,
        declare_new hnew, Result.ok_bind]
    rw [hstep, ih (by simpa using hdistinct), List.append_assoc, List.singleton_append]

/-- A clause is read as it stands, whatever symbol but a comma follows it. -/
theorem run_clause {done : List Clause} {clause : Clause}
    (hdistinct : (inputsOf (done ++ [clause])).Nodup) {symbol : Symbol} (h : symbol ≠ .comma)
    (rest : List Symbol) :
    run ⟨done, .nothing⟩ (clause.symbols ++ symbol :: rest) =
      run ⟨done ++ [clause], .nothing⟩ (symbol :: rest) := by
  cases clause with
  | declaration names last =>
    have hkeyword : run ⟨done, .nothing⟩ ((Clause.declaration names last).symbols ++ symbol :: rest) =
        run ⟨done, .declaring []⟩ (Clause.listed names ++ .name last :: symbol :: rest) := by
      cases names <;> simp [Clause.symbols, Clause.listed, run_cons, step, start]
    rw [hkeyword, run_declaring (by simpa [inputsOf, Clause.inputs] using hdistinct),
      List.nil_append, run_declared _ _ _ h]
  | instruction dst op lhs rhs =>
    have hop : Operation.ofName? op.val.mnemonic = some op := Operation.ofName?_eq_some_iff.mpr rfl
    by_cases hinput : dst = "input" <;>
      simp [Clause.symbols, run_cons, step, start, hinput, hop]

theorem exists_head (clauses : List Clause) : ∃ symbol rest,
    clauses.flatMap Clause.symbols ++ [.endOfFile] = symbol :: rest ∧ symbol ≠ .comma := by
  match clauses with
  | [] => exact ⟨.endOfFile, [], rfl, by simp⟩
  | .declaration names last :: _ => exact ⟨.name "input", _, rfl, by simp⟩
  | .instruction dst .. :: _ => exact ⟨.name dst, _, rfl, by simp⟩

theorem run_clauses {done clauses : List Clause} (hdistinct : (inputsOf (done ++ clauses)).Nodup) :
    run ⟨done, .nothing⟩ (clauses.flatMap Clause.symbols ++ [.endOfFile]) =
      .ok ⟨done ++ clauses, .finished⟩ := by
  induction clauses generalizing done with
  | nil => simp [run_cons, step, start, run_nil]
  | cons clause clauses ih =>
    obtain ⟨symbol, rest, hsymbols, hcomma⟩ := exists_head clauses
    have hdistinct' : (inputsOf (done ++ [clause])).Nodup := by
      rw [← List.singleton_append, ← List.append_assoc, inputsOf_append] at hdistinct
      exact hdistinct.of_append_left
    rw [List.flatMap_cons, List.append_assoc, hsymbols, run_clause hdistinct' hcomma, ← hsymbols,
      ih (by simpa using hdistinct), List.append_assoc, List.singleton_append]

theorem exists_fresh (names : List String) :
    ∃ name, (Symbol.name name).Proper ∧ name ∉ names := by
  have hinj : Function.Injective fun n => String.ofList (List.replicate (n + 1) 'a') := by
    intro m n h
    have := congrArg String.length h
    simpa using this
  obtain ⟨name, ⟨n, rfl⟩, hname⟩ :=
    (Set.infinite_range_of_injective hinj).exists_notMem_finset names.toFinset
  refine ⟨_, ?_, by simpa using hname⟩
  simp only [Symbol.Proper, String.toList_ofList, List.replicate_succ]
  refine ⟨rfl, fun d hd => ?_⟩
  rw [List.eq_of_mem_replicate hd]
  rfl

def Finishable (progress : Progress) : Prop :=
  ∃ more clauses, (∀ symbol ∈ more, symbol.Proper) ∧ progress.run more = .ok ⟨clauses, .finished⟩

theorem Finishable.of_step {progress next : Progress} (h : next.Finishable) (symbol : Symbol)
    (hproper : symbol.Proper) (hstep : progress.step symbol = .ok next) : progress.Finishable := by
  obtain ⟨more, clauses, hmore, hrun⟩ := h
  refine ⟨symbol :: more, clauses, ?_, ?_⟩
  · simpa [hproper] using hmore
  · rw [run_cons, hstep, Result.ok_bind, hrun]

theorem finishable (progress : Progress) : progress.Finishable := by
  obtain ⟨clauses, pending⟩ := progress
  have hfinished : ∀ clauses, Finishable ⟨clauses, .finished⟩ := fun clauses =>
    ⟨[], clauses, by simp, rfl⟩
  have hnothing : ∀ clauses, Finishable ⟨clauses, .nothing⟩ := fun clauses =>
    (hfinished clauses).of_step .endOfFile trivial rfl
  have hdeclared : ∀ names last, Finishable ⟨clauses, .declared names last⟩ := fun names last =>
    (hfinished _).of_step .endOfFile trivial rfl
  have hseparated : ∀ dst op lhs, Finishable ⟨clauses, .separated dst op lhs⟩ := fun dst op lhs =>
    (hnothing _).of_step (.name "a") (by decide) rfl
  have hoperand : ∀ dst op lhs, Finishable ⟨clauses, .operand dst op lhs⟩ := fun dst op lhs =>
    (hseparated dst op lhs).of_step .comma trivial rfl
  have hoperation : ∀ dst op, Finishable ⟨clauses, .operation dst op⟩ := fun dst op =>
    (hoperand dst op "a").of_step (.name "a") (by decide) rfl
  have hequation : ∀ dst, Finishable ⟨clauses, .equation dst⟩ := fun dst =>
    (hoperation dst ⟨.add, rfl⟩).of_step (.name "add") (by decide) rfl
  cases pending with
  | nothing => exact hnothing clauses
  | keyword => exact (hequation "input").of_step .equals trivial rfl
  | declaring names =>
    obtain ⟨name, hname, hnew⟩ := exists_fresh (inputsOf clauses ++ names)
    exact (hdeclared names name).of_step (.name name) hname (declare_new hnew)
  | declared names last => exact hdeclared names last
  | destination dst => exact (hequation dst).of_step .equals trivial rfl
  | equation dst => exact hequation dst
  | operation dst op => exact hoperation dst op
  | operand dst op lhs => exact hoperand dst op lhs
  | separated dst op lhs => exact hseparated dst op lhs
  | finished => exact hfinished clauses

end Progress

theorem Derives.run {clauses : List Clause} {symbols : List Symbol} (h : Derives clauses symbols) :
    Progress.initial.run symbols = .ok ⟨clauses, .finished⟩ := by
  obtain ⟨rfl, hdistinct⟩ := h
  have hrun : Progress.run ⟨[], .nothing⟩ _ = .ok ⟨[] ++ clauses, .finished⟩ :=
    Progress.run_clauses hdistinct
  exact hrun

theorem derives_of_run {clauses : List Clause} {symbols : List Symbol}
    (h : Progress.initial.run symbols = .ok ⟨clauses, .finished⟩) : Derives clauses symbols := by
  have hreads := Progress.reads_initial.run h
  refine ⟨hreads.symbols_eq.symm, ?_⟩
  simpa [Progress.inputs, Pending.inputs] using hreads.distinct

theorem Viable.exists_run {symbols : List Symbol} (h : Viable symbols) :
    ∃ progress, Progress.initial.run symbols = .ok progress := by
  obtain ⟨more, -, clauses, hderives⟩ := h
  have hrun := hderives.run
  rw [Progress.run_append] at hrun
  obtain ⟨progress, hprogress, -⟩ := Result.bind_eq_ok_iff.mp hrun
  exact ⟨progress, hprogress⟩

theorem viable_of_run {symbols : List Symbol} {progress : Progress}
    (hproper : ∀ symbol ∈ symbols, symbol.Proper)
    (hrun : Progress.initial.run symbols = .ok progress) : Viable symbols := by
  obtain ⟨more, clauses, hmore, hfinal⟩ := progress.finishable
  refine ⟨more, List.forall_mem_append.mpr ⟨hproper, hmore⟩, clauses, derives_of_run ?_⟩
  rw [Progress.run_append, hrun, Result.ok_bind, hfinal]

theorem run_concat {symbols : List Symbol} {progress : Progress}
    (hrun : Progress.initial.run symbols = .ok progress) (symbol : Symbol) :
    Progress.initial.run (symbols ++ [symbol]) = progress.step symbol := by
  rw [Progress.run_append, hrun, Result.ok_bind, Progress.run_cons]
  cases progress.step symbol <;> rfl

/-- A symbol that is refused after others starts no program with them. -/
theorem not_viable_of_step {symbols : List Symbol} {progress : Progress} {symbol : Symbol}
    {cause : ParseError} (hrun : Progress.initial.run symbols = .ok progress)
    (hstep : progress.step symbol = .error cause) : ¬ Viable (symbols ++ [symbol]) := by
  intro hviable
  obtain ⟨next, hnext⟩ := hviable.exists_run
  rw [run_concat hrun, hstep] at hnext
  cases hnext

/-- What a parse error says of the symbol it stands at and the symbols before: no symbol of its kind can stand
there, or it is no operation where one is due, or it is a name in a declaration that was declared before, where
another name could stand, and that all programs with these symbols at their start declare. -/
def Explains (before : List Symbol) (symbol : Symbol) : ParseError → Prop
  | .unknownText => False
  | .unexpectedToken => ∀ other : Symbol, other.kind = symbol.kind → ¬ Viable (before ++ [other])
  | .unknownOperation => before.getLast? = some .equals ∧
      ∃ text, symbol = .name text ∧ ∀ op : Operation, text ≠ op.val.mnemonic
  | .inputDeclared => ∃ text, symbol = .name text ∧
      (∃ earlier names, before = earlier.flatMap Clause.symbols ++ .name "input" :: Clause.listed names ∧
        text ∈ inputsOf earlier ++ names) ∧
      (∃ other, Viable (before ++ [.name other])) ∧
      ∀ clauses more, Derives clauses (before ++ more) → text ∈ inputsOf clauses

namespace Progress

theorem step_unexpected {progress : Progress} {symbol other : Symbol}
    (h : progress.step symbol = .error .unexpectedToken) (hkind : other.kind = symbol.kind) :
    progress.step other = .error .unexpectedToken := by
  obtain ⟨clauses, pending⟩ := progress
  cases pending <;> cases symbol <;> cases other <;>
    simp_all [step, start, declare, Symbol.kind]
  all_goals split at h <;> cases h

theorem inputs_of_start {clauses : List Clause} {symbol : Symbol} {next : Progress}
    (h : start clauses symbol = .ok next) : next.inputs = inputsOf clauses := by
  cases symbol with
  | name text =>
    obtain rfl := Except.ok.inj h
    by_cases hinput : text = "input" <;> simp [inputs, Pending.inputs, hinput]
  | endOfFile =>
    obtain rfl := Except.ok.inj h
    simp [inputs, Pending.inputs]
  | equals => cases h
  | comma => cases h

theorem inputs_of_declare {clauses : List Clause} {names : List String} {symbol : Symbol}
    {next : Progress} (h : declare clauses names symbol = .ok next) :
    inputsOf clauses ++ names ⊆ next.inputs := by
  cases symbol with
  | name text =>
    simp only [declare] at h
    split at h
    · cases h
    · obtain rfl := Except.ok.inj h
      simp [inputs, Pending.inputs]
  | endOfFile => cases h
  | equals => cases h
  | comma => cases h

theorem inputs_subset_of_step {progress next : Progress} {symbol : Symbol}
    (h : progress.step symbol = .ok next) : progress.inputs ⊆ next.inputs := by
  revert h
  fun_cases step progress symbol <;> intro h
  case case1 =>
    rw [inputs_of_start h]
    simp [inputs, Pending.inputs]
  case case3 => exact inputs_of_declare h
  case case4 => exact inputs_of_declare h
  case case6 =>
    rw [inputs_of_start h]
    simp [inputs, Pending.inputs, inputsOf, Clause.inputs]
  case case9 | case13 => cases h
  all_goals
    obtain rfl := Except.ok.inj h
    simp [inputs, Pending.inputs, inputsOf]

theorem inputs_subset_of_run {progress final : Progress} {symbols : List Symbol}
    (h : progress.run symbols = .ok final) : progress.inputs ⊆ final.inputs := by
  induction symbols generalizing progress with
  | nil =>
    obtain rfl := Except.ok.inj h
    exact List.Subset.refl _
  | cons symbol symbols ih =>
    obtain ⟨next, hstep, hrest⟩ := Result.bind_eq_ok_iff.mp h
    exact List.Subset.trans (inputs_subset_of_step hstep) (ih hrest)

theorem start_error {clauses : List Clause} {symbol : Symbol} {cause : ParseError}
    (h : start clauses symbol = .error cause) : cause = .unexpectedToken := by
  cases symbol <;> cases h <;> rfl

theorem declare_error {clauses : List Clause} {names : List String} {symbol : Symbol}
    {cause : ParseError} (h : declare clauses names symbol = .error cause) :
    cause = .unexpectedToken ∨
      cause = .inputDeclared ∧ ∃ text, symbol = .name text ∧ text ∈ inputsOf clauses ++ names := by
  cases symbol with
  | name text =>
    simp only [declare] at h
    split at h
    · next hmem =>
      cases h
      exact .inr ⟨rfl, text, rfl, hmem⟩
    · cases h
  | endOfFile => cases h; exact .inl rfl
  | equals => cases h; exact .inl rfl
  | comma => cases h; exact .inl rfl

/-- The three reasons to refuse a symbol. -/
theorem step_error {progress : Progress} {symbol : Symbol} {cause : ParseError}
    (h : progress.step symbol = .error cause) :
    cause = .unexpectedToken ∨
      (cause = .unknownOperation ∧ ∃ dst text, progress.pending = .equation dst ∧
        symbol = .name text ∧ Operation.ofName? text = none) ∨
      (cause = .inputDeclared ∧ ∃ text names, symbol = .name text ∧
        progress.pending.symbols = .name "input" :: Clause.listed names ∧
        progress.pending.inputs = names ∧ text ∈ progress.inputs ∧
        ∀ other, other ∉ progress.inputs → ∃ next, progress.step (.name other) = .ok next) := by
  revert h
  fun_cases step progress symbol <;> intro h
  case case1 => exact .inl (start_error h)
  case case3 =>
    refine (declare_error h).imp_right fun ⟨hcause, text, hsymbol, hmem⟩ => .inr ?_
    exact ⟨hcause, text, [], hsymbol, rfl, rfl, hmem, fun other hnew => ⟨_, declare_new hnew⟩⟩
  case case4 _ names =>
    refine (declare_error h).imp_right fun ⟨hcause, text, hsymbol, hmem⟩ => .inr ?_
    exact ⟨hcause, text, names, hsymbol, rfl, rfl, hmem, fun other hnew => ⟨_, declare_new hnew⟩⟩
  case case6 => exact .inl (start_error h)
  case case9 dst text hop =>
    cases h
    exact .inr (.inl ⟨rfl, dst, text, rfl, rfl, hop⟩)
  case case13 =>
    cases h
    exact .inl rfl
  all_goals cases h

end Progress

/-- The cause given for a refused symbol says what is wrong with it. -/
theorem explains_of_step {before : List Symbol} {progress : Progress} {symbol : Symbol}
    {cause : ParseError} (hproper : ∀ symbol ∈ before, symbol.Proper)
    (hrun : Progress.initial.run before = .ok progress)
    (hstep : progress.step symbol = .error cause) : Explains before symbol cause := by
  have hreads := Progress.reads_initial.run hrun
  rcases Progress.step_error hstep with rfl | ⟨rfl, dst, text, hpending, rfl, hop⟩ |
    ⟨rfl, text, names, rfl, hsymbols, hinputs, hmem, hnew⟩
  · intro other hkind
    exact not_viable_of_step hrun (Progress.step_unexpected hstep hkind)
  · constructor
    · rw [← List.nil_append before, ← hreads.symbols_eq, Progress.symbols, hpending]
      simp [Pending.symbols]
    · refine ⟨text, rfl, fun op htext => ?_⟩
      rw [Operation.ofName?_eq_some_iff.mpr htext] at hop
      cases hop
  · refine ⟨text, rfl, ⟨progress.clauses, names, ?_, ?_⟩, ?_, fun clauses more hderives => ?_⟩
    · rw [← hsymbols]
      exact hreads.symbols_eq.symm
    · rwa [Progress.inputs, hinputs] at hmem
    · obtain ⟨other, hother, hfresh⟩ := Progress.exists_fresh progress.inputs
      obtain ⟨next, hnext⟩ := hnew other hfresh
      refine ⟨other, viable_of_run ?_ ((run_concat hrun (.name other)).trans hnext)⟩
      exact List.forall_mem_append.mpr ⟨hproper, List.forall_mem_singleton.mpr hother⟩
    · have hfinal := hderives.run
      rw [Progress.run_append, hrun, Result.ok_bind] at hfinal
      simpa [Progress.inputs, Pending.inputs] using Progress.inputs_subset_of_run hfinal hmem

end TileSelect.Program
