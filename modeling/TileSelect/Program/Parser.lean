import TileSelect.Program.Basic
import TileSelect.Program.Token
import TileSelect.Source.SpanMap

/-! # Reading programs

A program text is a sequence of statements: `input` declarations and instructions.  A statement that starts
with the word `input` is a declaration unless an equals sign follows, when `input` is the name being defined.
Reading stops at the first error, and what was read before it is kept; a statement with an error in it adds
nothing. -/
namespace TileSelect.Program

inductive ParseError where
  /-- Characters that start no token. -/
  | unknownText
  /-- A token that no statement has in this place. -/
  | unexpectedToken
  /-- A mnemonic that is no binary operation. -/
  | unknownOperation
  /-- An input that was declared before. -/
  | inputDeclared
  deriving DecidableEq, Repr

def ParseError.message : ParseError → String
  | .unknownText => "unknown text encountered"
  | .unexpectedToken => "unexpected token"
  | .unknownOperation => "unknown operation"
  | .inputDeclared => "input already declared"

inductive Statement where
  | inputs (names : List String)
  | instruction (insn : Instruction) (span : Span)
  deriving DecidableEq

/-- Why a statement is not read: its words are wrong, or a word was demanded where there is none.  The end of
the file, itself a word, is there to prevent the latter. -/
inductive Failure where
  | malformed (error : Located ParseError)
  | fault (fault : Fault)
  deriving DecidableEq

def errorAt {α : Type} (word : Word) (cause : ParseError) : Except Failure α :=
  .error (.malformed ⟨word.span, cause⟩)

def noWord {α : Type} : Except Failure α := .error (.fault .outOfRange)

def expect (kind : TokenKind) : List Word → Except Failure (Word × List Word)
  | [] => noWord
  | word :: words => if word.kind = kind then .ok (word, words) else errorAt word .unexpectedToken

/-- Does an input declaration start here?  The word after `input` decides. -/
def startsInputs : List Word → Except Failure Bool
  | [] => noWord
  | word :: words =>
    if word.kind = .identifier ∧ word.text = "input" then
      match words with
      | [] => noWord
      | next :: _ => .ok (next.kind != .equals)
    else .ok false

/-- The names of an input declaration, separated by commas and different from each other and from those
already declared. -/
def inputNames (declared : List String) : List Word → Except Failure (List String × List Word)
  | [] => noWord
  | word :: words =>
    if word.kind ≠ .identifier then errorAt word .unexpectedToken
    else if declared.contains word.text then errorAt word .inputDeclared
    else
      match words with
      | [] => noWord
      | separator :: rest =>
        if separator.kind = .comma then do
          let (names, rest) ← inputNames (declared ++ [word.text]) rest
          .ok (word.text :: names, rest)
        else .ok ([word.text], separator :: rest)

def spanOf (first last : Word) : Except Failure Span :=
  (Span.make first.span.start last.span.stop).mapError .fault

/-- The operands of an instruction that computes `op` into `dst`, and the words after it. -/
def operands (dst : Word) (op : Opcode) (words : List Word) :
    Except Failure ((Instruction × Span) × List Word) := do
  let (lhs, words) ← expect .identifier words
  let (_, words) ← expect .comma words
  let (rhs, words) ← expect .identifier words
  let span ← spanOf dst rhs
  .ok ((⟨op, dst.text, lhs.text, rhs.text⟩, span), words)

/-- What an instruction computes into `dst`, and the words after it. -/
def computation (dst : Word) (words : List Word) :
    Except Failure ((Instruction × Span) × List Word) := do
  let (mnemonic, words) ← expect .identifier words
  match Opcode.parse? mnemonic.text with
  | none => errorAt mnemonic .unknownOperation
  | some op =>
    if !op.isBinary then errorAt mnemonic .unknownOperation
    else operands dst op words

def instruction (words : List Word) : Except Failure ((Instruction × Span) × List Word) := do
  let (dst, words) ← expect .identifier words
  let (_, words) ← expect .equals words
  computation dst words

def statement (declared : List String) (words : List Word) :
    Except Failure (Statement × List Word) := do
  if ← startsInputs words then
    let (names, rest) ← inputNames declared words.tail
    .ok (.inputs names, rest)
  else
    let ((insn, span), rest) ← instruction words
    .ok (.instruction insn span, rest)

theorem expect_length {kind : TokenKind} {words rest : List Word} {word : Word}
    (h : expect kind words = .ok (word, rest)) : rest.length < words.length := by
  cases words with
  | nil => simp [expect, noWord] at h
  | cons w ws =>
    simp only [expect] at h
    split at h
    · simp only [Except.ok.injEq, Prod.mk.injEq] at h
      simp [h.2]
    · simp [errorAt] at h

theorem inputNames_length {declared names : List String} {words rest : List Word}
    (h : inputNames declared words = .ok (names, rest)) : rest.length < words.length := by
  fun_induction inputNames declared words generalizing names rest with
  | case1 => simp [noWord] at h
  | case2 => simp [errorAt] at h
  | case3 => simp [errorAt] at h
  | case4 => simp [noWord] at h
  | case5 declared word _ _ separator tail _ ih =>
    simp only [bind, Except.bind] at h
    split at h
    · simp at h
    · next found hfound =>
      simp only [Except.ok.injEq, Prod.mk.injEq] at h
      have := ih hfound
      rw [h.2] at this
      simp only [List.length_cons]
      omega
  | case6 =>
    simp only [Except.ok.injEq, Prod.mk.injEq] at h
    simp [← h.2]

theorem operands_length {dst : Word} {op : Opcode} {words rest : List Word}
    {read : Instruction × Span} (h : operands dst op words = .ok (read, rest)) :
    rest.length < words.length := by
  simp only [operands, bind, Except.bind] at h
  split at h
  · simp at h
  next lhs hlhs =>
  split at h
  · simp at h
  next comma hcomma =>
  split at h
  · simp at h
  next rhs hrhs =>
  split at h
  · simp at h
  simp only [Except.ok.injEq, Prod.mk.injEq] at h
  have h1 := expect_length hlhs
  have h2 := expect_length hcomma
  have h3 := expect_length hrhs
  rw [h.2] at h3
  omega

theorem computation_length {dst : Word} {words rest : List Word} {read : Instruction × Span}
    (h : computation dst words = .ok (read, rest)) : rest.length < words.length := by
  simp only [computation, bind, Except.bind] at h
  split at h
  · simp at h
  next mnemonic hmnemonic =>
  split at h
  · simp [errorAt] at h
  split at h
  · simp [errorAt] at h
  have h1 := expect_length hmnemonic
  have h2 := operands_length h
  omega

theorem instruction_length {words rest : List Word} {read : Instruction × Span}
    (h : instruction words = .ok (read, rest)) : rest.length < words.length := by
  simp only [instruction, bind, Except.bind] at h
  split at h
  · simp at h
  next dst hdst =>
  split at h
  · simp at h
  next eq heq =>
  have h1 := expect_length hdst
  have h2 := expect_length heq
  have h3 := computation_length h
  omega

/-- A statement takes at least one word. -/
theorem statement_length {declared : List String} {words rest : List Word} {read : Statement}
    (h : statement declared words = .ok (read, rest)) : rest.length < words.length := by
  simp only [statement, bind, Except.bind] at h
  split at h
  · simp at h
  split at h
  · split at h
    · simp at h
    · next found hfound =>
      have := inputNames_length hfound
      simp only [Except.ok.injEq, Prod.mk.injEq] at h
      rw [h.2, List.length_tail] at this
      omega
  · split at h
    · simp at h
    · next found hfound =>
      have := instruction_length hfound
      simp only [Except.ok.injEq, Prod.mk.injEq] at h
      rw [h.2] at this
      exact this

def Statement.declares : Statement → List String
  | .inputs names => names
  | .instruction _ _ => []

/-- The statements up to the end of the file or the first error, and that error. -/
def statements (declared : List String) (words : List Word) :
    Except Fault (List Statement × Option (Located ParseError)) :=
  match words with
  | [] => .error .outOfRange
  | word :: words =>
    if word.kind = .endOfFile then .ok ([], none)
    else
      match _hread : statement declared (word :: words) with
      | .error (.fault fault) => .error fault
      | .error (.malformed error) => .ok ([], some error)
      | .ok (read, rest) => do
        let (more, error) ← statements (declared ++ read.declares) rest
        .ok (read :: more, error)
termination_by words.length
decreasing_by exact statement_length _hread

/-- What reading a program text comes to: the statements before the first error, and that error. -/
structure Parsed where
  file : File
  statements : List Statement
  error : Option (Located ParseError)

namespace Parsed

def instructions (parsed : Parsed) : List (Instruction × Span) :=
  parsed.statements.filterMap fun
    | .inputs _ => none
    | .instruction insn span => some (insn, span)

def program (parsed : Parsed) : Program where
  inputs := parsed.statements.flatMap Statement.declares
  instructions := parsed.instructions.map Prod.fst

def spans (parsed : Parsed) : SpanMap Nat where
  file := parsed.file
  entries := parsed.instructions.zipIdx.map fun entry => (entry.2, entry.1.2)

def syntaxError? (parsed : Parsed) : Option SyntaxError :=
  parsed.error.map fun error => error.toSyntaxError ParseError.message parsed.file

end Parsed

/-- Reads a program text.  A text with characters that start no token has no statements. -/
def parse (file : File) : Except Fault Parsed := do
  let (tokens, lexer) := (lexer file.contents).collect
  let words ← (← tokens).mapM (Word.ofToken file)
  if lexer.remaining ≠ 0 then
    let span ← Span.make lexer.index (lexer.index + lexer.remaining)
    .ok ⟨file, [], some ⟨span, .unknownText⟩⟩
  else
    let (read, error) ← statements [] (words.filter fun word => !word.kind.isTrivia)
    .ok ⟨file, read, error⟩

end TileSelect.Program
