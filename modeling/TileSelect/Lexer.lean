import TileSelect.Scanner

/-! # Lexers

A lexer cuts a text into tokens by a list of rules, the first rule that accepts at the current position giving
the token.  Its whole state is that position.  A token never reaches past the text, so the one token that may
start at the end of the text is empty, and taking it moves the position one past the end: nothing follows it. -/
namespace TileSelect

/-- A token: its kind and the positions it lies between. -/
structure Token (κ : Type) where
  kind : κ
  start : Nat
  stop : Nat
  deriving DecidableEq

/-- A rule: what a scanner accepts is a token of this kind. -/
structure Rule (α κ : Type) where
  scanner : Scanner α
  kind : κ

section Rules

variable {α κ : Type} [BEq α] [LE α] [DecidableLE α]

/-- The first rule that accepts at the start of a text, with the number of items it accepts. -/
def Rule.first? (cs : List α) : List (Rule α κ) → Except Fault (Option (κ × Nat))
  | [] => .ok none
  | rule :: rules => do
    let n ← rule.scanner.scan cs
    if n = 0 then first? cs rules else .ok (some (rule.kind, n))

/-- A rule that gives a token accepts at least one item. -/
theorem Rule.pos_of_first? {cs : List α} {rules : List (Rule α κ)} {kind : κ} {n : Nat}
    (h : Rule.first? cs rules = .ok (some (kind, n))) : 0 < n := by
  induction rules with
  | nil => simp [Rule.first?] at h
  | cons rule rules ih =>
    simp only [Rule.first?, bind, Except.bind] at h
    split at h
    · simp at h
    · split at h
      · exact ih h
      · next hn =>
        simp only [Except.ok.injEq, Option.some.injEq, Prod.mk.injEq] at h
        omega

end Rules

structure Lexer (α κ : Type) where
  text : List α
  rules : List (Rule α κ)
  index : Nat := 0

namespace Lexer

variable {α κ : Type}

def remaining (lexer : Lexer α κ) : Nat := lexer.text.length - lexer.index

/-- Moves past a token; the empty token at the end of the text moves past the end. -/
def advance (lexer : Lexer α κ) (token : Token κ) : Lexer α κ :=
  { lexer with
    index := if lexer.index = lexer.text.length then lexer.index + 1 else token.stop }

theorem advance_index (lexer : Lexer α κ) (token : Token κ) : (lexer.advance token).index =
    if lexer.index = lexer.text.length then lexer.text.length + 1 else token.stop := by
  unfold advance
  split <;> simp_all

variable [BEq α] [LE α] [DecidableLE α]

def peek? (lexer : Lexer α κ) : Except Fault (Option (Token κ)) :=
  if lexer.text.length < lexer.index then .ok none
  else do
    match ← Rule.first? (lexer.text.drop lexer.index) lexer.rules with
    | none => .ok none
    | some (kind, n) =>
      .ok (some ⟨kind, lexer.index, min lexer.text.length (lexer.index + n)⟩)

def hasNext (lexer : Lexer α κ) : Except Fault Bool := do
  let token ← lexer.peek?
  .ok token.isSome

def next (lexer : Lexer α κ) : Except Fault (Token κ × Lexer α κ) := do
  match ← lexer.peek? with
  | none => .error .noToken
  | some token => .ok (token, lexer.advance token)

/-- A token starts where the lexer stands, inside the text or at its end. -/
theorem peek?_spec {lexer : Lexer α κ} {token : Token κ} (h : lexer.peek? = .ok (some token)) :
    lexer.index ≤ lexer.text.length ∧ token.start = lexer.index ∧
      token.stop ≤ lexer.text.length ∧
      (lexer.index < lexer.text.length → lexer.index < token.stop) := by
  unfold peek? at h
  split at h
  · simp at h
  · next hi =>
    simp only [bind, Except.bind] at h
    split at h
    · simp at h
    · split at h
      · simp at h
      · next kind n hr =>
        have hn := Rule.pos_of_first? hr
        simp only [Except.ok.injEq, Option.some.injEq] at h
        subst h
        refine ⟨by omega, rfl, Nat.min_le_left _ _, fun hlt => ?_⟩
        simp only [Nat.lt_min]
        omega

/-- Taking a token leaves less to cut. -/
theorem advance_measure {lexer : Lexer α κ} {token : Token κ}
    (h : lexer.peek? = .ok (some token)) :
    (lexer.advance token).text.length + 1 - (lexer.advance token).index <
      lexer.text.length + 1 - lexer.index := by
  obtain ⟨hi, -, -, hlt⟩ := peek?_spec h
  simp only [advance]
  split <;> omega

/-- Takes tokens as long as there are any.  The lexer returned stands where cutting stopped, also when it
stopped for a fault. -/
def collect (lexer : Lexer α κ) : Except Fault (List (Token κ)) × Lexer α κ :=
  match _hpeek : lexer.peek? with
  | .error fault => (.error fault, lexer)
  | .ok none => (.ok [], lexer)
  | .ok (some token) =>
    let (tokens, final) := collect (lexer.advance token)
    (tokens.map (token :: ·), final)
termination_by lexer.text.length + 1 - lexer.index
decreasing_by exact advance_measure _hpeek

theorem collect_of_none {lexer : Lexer α κ} (h : lexer.peek? = .ok none) :
    lexer.collect = (.ok [], lexer) := by
  rw [collect]
  split <;> simp_all

theorem collect_of_some {lexer : Lexer α κ} {token : Token κ}
    (h : lexer.peek? = .ok (some token)) :
    lexer.collect = ((lexer.advance token).collect.1.map (token :: ·),
      (lexer.advance token).collect.2) := by
  rw [collect]
  split <;> simp_all

end Lexer
end TileSelect
