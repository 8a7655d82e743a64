import TileSelect.Lexer

/-! # Token streams

A token stream hands out the tokens of a text one after another.  The next token can be looked at before it is
taken; it is then kept, so that the rules are tried once at each position.  Taking all tokens hands out none of
them if it meets a fault, but leaves the stream where the fault was met. -/
namespace TileSelect

/-- A lexer, and the token at its position if that was looked at. -/
structure TokenStream (α κ : Type) [BEq α] [LE α] [DecidableLE α] where
  lexer : Lexer α κ
  ahead : Option (Token κ) := none
  peek?_ahead : ∀ token ∈ ahead, lexer.peek? = .ok (some token) := by simp

namespace TokenStream

inductive Request where
  | hasNext
  | next
  | collect
  | index
  | remaining
  deriving DecidableEq, Repr

inductive Answer (κ : Type) where
  | truth (holds : Bool)
  | token (taken : Token κ)
  | tokens (taken : List (Token κ))
  | number (n : Nat)
  deriving DecidableEq

variable {α κ : Type} [BEq α] [LE α] [DecidableLE α]

def start (text : List α) (rules : List (Rule α κ)) : TokenStream α κ where
  lexer := { text := text, rules := rules }

/-- The position of the next token, one past the end of the text if its last token was taken. -/
def index (stream : TokenStream α κ) : Nat := stream.lexer.index

def remaining (stream : TokenStream α κ) : Nat := stream.lexer.remaining

/-- Looks at the next token, if none is kept. -/
def scan (stream : TokenStream α κ) : Except Fault (TokenStream α κ) :=
  match stream.ahead with
  | some _ => .ok stream
  | none =>
    match hpeek : stream.lexer.peek? with
    | .error fault => .error fault
    | .ok none => .ok stream
    | .ok (some token) =>
      .ok { lexer := stream.lexer, ahead := some token, peek?_ahead := by simpa using hpeek }

def hasNext (stream : TokenStream α κ) : Except Fault Bool × TokenStream α κ :=
  match stream.scan with
  | .error fault => (.error fault, stream)
  | .ok scanned => (.ok scanned.ahead.isSome, scanned)

def next (stream : TokenStream α κ) : Except Fault (Token κ) × TokenStream α κ :=
  match stream.scan with
  | .error fault => (.error fault, stream)
  | .ok scanned =>
    match scanned.ahead with
    | none => (.error .noToken, scanned)
    | some token => (.ok token, { lexer := scanned.lexer.advance token })

/-- Looking finds what the lexer has at its position, and changes nothing if that is nothing. -/
theorem scan_eq_ok {stream scanned : TokenStream α κ} (h : stream.scan = .ok scanned) :
    scanned.lexer = stream.lexer ∧ stream.lexer.peek? = .ok scanned.ahead ∧
      (scanned.ahead = none → scanned = stream) := by
  unfold scan at h
  split at h
  · next token hahead =>
    obtain rfl := Except.ok.inj h
    exact ⟨rfl, by rw [hahead]; exact stream.peek?_ahead token hahead, fun _ => rfl⟩
  · next hahead =>
    split at h
    · cases h
    · next hpeek =>
      obtain rfl := Except.ok.inj h
      exact ⟨rfl, by rw [hahead, hpeek], fun _ => rfl⟩
    · next token hpeek =>
      obtain rfl := Except.ok.inj h
      refine ⟨rfl, hpeek, ?_⟩
      intro hnone
      cases hnone

theorem scan_eq_error {stream : TokenStream α κ} {fault : Fault} (h : stream.scan = .error fault) :
    stream.lexer.peek? = .error fault := by
  unfold scan at h
  split at h
  · cases h
  · split at h
    · next hpeek =>
      cases h
      exact hpeek
    · cases h
    · cases h

theorem lexer_hasNext (stream : TokenStream α κ) : stream.hasNext.2.lexer = stream.lexer := by
  unfold hasNext
  split
  · rfl
  · next scanned hscan => exact (scan_eq_ok hscan).1

/-- Taking a token leaves less to hand out. -/
theorem next_measure {stream after : TokenStream α κ} {token : Token κ}
    (h : stream.next = (.ok token, after)) :
    after.lexer.text.length + 1 - after.lexer.index <
      stream.lexer.text.length + 1 - stream.lexer.index := by
  unfold next at h
  split at h
  · cases h
  · next scanned hscan =>
    obtain ⟨hlexer, hpeek, -⟩ := scan_eq_ok hscan
    split at h
    · cases h
    · next token' hahead =>
      cases h
      rw [hahead, ← hlexer] at hpeek
      rw [← hlexer]
      exact Lexer.advance_measure hpeek

def collect (stream : TokenStream α κ) : Except Fault (List (Token κ)) × TokenStream α κ :=
  match _hmore : stream.hasNext with
  | (.error fault, scanned) => (.error fault, scanned)
  | (.ok false, scanned) => (.ok [], scanned)
  | (.ok true, scanned) =>
    match _hnext : scanned.next with
    | (.error fault, after) => (.error fault, after)
    | (.ok token, after) =>
      let (tokens, final) := collect after
      (tokens.map (token :: ·), final)
termination_by stream.lexer.text.length + 1 - stream.lexer.index
decreasing_by
  have hlexer := stream.lexer_hasNext
  rw [_hmore] at hlexer
  rw [← hlexer]
  exact next_measure _hnext

theorem collect_of_false {stream scanned : TokenStream α κ} (h : stream.hasNext = (.ok false, scanned)) :
    stream.collect = (.ok [], scanned) := by
  rw [collect]
  split <;> simp_all

theorem collect_of_true {stream scanned after : TokenStream α κ} {token : Token κ}
    (h : stream.hasNext = (.ok true, scanned)) (hnext : scanned.next = (.ok token, after)) :
    stream.collect = (after.collect.1.map (token :: ·), after.collect.2) := by
  rw [collect]
  split
  · simp_all
  · simp_all
  · next scanned' hmore =>
    rw [h] at hmore
    cases hmore
    split <;> simp_all

def answer (stream : TokenStream α κ) : Request → Except Fault (Answer κ) × TokenStream α κ
  | .hasNext => (stream.hasNext.1.map .truth, stream.hasNext.2)
  | .next => (stream.next.1.map .token, stream.next.2)
  | .collect => (stream.collect.1.map .tokens, stream.collect.2)
  | .index => (.ok (.number stream.index), stream)
  | .remaining => (.ok (.number stream.remaining), stream)

def run (stream : TokenStream α κ) : List Request → List (Except Fault (Answer κ)) × TokenStream α κ
  | [] => ([], stream)
  | request :: requests =>
    let (given, after) := stream.answer request
    let (more, final) := after.run requests
    (given :: more, final)

theorem run_cons (stream : TokenStream α κ) (request : Request) (requests : List Request) :
    stream.run (request :: requests) = ((stream.answer request).1 ::
      ((stream.answer request).2.run requests).1, ((stream.answer request).2.run requests).2) :=
  rfl

end TokenStream
end TileSelect
