import TileSelect.SExpr.Reader
import TileSelect.Source.SpanMap

/-! # Terms with their spans on record

Terms can be told apart without their spans: each one gets a number of its own when it is complete, and its span is
recorded under that number.  A list is complete after its items.  To record a span under a number that is taken is
a fault, as is a span that ends before it starts. -/
namespace TileSelect.SExpr

/-- Why terms are not recorded: the text is malformed, or a span is refused. -/
inductive Failure where
  | malformed (error : Located ReadError)
  | fault (fault : Fault)
  deriving DecidableEq

/-- A list that is still open: where it starts and its items so far, by number. -/
structure Unfinished where
  start : Nat
  items : List (SExpr Nat)

structure Recorder where
  spans : SpanMap Nat
  /-- The number that the next term gets. -/
  next : Nat
  /-- The lists that are still open, innermost first. -/
  stack : List Unfinished
  /-- The terms that are complete and inside no other. -/
  terms : List (SExpr Nat)

namespace Recorder

def ofFile (file : File) : Recorder := ⟨.empty file, 0, [], []⟩

/-- Adds a complete term to the innermost open list, or to the terms if none is open. -/
def add (recorder : Recorder) (term : SExpr Nat) : Recorder :=
  match recorder.stack with
  | [] => { recorder with terms := recorder.terms ++ [term] }
  | inner :: stack => { recorder with stack := { inner with items := inner.items ++ [term] } :: stack }

/-- Numbers a term that is now complete and records its span. -/
def finish (recorder : Recorder) (start stop : Nat) (term : Nat → SExpr Nat) : Except Failure Recorder := do
  let span ← (Span.make start stop).mapError .fault
  let spans ← (recorder.spans.put recorder.next span).mapError .fault
  .ok ({ recorder with spans, next := recorder.next + 1 }.add (term recorder.next))

def step (recorder : Recorder) : Lexeme → Except Failure Recorder
  | .left start => .ok { recorder with stack := ⟨start, []⟩ :: recorder.stack }
  | .right start =>
    match recorder.stack with
    | [] => .error (.malformed ⟨Span.between start (start + 1), .unopened⟩)
    | inner :: stack => finish { recorder with stack } inner.start (start + 1) (.list · inner.items)
  | .word start text => recorder.finish start (start + text.length) (.symbol · (String.ofList text))

def conclude (recorder : Recorder) (length : Nat) : Except Failure (List (SExpr Nat) × SpanMap Nat) :=
  match recorder.stack with
  | [] => .ok (recorder.terms, recorder.spans)
  | _ :: _ => .error (.malformed ⟨Span.point length, .unclosed⟩)

end Recorder

/-- All terms of a file by number, and the spans of the numbers. -/
def record (file : File) : Except Failure (List (SExpr Nat) × SpanMap Nat) := do
  let recorder ← (lexemes 0 file.contents).foldlM Recorder.step (.ofFile file)
  recorder.conclude file.contents.length

end TileSelect.SExpr
