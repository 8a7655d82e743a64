import TileSelect.Fault

/-! # Spans

A span is a stretch of a text, from `start` up to and not including `stop`, in characters.  Positions are
integers because a span may also describe a place outside every text; the readers of this library only make
spans inside theirs.  `Span.make` refuses a span that ends before it starts. -/
namespace TileSelect

/-- A stretch of text, `start` included and `stop` excluded. -/
structure Span where
  start : Int
  stop : Int
  deriving DecidableEq, Repr

namespace Span

/-- A span whose end is not before its start. -/
def make (start stop : Int) : Except Fault Span :=
  if start ≤ stop then .ok ⟨start, stop⟩ else .error .invalidSpan

def between (start stop : Nat) : Span := ⟨start, stop⟩

def point (position : Nat) : Span := between position position

def length (s : Span) : Int := s.stop - s.start

theorem make_eq_ok_iff (start stop : Int) (s : Span) :
    make start stop = .ok s ↔ start ≤ stop ∧ s = ⟨start, stop⟩ := by
  unfold make
  split
  · next h => simp [h, eq_comm]
  · next h => simp [h]

end Span
end TileSelect
