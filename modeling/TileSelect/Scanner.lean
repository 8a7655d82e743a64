import TileSelect.Fault

/-! # Scanners

A scanner looks at the start of a text and answers how many items it accepts there, zero meaning that it rejects.
The items may be characters or anything else that can be compared.  The end of the text is accepted as one item
more than there is, which is why a sequence that goes on after it asks for text past the end; that is the only
fault a scanner has. -/
namespace TileSelect

/-- What a scanner looks for at the start of a text. -/
inductive Scanner (α : Type) where
  /-- Exactly these items. -/
  | unit (items : List α)
  /-- One item of a closed range. -/
  | within (low high : α)
  /-- Everything before the first occurrence of an item. -/
  | upTo (stop : α)
  /-- The end of the text, counted as one item. -/
  | endOfText
  /-- As many repetitions as there are. -/
  | many (part : Scanner α)
  /-- All of the parts at once; the longest of them counts. -/
  | every (parts : List (Scanner α))
  /-- The first of the parts that accepts. -/
  | either (parts : List (Scanner α))
  /-- The parts one after another. -/
  | sequence (parts : List (Scanner α))

namespace Scanner

variable {α : Type}

/-- Repeats a scan until it rejects or the text is used up. -/
def repeated (scan : List α → Except Fault Nat) (cs : List α) : Except Fault Nat :=
  match cs with
  | [] => .ok 0
  | c :: rest =>
    match scan (c :: rest) with
    | .error fault => .error fault
    | .ok 0 => .ok 0
    | .ok (n + 1) =>
      match repeated scan (rest.drop n) with
      | .error fault => .error fault
      | .ok m => .ok (n + 1 + m)
termination_by cs.length
decreasing_by simp only [List.length_drop, List.length_cons]; omega

variable [BEq α] [LE α] [DecidableLE α]

mutual

/-- The number of items accepted at the start of a text, zero for none. -/
def scan : Scanner α → List α → Except Fault Nat
  | unit items, cs => .ok (if items.isPrefixOf cs then items.length else 0)
  | within low high, cs =>
    match cs with
    | [] => .ok 0
    | c :: _ => .ok (if low ≤ c ∧ c ≤ high then 1 else 0)
  | upTo stop, cs => .ok (cs.takeWhile (· != stop)).length
  | endOfText, cs => .ok (if cs.isEmpty then 1 else 0)
  | many part, cs => repeated part.scan cs
  | every parts, cs => scanEvery parts cs 0
  | either parts, cs => scanEither parts cs
  | sequence parts, cs => scanSequence parts cs 0

/-- All parts accept; the longest of them and of `longest` counts. -/
def scanEvery : List (Scanner α) → List α → Nat → Except Fault Nat
  | [], _, longest => .ok longest
  | part :: parts, cs, longest => do
    let n ← part.scan cs
    if n = 0 then .ok 0 else scanEvery parts cs (max longest n)

def scanEither : List (Scanner α) → List α → Except Fault Nat
  | [], _ => .ok 0
  | part :: parts, cs => do
    let n ← part.scan cs
    if n = 0 then scanEither parts cs else .ok n

/-- The parts one after another, `used` items having been accepted before. -/
def scanSequence : List (Scanner α) → List α → Nat → Except Fault Nat
  | [], _, used => .ok used
  | part :: parts, cs, used =>
    if cs.length < used then .error .outOfRange
    else do
      let n ← part.scan (cs.drop used)
      if n = 0 then .ok 0 else scanSequence parts cs (used + n)

end

@[simp] theorem scan_unit (items cs : List α) :
    (unit items).scan cs = .ok (if items.isPrefixOf cs then items.length else 0) := rfl

@[simp] theorem scan_within_nil (low high : α) : (within low high).scan [] = .ok 0 := rfl

@[simp] theorem scan_within_cons (low high c : α) (cs : List α) :
    (within low high).scan (c :: cs) = .ok (if low ≤ c ∧ c ≤ high then 1 else 0) := rfl

@[simp] theorem scan_upTo (stop : α) (cs : List α) :
    (upTo stop).scan cs = .ok (cs.takeWhile (· != stop)).length := rfl

@[simp] theorem scan_endOfText (cs : List α) :
    (endOfText : Scanner α).scan cs = .ok (if cs.isEmpty then 1 else 0) := rfl

@[simp] theorem scan_many (part : Scanner α) (cs : List α) :
    (many part).scan cs = repeated part.scan cs := rfl

@[simp] theorem scan_every (parts : List (Scanner α)) (cs : List α) :
    (every parts).scan cs = scanEvery parts cs 0 := rfl

@[simp] theorem scan_either (parts : List (Scanner α)) (cs : List α) :
    (either parts).scan cs = scanEither parts cs := rfl

@[simp] theorem scan_sequence (parts : List (Scanner α)) (cs : List α) :
    (sequence parts).scan cs = scanSequence parts cs 0 := rfl

@[simp] theorem scanEvery_nil (cs : List α) (longest : Nat) : scanEvery [] cs longest = .ok longest := rfl

theorem scanEvery_cons (part : Scanner α) (parts : List (Scanner α)) (cs : List α) (longest : Nat) :
    scanEvery (part :: parts) cs longest = part.scan cs >>= fun n =>
      if n = 0 then .ok 0 else scanEvery parts cs (max longest n) := rfl

@[simp] theorem scanEither_nil (cs : List α) : scanEither [] cs = .ok 0 := rfl

theorem scanEither_cons (part : Scanner α) (parts : List (Scanner α)) (cs : List α) :
    scanEither (part :: parts) cs = part.scan cs >>= fun n =>
      if n = 0 then scanEither parts cs else .ok n := rfl

@[simp] theorem scanSequence_nil (cs : List α) (used : Nat) : scanSequence [] cs used = .ok used := rfl

theorem scanSequence_cons (part : Scanner α) (parts : List (Scanner α)) (cs : List α) (used : Nat) :
    scanSequence (part :: parts) cs used =
      if cs.length < used then .error .outOfRange
      else part.scan (cs.drop used) >>= fun n =>
        if n = 0 then .ok 0 else scanSequence parts cs (used + n) := rfl

end Scanner
end TileSelect
