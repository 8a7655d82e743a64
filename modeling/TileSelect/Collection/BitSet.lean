import TileSelect.Fault

/-! # Bit sets

A set of natural numbers kept as 64-bit words, number `n` being bit `n % 64` of word `n / 64`.  The set grows
when a number past its last word is inserted, so its initial size only saves growing.  The number of initial
words is computed in 64-bit arithmetic: sizes just below `2 ^ 64` wrap around to no word at all. -/
namespace TileSelect

/-- A set of natural numbers. -/
structure BitSet where
  words : Array UInt64

namespace BitSet

def wordCount (size : Nat) : Nat := (size + 63) % 0x10000000000000000 / 64

/-- The largest number of words that can be asked for. -/
def maxWords : Nat := 0x200000000000

/-- The empty set with room for the numbers below `size`. -/
def ofSize (size : Nat) : BitSet := ⟨Array.replicate (wordCount size) 0⟩

/-- The empty set with room for the numbers below `size`, if there can be so much room. -/
def ofSize? (size : Nat) : Except Fault BitSet :=
  if maxWords < wordCount size then .error .outOfRange else .ok (ofSize size)

def bit (word : UInt64) (i : Nat) : Bool := word &&& ((1 : UInt64) <<< UInt64.ofNat i) != 0

def contains (set : BitSet) (n : Nat) : Bool :=
  match set.words[n / 64]? with
  | some word => bit word (n % 64)
  | none => false

/-- The words of the set and zeros, so that there is a word for `n`. -/
def wordsFor (set : BitSet) (n : Nat) : Array UInt64 :=
  set.words ++ Array.replicate (n / 64 + 1 - set.words.size) 0

/-- The set with a number added, and whether it is new.  Only asking for room has a limit: memory is taken to
last for as many words as the number needs. -/
def insert (set : BitSet) (n : Nat) : Bool × BitSet :=
  if set.contains n then (false, set)
  else (true, ⟨(set.wordsFor n).modify (n / 64) (· ||| ((1 : UInt64) <<< UInt64.ofNat (n % 64)))⟩)

def ones (word : UInt64) : Nat := (List.range 64).countP (bit word)

/-- The number of numbers in the set.  It is at most 64 for each word, so it needs no more than 64 bits as long as
there are fewer than `2 ^ 58` words, which no memory holds. -/
def count (set : BitSet) : Nat := set.words.toList.foldr (fun word total => ones word + total) 0

end BitSet
end TileSelect
