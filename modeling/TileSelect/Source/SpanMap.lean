import TileSelect.Source.SyntaxError

/-! # Span maps

Where the items of a file stand in it: one span for each key, in the order they were recorded.  A key is
recorded once; asking for an unrecorded key is a fault. -/
namespace TileSelect

/-- The spans of the items of a file. -/
structure SpanMap (κ : Type) where
  file : File
  entries : List (κ × Span)

namespace SpanMap

variable {κ : Type} [BEq κ]

def empty (file : File) : SpanMap κ := ⟨file, []⟩

def get? (map : SpanMap κ) (key : κ) : Option Span := map.entries.lookup key

def contains (map : SpanMap κ) (key : κ) : Bool := (map.get? key).isSome

def get [ToString κ] (map : SpanMap κ) (key : κ) : Except Fault Span :=
  match map.get? key with
  | some span => .ok span
  | none => .error (.spanMissing (toString key))

/-- Records the span of a new key. -/
def put [ToString κ] (map : SpanMap κ) (key : κ) (span : Span) : Except Fault (SpanMap κ) :=
  if map.contains key then .error (.spanTaken (toString key))
  else .ok { map with entries := map.entries ++ [(key, span)] }

def syntaxError [ToString κ] (map : SpanMap κ) (key : κ) (message : String) :
    Except Fault SyntaxError := do
  let span ← map.get key
  .ok ⟨map.file, span, message⟩

def syntaxError? (map : SpanMap κ) (key : κ) (message : String) : Option SyntaxError :=
  (map.get? key).map fun span => ⟨map.file, span, message⟩

variable [LawfulBEq κ]

theorem get?_eq_none {map : SpanMap κ} {key : κ} (h : key ∉ map.entries.map Prod.fst) :
    map.get? key = none := by
  rw [get?, List.lookup_eq_none_iff]
  intro entry hentry
  rw [bne_iff_ne]
  rintro rfl
  exact h (List.mem_map_of_mem hentry)

theorem put_eq_ok [ToString κ] {map : SpanMap κ} {key : κ} (h : key ∉ map.entries.map Prod.fst) (span : Span) :
    map.put key span = .ok { map with entries := map.entries ++ [(key, span)] } := by
  rw [put, contains, get?_eq_none h]
  rfl

omit [LawfulBEq κ] in
/-- An entry at the end is found if no other one has its key. -/
theorem get?_concat (map : SpanMap κ) (key key' : κ) (span : Span) :
    get? { map with entries := map.entries ++ [(key, span)] } key' =
      (map.get? key').or (if key' == key then some span else none) := by
  rw [get?, List.lookup_append, List.lookup_cons, List.lookup_nil, get?]
  cases key' == key <;> rfl

end SpanMap
end TileSelect
