import TileSelect.SExpr.Reader

/-! # Terms from their text

Which lexemes spell which terms, and which characters write them.  The reader puts lexemes together as they
are spelled.  What characters write does not depend on where they stand, as long as a symbol at their end is
not continued by what follows, so texts are put together from their parts. -/
namespace TileSelect.SExpr

variable {μ : Type}

mutual

def unmarked : SExpr μ → SExpr Unit
  | symbol _ text => .symbol () text
  | list _ items => .list () (unmarkedItems items)

def unmarkedItems : List (SExpr μ) → List (SExpr Unit)
  | [] => []
  | item :: items => item.unmarked :: unmarkedItems items

end

theorem unmarkedItems_eq_map (items : List (SExpr μ)) : unmarkedItems items = items.map unmarked := by
  induction items with
  | nil => rfl
  | cons item items ih => rw [unmarkedItems, ih, List.map_cons]

@[simp] theorem unmarked_symbol (mark : μ) (text : String) :
    (symbol mark text).unmarked = .symbol () text := rfl

@[simp] theorem unmarked_list (mark : μ) (items : List (SExpr μ)) :
    (list mark items).unmarked = .list () (items.map unmarked) := by
  rw [unmarked, unmarkedItems_eq_map]

/-- The lexemes are those of the terms, each where its mark says. -/
inductive Spelled : List (SExpr Span) → List Lexeme → Prop
  | nil : Spelled [] []
  | word (start : Nat) (text : List Char) {terms : List (SExpr Span)} {lexemes : List Lexeme}
      (more : Spelled terms lexemes) :
      Spelled (.symbol (Span.between start (start + text.length)) (String.ofList text) :: terms)
        (.word start text :: lexemes)
  | list (start stop : Nat) {items terms : List (SExpr Span)} {inside lexemes : List Lexeme}
      (within : Spelled items inside) (more : Spelled terms lexemes) :
      Spelled (.list (Span.between start (stop + 1)) items :: terms)
        (.left start :: (inside ++ .right stop :: lexemes))

namespace Spelled

variable {terms terms' : List (SExpr Span)} {lexemes lexemes' : List Lexeme}

theorem append (h : Spelled terms lexemes) (h' : Spelled terms' lexemes') :
    Spelled (terms ++ terms') (lexemes ++ lexemes') := by
  induction h with
  | nil => exact h'
  | word start text _ ih => exact .word start text ih
  | list start stop within _ _ ih =>
    rw [List.cons_append, List.cons_append, List.append_assoc, List.cons_append]
    exact .list start stop within ih

/-- Inside a list, the terms become its next items. -/
theorem readInside (h : Spelled terms lexemes) (length : Nat) (inner : OpenList) (stack : List OpenList)
    (rest : List Lexeme) :
    readInside length (inner :: stack) (lexemes ++ rest) =
      readInside length ({ inner with items := inner.items ++ terms } :: stack) rest := by
  induction h generalizing inner stack rest with
  | nil => rw [List.append_nil, List.nil_append]
  | word start text _ ih =>
    rw [List.cons_append, SExpr.readInside, ih]
    simp
  | list start stop _ _ ihinside ih =>
    rw [List.cons_append, SExpr.readInside, List.append_assoc, ihinside, List.cons_append,
      SExpr.readInside, ih]
    simp

theorem readLexemes (h : Spelled terms lexemes) (length : Nat) :
    readLexemes length lexemes = .ok terms := by
  induction h with
  | nil =>
    rw [SExpr.readLexemes]
    rfl
  | word start text _ ih =>
    rw [readLexemes_of_term (by rw [SExpr.readInside]), ih]
    rfl
  | @list start stop items terms inside lexemes within _ _ ih =>
    have hread := within.readInside length ⟨start, []⟩ [] (.right stop :: lexemes)
    rw [SExpr.readInside, List.nil_append] at hread
    rw [readLexemes_of_term (by rw [SExpr.readInside, hread]), ih]
    rfl

end Spelled

/-- Does a symbol before these characters end there? -/
def Delimited (cs : List Char) : Prop := ∀ c ∈ cs.head?, endsSymbol c = true

theorem delimited_nil : Delimited [] := by simp [Delimited]

theorem delimited_cons {c : Char} (h : endsSymbol c = true) (cs : List Char) : Delimited (c :: cs) := by
  simpa [Delimited] using h

namespace Delimited

variable {cs rest : List Char}

theorem append (hcs : Delimited cs) (hrest : Delimited rest) : Delimited (cs ++ rest) := by
  cases cs with
  | nil => exact hrest
  | cons c cs => exact hcs

theorem takeWhile_eq_nil (h : Delimited cs) : cs.takeWhile (!endsSymbol ·) = [] := by
  cases cs with
  | nil => rfl
  | cons c cs => simp [h c rfl]

end Delimited

/-- Do these characters write the terms, wherever they stand? -/
def Writes (cs : List Char) (terms : List (SExpr Unit)) : Prop :=
  ∀ position rest, Delimited rest → ∃ found inside,
    lexemes position (cs ++ rest) = inside ++ lexemes (position + cs.length) rest ∧
      Spelled found inside ∧ found.map unmarked = terms

/-- A text is read as what it writes. -/
theorem Writes.readAll {cs : List Char} {terms : List (SExpr Unit)} (h : Writes cs terms) :
    ∃ found, readAll cs = .ok found ∧ found.map unmarked = terms := by
  obtain ⟨found, inside, hlexemes, hspelled, hfound⟩ := h 0 [] delimited_nil
  have hend : lexemes (0 + cs.length) [] = [] := by rw [lexemes]
  rw [hend, List.append_nil, List.append_nil] at hlexemes
  refine ⟨found, ?_, hfound⟩
  rw [SExpr.readAll, hlexemes, hspelled.readLexemes]

theorem lexemes_left (position : Nat) (cs : List Char) :
    lexemes position ('(' :: cs) = .left position :: lexemes (position + 1) cs := by
  rw [lexemes, if_pos rfl]

theorem lexemes_right (position : Nat) (cs : List Char) :
    lexemes position (')' :: cs) = .right position :: lexemes (position + 1) cs := by
  rw [lexemes, if_neg (by decide), if_pos rfl]

theorem lexemes_blank {c : Char} (h : Text.isBlank c = true) (position : Nat) (cs : List Char) :
    lexemes position (c :: cs) = lexemes (position + 1) cs := by
  have hne : ∀ d, Text.isBlank d = false → c ≠ d := by
    rintro d hd rfl
    rw [h] at hd
    cases hd
  rw [lexemes, if_neg (hne '(' (by decide)), if_neg (hne ')' (by decide)), if_neg (hne ';' (by decide)),
    if_pos h]

theorem lexemes_word {text rest : List Char} (hne : text ≠ []) (h : text.any endsSymbol = false)
    (hrest : Delimited rest) (position : Nat) :
    lexemes position (text ++ rest) = .word position text :: lexemes (position + text.length) rest := by
  obtain ⟨c, tail, rfl⟩ := List.exists_cons_of_ne_nil hne
  obtain ⟨hc, htail⟩ := Bool.or_eq_false_iff.mp h
  have htake : (tail ++ rest).takeWhile (!endsSymbol ·) = tail := by
    rw [List.takeWhile_append_of_pos (by simpa using htail),
      hrest.takeWhile_eq_nil, List.append_nil]
  have hdrop : (tail ++ rest).dropWhile (!endsSymbol ·) = rest := by
    have hwhole := List.takeWhile_append_dropWhile (p := (!endsSymbol ·)) (l := tail ++ rest)
    rw [htake] at hwhole
    exact List.append_cancel_left hwhole
  simp only [endsSymbol, Bool.or_eq_false_iff, beq_eq_false_iff_ne] at hc
  obtain ⟨⟨⟨hleft, hright⟩, hcomment⟩, hblank⟩ := hc
  rw [List.cons_append, lexemes, if_neg hleft, if_neg hright, if_neg hcomment,
    if_neg (Bool.not_eq_true _ ▸ hblank)]
  simp only [htake, hdrop, List.length_cons, Nat.add_assoc, Nat.add_comm 1]

namespace Writes

variable {cs cs' : List Char} {terms terms' : List (SExpr Unit)}

/-- A symbol is written as it is. -/
theorem symbol {text : List Char} (hne : text ≠ []) (h : text.any endsSymbol = false) :
    Writes text [.symbol () (String.ofList text)] := by
  intro position rest hrest
  exact ⟨_, _, lexemes_word hne h hrest position, .word position text .nil, rfl⟩

theorem blank {c : Char} (hc : Text.isBlank c = true) (h : Writes cs terms) : Writes (c :: cs) terms := by
  intro position rest hrest
  obtain ⟨found, inside, hlexemes, hspelled, hfound⟩ := h (position + 1) rest hrest
  refine ⟨found, inside, ?_, hspelled, hfound⟩
  rw [List.cons_append, lexemes_blank hc, hlexemes, List.length_cons, Nat.add_assoc, Nat.add_comm 1]

/-- Parts are written one after another if a symbol at the end of the first ends there. -/
theorem append (h : Writes cs terms) (h' : Writes cs' terms') (hcs : Delimited cs') :
    Writes (cs ++ cs') (terms ++ terms') := by
  intro position rest hrest
  obtain ⟨found, inside, hlexemes, hspelled, hfound⟩ := h position (cs' ++ rest) (hcs.append hrest)
  obtain ⟨found', inside', hlexemes', hspelled', hfound'⟩ := h' (position + cs.length) rest hrest
  refine ⟨found ++ found', inside ++ inside', ?_, hspelled.append hspelled', ?_⟩
  · rw [List.append_assoc, hlexemes, hlexemes', List.append_assoc, List.length_append, Nat.add_assoc]
  · rw [List.map_append, hfound, hfound']

theorem list (h : Writes cs terms) : Writes ('(' :: cs ++ [')']) [.list () terms] := by
  intro position rest hrest
  obtain ⟨found, inside, hlexemes, hspelled, hfound⟩ :=
    h (position + 1) (')' :: rest) (delimited_cons rfl rest)
  refine ⟨_, _, ?_, .list position (position + 1 + cs.length) hspelled .nil, ?_⟩
  · rw [List.cons_append, List.cons_append, List.append_assoc, List.singleton_append, lexemes_left,
      hlexemes, lexemes_right]
    have hlength : position + (cs.length + 1 + 1) = position + 1 + cs.length + 1 := by omega
    simp [hlength]
  · simp [hfound]

end Writes
end TileSelect.SExpr
