import TileSelect.Proofs.SExprBalance
import TileSelect.Proofs.Utf8Decoding

/-! # Terms written and read back

Terms whose symbols can be told apart from what stands around them are read back from their text, whatever blanks
stand between them.  All terms that the reader gives are of this kind, so what was read once is read again from
its own text. -/
namespace TileSelect.SExpr

variable {μ : Type}

/-- A text that is read as one symbol: not empty, and with no character that ends a symbol. -/
def IsSymbol (text : String) : Prop := text ≠ "" ∧ ∀ c ∈ text.toList, endsSymbol c = false

instance : DecidablePred IsSymbol := fun text =>
  decidable_of_iff (text ≠ "" ∧ text.toList.any endsSymbol = false) (by simp [IsSymbol])

def Readable (term : SExpr μ) : Prop := ∀ part ∈ term.parts, ∀ text ∈ part.symbol?, IsSymbol text

instance : DecidablePred (@Readable μ) := fun term =>
  inferInstanceAs (Decidable (∀ part ∈ term.parts, ∀ text ∈ part.symbol?, IsSymbol text))

theorem readable_symbol {mark : μ} {text : String} :
    (symbol mark text).Readable ↔ IsSymbol text := by
  simp [Readable, symbol?]

theorem readable_list {mark : μ} {items : List (SExpr μ)} :
    (list mark items).Readable ↔ ∀ item ∈ items, item.Readable := by
  simp only [Readable, parts_list, List.mem_cons, List.mem_flatMap]
  constructor
  · intro h item hitem part hpart
    exact h part (.inr ⟨item, hitem, hpart⟩)
  · rintro h part (rfl | ⟨item, hitem, hpart⟩) text htext
    · cases htext
    · exact h item hitem part hpart text htext

/-- What holds of symbols, and of a list if it holds of its items, holds of every term. -/
theorem term_induction {P : SExpr μ → Prop} (hsymbol : ∀ mark text, P (.symbol mark text))
    (hlist : ∀ mark items, (∀ item ∈ items, P item) → P (.list mark items)) (term : SExpr μ) :
    P term := by
  match term with
  | .symbol mark text => exact hsymbol mark text
  | .list mark items =>
    exact hlist mark items fun item hitem => term_induction hsymbol hlist item

namespace Writes

theorem nil : Writes [] [] := by
  intro position rest _
  exact ⟨[], [], rfl, .nil, rfl⟩

theorem blanks {cs : List Char} {terms : List (SExpr Unit)} (h : Writes cs terms) {run : List Char}
    (hrun : ∀ c ∈ run, Text.isBlank c = true) : Writes (run ++ cs) terms := by
  induction run with
  | nil => exact h
  | cons c run ih =>
    have hrest := ih fun d hd => hrun d (List.mem_cons_of_mem c hd)
    exact hrest.blank (hrun c List.mem_cons_self)

theorem parseFile {cs : List Char} {terms : List (SExpr Unit)} (h : Writes cs terms) (name : String) :
    ∃ found, SExpr.parseFile ⟨name, cs⟩ = .ok found ∧ found.map unmarked = terms := by
  obtain ⟨found, hread, hfound⟩ := h.readAll
  refine ⟨found, ?_, hfound⟩
  rw [SExpr.parseFile, hread]
  rfl

end Writes

theorem delimited_blanks {run : List Char} (hrun : ∀ c ∈ run, Text.isBlank c = true) (hne : run ≠ [])
    (cs : List Char) : Delimited (run ++ cs) := by
  obtain ⟨c, run, rfl⟩ := List.exists_cons_of_ne_nil hne
  refine delimited_cons ?_ (run ++ cs)
  rw [endsSymbol, hrun c List.mem_cons_self, Bool.or_true]

theorem writes_items {items : List (SExpr μ)}
    (h : ∀ item ∈ items, Writes item.chars [item.unmarked]) :
    Writes (itemChars items) (items.map unmarked) := by
  induction items with
  | nil => exact .nil
  | cons item items ih =>
    have hitem := h item List.mem_cons_self
    have hitems := ih fun other hother => h other (List.mem_cons_of_mem item hother)
    cases items with
    | nil => exact hitem
    | cons next items =>
      have hspace : endsSymbol ' ' = true := by decide
      exact hitem.append (hitems.blank (c := ' ') (by decide)) (delimited_cons hspace _)

theorem writes_chars {term : SExpr μ} (h : term.Readable) : Writes term.chars [term.unmarked] := by
  induction term using term_induction with
  | hsymbol mark text =>
    obtain ⟨hne, hplain⟩ := readable_symbol.mp h
    have hwrites : Writes text.toList [.symbol () (String.ofList text.toList)] := by
      refine .symbol (by simpa using hne) ?_
      rw [List.any_eq_false]
      intro c hc
      rw [hplain c hc]
      exact Bool.false_ne_true
    rwa [String.ofList_toList] at hwrites
  | hlist mark items ih =>
    have hitems := writes_items fun item hitem => ih item hitem (readable_list.mp h item hitem)
    rw [unmarked_list]
    exact hitems.list

/-- The text of terms one after another, with blanks between any two of them. -/
inductive Spaced : List (SExpr μ) → List Char → Prop
  | nil : Spaced [] []
  | one (term : SExpr μ) : Spaced [term] term.render.toList
  | cons (term : SExpr μ) {blanks : List Char} (hne : blanks ≠ [])
      (hblank : ∀ c ∈ blanks, Text.isBlank c = true) {next : SExpr μ} {terms : List (SExpr μ)}
      {cs : List Char} (more : Spaced (next :: terms) cs) :
      Spaced (term :: next :: terms) (term.render.toList ++ (blanks ++ cs))

theorem toList_render (term : SExpr μ) : term.render.toList = term.chars := String.toList_ofList

theorem Spaced.writes {terms : List (SExpr μ)} {cs : List Char} (h : Spaced terms cs)
    (hterms : ∀ term ∈ terms, term.Readable) : Writes cs (terms.map unmarked) := by
  induction h with
  | nil => exact .nil
  | one term =>
    rw [toList_render]
    exact writes_chars (hterms term List.mem_cons_self)
  | cons term hne hblank more ih =>
    have hterm := writes_chars (hterms term List.mem_cons_self)
    have hmore := ih fun other hother => hterms other (List.mem_cons_of_mem term hother)
    rw [toList_render]
    exact hterm.append (hmore.blanks hblank) (delimited_blanks hblank hne _)

/-- Terms with blanks between them are read back from the bytes of their text. -/
theorem parseFile_spaced {terms : List (SExpr μ)} {cs : List Char} (h : Spaced terms cs)
    (hterms : ∀ term ∈ terms, term.Readable) (name : String) :
    ∃ found, parseFile ⟨name, Text.decode (Text.encode cs)⟩ = .ok found ∧
      found.map unmarked = terms.map unmarked := by
  rw [Text.decode_encode]
  exact (h.writes hterms).parseFile name

theorem isSymbol_of_mem_lexemes {position start : Nat} {cs text : List Char}
    (h : .word start text ∈ lexemes position cs) : IsSymbol (String.ofList text) := by
  fun_induction lexemes position cs with
  | case1 => cases h
  | case2 position rest ih | case3 position rest hleft ih =>
    rcases List.mem_cons.mp h with h | h
    · cases h
    · exact ih h
  | case4 position rest hleft hright ih => exact ih h
  | case5 position c rest hleft hright hcomment hblank ih => exact ih h
  | case6 position c rest hleft hright hcomment hblank tail ih =>
    rcases List.mem_cons.mp h with h | h
    · cases h
      refine ⟨by simp, fun d hd => ?_⟩
      rw [String.toList_ofList] at hd
      rcases List.mem_cons.mp hd with rfl | hd
      · simp [endsSymbol, hleft, hright, hcomment, hblank]
      · have hplain : (!endsSymbol d) = true := List.mem_takeWhile_imp (p := (!endsSymbol ·)) hd
        simpa using hplain
    · exact ih h

theorem Spelled.readable {terms : List (SExpr Span)} {lexemes : List Lexeme}
    (h : Spelled terms lexemes)
    (hwords : ∀ start text, .word start text ∈ lexemes → IsSymbol (String.ofList text)) :
    ∀ term ∈ terms, term.Readable := by
  induction h with
  | nil => simp
  | word start text _ ih =>
    refine List.forall_mem_cons.mpr ⟨?_, ih fun start' text' hmem => ?_⟩
    · exact readable_symbol.mpr (hwords start text List.mem_cons_self)
    · exact hwords start' text' (List.mem_cons_of_mem _ hmem)
  | list start stop _ _ ihitems ih =>
    refine List.forall_mem_cons.mpr ⟨readable_list.mpr (ihitems fun start' text' hmem => ?_),
      ih fun start' text' hmem => ?_⟩
    · exact hwords start' text' (List.mem_cons_of_mem _ (List.mem_append_left _ hmem))
    · exact hwords start' text'
        (List.mem_cons_of_mem _ (List.mem_append_right _ (List.mem_cons_of_mem _ hmem)))

theorem readable_of_parseFile {file : File} {terms : List (SExpr Span)}
    (h : parseFile file = .ok terms) : ∀ term ∈ terms, term.Readable :=
  (parseFile_eq_ok_iff.mp h).readable fun _ _ => isSymbol_of_mem_lexemes

/-- Writing terms out and reading them are inverse to each other.  Terms without empty symbols and without
symbols that hold a parenthesis, a semicolon or a blank are read back as they were from the bytes of their text,
with any blanks between them.  Every term that is read is of this kind, so it is read again from its own text. -/
theorem parseFile_render (name : String) :
    (∀ (terms : List (SExpr μ)) (cs : List Char), (∀ term ∈ terms, term.Readable) → Spaced terms cs →
      ∃ found, parseFile ⟨name, Text.decode (Text.encode cs)⟩ = .ok found ∧
        found.map unmarked = terms.map unmarked) ∧
    ∀ file terms, parseFile file = .ok terms →
      (∀ term ∈ terms, ∀ part ∈ term.parts, ∀ text ∈ part.symbol?,
        text ≠ "" ∧ ∀ c ∈ text.toList, c ≠ '(' ∧ c ≠ ')' ∧ c ≠ ';' ∧ Text.isBlank c = false) ∧
      ∀ cs, Spaced terms cs → ∃ again, parseFile ⟨name, Text.decode (Text.encode cs)⟩ = .ok again ∧
        again.map unmarked = terms.map unmarked := by
  refine ⟨fun terms cs hterms hspaced => parseFile_spaced hspaced hterms name,
    fun file terms hparse => ?_⟩
  have hreadable := readable_of_parseFile hparse
  refine ⟨fun term hterm part hpart text htext => ?_, fun cs hspaced =>
    parseFile_spaced hspaced hreadable name⟩
  obtain ⟨hne, hplain⟩ := hreadable term hterm part hpart text htext
  refine ⟨hne, fun c hc => ?_⟩
  simpa [endsSymbol, and_assoc] using hplain c hc

/-- An empty list inside a list is read back, as is what stood around a comment. -/
theorem parseFile_render_nested :
    (∃ found, parseFile ⟨"", Text.decode (Text.encode "(a () (b c))\t\n d".toList)⟩ = .ok found ∧
      found.map unmarked = [.list () [.symbol () "a", .list () [],
        .list () [.symbol () "b", .symbol () "c"]], .symbol () "d"]) ∧
    ∃ terms, parseFile ⟨"", "a;(\n(b)".toList⟩ = .ok terms ∧ ∃ again,
      parseFile ⟨"", Text.decode (Text.encode "a  (b)".toList)⟩ = .ok again ∧
        again.map unmarked = terms.map unmarked := by
  constructor
  · refine (parseFile_render "").1 [.list () [.symbol () "a", .list () [],
      .list () [.symbol () "b", .symbol () "c"]], .symbol () "d"] _ (by decide) ?_
    exact .cons _ (by decide : "\t\n ".toList ≠ []) (List.all_eq_true.mp (by decide)) (.one _)
  · have hlexemes : lexemes 0 "a;(\n(b)".toList =
        [.word 0 ['a'], .left 4, .word 5 ['b'], .right 6] := by
      decide +kernel
    have hparse : parseFile ⟨"", "a;(\n(b)".toList⟩ = .ok
        [.symbol (Span.between 0 1) "a", .list (Span.between 4 7) [.symbol (Span.between 5 6) "b"]] := by
      rw [parseFile_eq_ok_iff, hlexemes]
      exact .word 0 ['a'] (.list 4 6 (.word 5 ['b'] .nil) .nil)
    refine ⟨_, hparse, ((@parseFile_render Unit "").2 _ _ hparse).2 _ ?_⟩
    exact .cons _ (by decide : "  ".toList ≠ []) (List.all_eq_true.mp (by decide)) (.one _)

end TileSelect.SExpr
