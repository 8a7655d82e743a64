import Mathlib.Data.List.Perm.Basic
import TileSelect.SExpr.Record
import TileSelect.Proofs.SExprPrinting

/-! # Recorded terms

Recording the terms of a file and reading them come to the same.  If the text is malformed, both stop with the same
error.  If it is not, every term that is read has a number, no two of them have the same one, and the span on record
for the number is the mark of the term.  No span is ever refused. -/
namespace TileSelect.SExpr

variable {μ ν : Type}

mutual

def mapMark (f : μ → ν) : SExpr μ → SExpr ν
  | symbol mark text => .symbol (f mark) text
  | list mark items => .list (f mark) (mapItems f items)

def mapItems (f : μ → ν) : List (SExpr μ) → List (SExpr ν)
  | [] => []
  | item :: items => item.mapMark f :: mapItems f items

end

theorem mapItems_eq_map (f : μ → ν) (items : List (SExpr μ)) :
    mapItems f items = items.map (mapMark f) := by
  induction items with
  | nil => rfl
  | cons item items ih => rw [mapItems, ih, List.map_cons]

@[simp] theorem mapMark_symbol (f : μ → ν) (mark : μ) (text : String) :
    (symbol mark text).mapMark f = .symbol (f mark) text := rfl

@[simp] theorem mapMark_list (f : μ → ν) (mark : μ) (items : List (SExpr μ)) :
    (list mark items).mapMark f = .list (f mark) (items.map (mapMark f)) := by
  rw [mapMark, mapItems_eq_map]

@[simp] theorem mark_mapMark (f : μ → ν) (term : SExpr μ) : (term.mapMark f).mark = f term.mark := by
  cases term <;> rfl

theorem symbol?_mapMark (f : μ → ν) (term : SExpr μ) : (term.mapMark f).symbol? = term.symbol? := by
  cases term <;> rfl

theorem mapMark_eq_symbol {f : μ → ν} {term : SExpr μ} {mark : ν} {text : String}
    (h : term.mapMark f = .symbol mark text) : ∃ inner, term = .symbol inner text := by
  cases term with
  | symbol inner text' =>
    obtain ⟨-, rfl⟩ := SExpr.symbol.inj h
    exact ⟨inner, rfl⟩
  | list inner items => cases h

theorem mapMark_eq_list {f : μ → ν} {term : SExpr μ} {mark : ν} {items : List (SExpr ν)}
    (h : term.mapMark f = .list mark items) :
    ∃ inner found, term = .list inner found ∧ found.map (mapMark f) = items := by
  cases term with
  | symbol inner text => cases h
  | list inner found =>
    rw [mapMark_list] at h
    exact ⟨inner, found, rfl, (SExpr.list.inj h).2⟩

theorem parts_mapMark (f : μ → ν) (term : SExpr μ) :
    (term.mapMark f).parts = term.parts.map (mapMark f) := by
  induction term using term_induction with
  | hsymbol mark text => rfl
  | hlist mark items ih =>
    rw [mapMark_list, parts_list, parts_list, List.map_cons, mapMark_list, List.flatMap_map,
      List.map_flatMap]
    congr 1
    exact List.flatMap_congr ih

theorem mapMark_congr {f g : μ → ν} {term : SExpr μ} (h : ∀ part ∈ term.parts, f part.mark = g part.mark) :
    term.mapMark f = term.mapMark g := by
  induction term using term_induction with
  | hsymbol mark text =>
    have hmark := h (.symbol mark text) (by simp)
    rw [mapMark_symbol, mapMark_symbol]
    exact congrArg (SExpr.symbol · text) hmark
  | hlist mark items ih =>
    rw [parts_list] at h
    have hmark := h _ List.mem_cons_self
    have hitems : items.map (mapMark f) = items.map (mapMark g) := by
      refine List.map_congr_left fun item hitem => ih item hitem fun part hpart => ?_
      exact h part (List.mem_cons_of_mem _ (List.mem_flatMap.mpr ⟨item, hitem, hpart⟩))
    rw [mapMark_list, mapMark_list, hitems]
    exact congrArg (SExpr.list · _) hmark

/-- Terms by number stand for terms with spans, by what is on record for the numbers. -/
def Stands (spans : SpanMap Nat) (numbered : List (SExpr Nat)) (terms : List (SExpr Span)) : Prop :=
  numbered.map (mapMark spans.get?) = terms.map (mapMark some)

theorem Stands.append {spans : SpanMap Nat} {numbered numbered' : List (SExpr Nat)}
    {terms terms' : List (SExpr Span)} (h : Stands spans numbered terms)
    (h' : Stands spans numbered' terms') : Stands spans (numbered ++ numbered') (terms ++ terms') := by
  rw [Stands, List.map_append, List.map_append, h, h']

/-- What stands for terms goes on doing so when more is recorded. -/
theorem Stands.of_extends {spans spans' : SpanMap Nat} {numbered : List (SExpr Nat)}
    {terms : List (SExpr Span)} (h : Stands spans numbered terms)
    (hextends : ∀ key span, spans.get? key = some span → spans'.get? key = some span) :
    Stands spans' numbered terms := by
  rw [Stands, ← h]
  refine List.map_congr_left fun term hterm => mapMark_congr fun part hpart => ?_
  -- the number of a part is on record, since the term stands for one in which every part has a span
  have hmem : part.mapMark spans.get? ∈ (terms.map (mapMark some)).flatMap parts := by
    rw [← h, List.flatMap_map]
    refine List.mem_flatMap.mpr ⟨term, hterm, ?_⟩
    rw [parts_mapMark]
    exact List.mem_map_of_mem hpart
  obtain ⟨found, hfound, hpart'⟩ := List.mem_flatMap.mp hmem
  obtain ⟨marked, -, rfl⟩ := List.mem_map.mp hfound
  rw [parts_mapMark] at hpart'
  obtain ⟨inside, -, hinside⟩ := List.mem_map.mp hpart'
  have hmark := congrArg mark hinside
  rw [mark_mapMark, mark_mapMark] at hmark
  rw [hextends _ _ hmark.symm, hmark]

namespace Recorder

/-- The terms that are complete, inside open lists or not. -/
def held (recorder : Recorder) : List (SExpr Nat) :=
  recorder.stack.flatMap Unfinished.items ++ recorder.terms

theorem held_add (recorder : Recorder) (term : SExpr Nat) :
    (recorder.add term).held.Perm (term :: recorder.held) := by
  obtain ⟨spans, next, stack, terms⟩ := recorder
  cases stack with
  | nil => exact List.perm_append_singleton term terms
  | cons inner stack =>
    simp only [add, held, List.flatMap_cons, List.append_assoc, List.singleton_append]
    exact List.perm_middle

/-- The recorder is where reading is: it holds the terms that are done and the lists that are open, and its terms and
the loose ones, which are complete but in no place yet, have all numbers that were given. -/
structure Mirrors (file : File) (position : Nat) (loose : List (SExpr Nat)) (done : List (SExpr Span))
    (stack : List OpenList) (recorder : Recorder) : Prop where
  file : recorder.spans.file = file
  keys : recorder.spans.entries.map Prod.fst = List.range recorder.next
  numbers : (((loose ++ recorder.held).flatMap parts).map mark).Perm (List.range recorder.next)
  terms : Stands recorder.spans recorder.terms done
  stack : List.Forall₂ (fun (inner : Unfinished) (outer : OpenList) => inner.start = outer.start ∧
    inner.start ≤ position ∧ Stands recorder.spans inner.items outer.items) recorder.stack stack

variable {file : File} {position start stop length : Nat} {loose : List (SExpr Nat)}
  {done : List (SExpr Span)} {stack : List OpenList} {recorder : Recorder}

theorem Mirrors.of_le (h : Mirrors file position loose done stack recorder) {position' : Nat}
    (hle : position ≤ position') : Mirrors file position' loose done stack recorder :=
  ⟨h.file, h.keys, h.numbers, h.terms,
    h.stack.imp fun _ _ hinner => ⟨hinner.1, Nat.le_trans hinner.2.1 hle, hinner.2.2⟩⟩

/-- A term made of the loose ones gets a number that was not given before. -/
theorem Mirrors.finish (h : Mirrors file position loose done stack recorder) (hle : start ≤ stop)
    (term : Nat → SExpr Nat)
    (hparts : (term recorder.next).parts.map mark = recorder.next :: (loose.flatMap parts).map mark) :
    ∃ spans : SpanMap Nat,
      recorder.finish start stop term =
        .ok (add { recorder with spans, next := recorder.next + 1 } (term recorder.next)) ∧
      spans.get? recorder.next = some (Span.between start stop) ∧
      (∀ key span, recorder.spans.get? key = some span → spans.get? key = some span) ∧
      Mirrors file position [term recorder.next] done stack
        { recorder with spans, next := recorder.next + 1 } := by
  have hfresh : recorder.next ∉ recorder.spans.entries.map Prod.fst := by
    rw [h.keys, List.mem_range]
    exact Nat.lt_irrefl _
  have hextends : ∀ key span, recorder.spans.get? key = some span → SpanMap.get?
      { recorder.spans with entries := recorder.spans.entries ++ [(recorder.next, Span.between start stop)] }
        key = some span := by
    intro key span hkey
    rw [SpanMap.get?_concat, hkey, Option.some_or]
  have hmake : Span.make start stop = .ok (Span.between start stop) :=
    (Span.make_eq_ok_iff _ _ _).mpr ⟨Int.ofNat_le.mpr hle, rfl⟩
  refine ⟨_, ?_, ?_, hextends, h.file, ?_, ?_, h.terms.of_extends hextends, ?_⟩
  · have hput := SpanMap.put_eq_ok hfresh (Span.between start stop)
    simp only [Recorder.finish, hmake, hput, Except.mapError, Result.ok_bind]
  · rw [SpanMap.get?_concat, SpanMap.get?_eq_none hfresh, beq_self_eq_true, if_pos rfl, Option.none_or]
  · rw [List.map_append, h.keys, List.range_succ]
    rfl
  · rw [List.flatMap_append, List.flatMap_singleton, List.map_append, hparts, List.range_succ]
    have hnumbers := h.numbers
    rw [List.flatMap_append, List.map_append] at hnumbers
    exact (hnumbers.cons recorder.next).trans (List.perm_append_singleton _ _).symm
  · exact h.stack.imp fun _ _ hinner => ⟨hinner.1, hinner.2.1, hinner.2.2.of_extends hextends⟩

/-- What recording comes to where reading comes to this, after the terms that are done. -/
def Recorded (file : File) (done : List (SExpr Span)) :
    Except (Located ReadError) (List (SExpr Span)) → Except Failure (List (SExpr Nat) × SpanMap Nat) → Prop
  | .error error, recorded => recorded = .error (.malformed error)
  | .ok terms, recorded => ∃ numbered spans, recorded = .ok (numbered, spans) ∧ spans.file = file ∧
      Stands spans numbered (done ++ terms) ∧ (spans.entries.map Prod.fst).Nodup ∧
      ((numbered.flatMap parts).map mark).Perm (spans.entries.map Prod.fst)

theorem Recorded.cons {term : SExpr Span} {read : Except (Located ReadError) (List (SExpr Span))}
    {recorded : Except Failure (List (SExpr Nat) × SpanMap Nat)}
    (h : Recorded file (done ++ [term]) read recorded) :
    Recorded file done (read.map (term :: ·)) recorded := by
  cases read with
  | error error => exact h
  | ok terms =>
    rw [Recorded, List.append_assoc] at h
    exact h

/-- Reads on after a term that is complete. -/
def readAfter (length : Nat) (term : SExpr Span) (rest : List Lexeme) :
    List OpenList → Except (Located ReadError) (List (SExpr Span))
  | [] => (readLexemes length rest).map (term :: ·)
  | inner :: stack => readFrom length ({ inner with items := inner.items ++ [term] } :: stack) rest

theorem readFrom_word (length start : Nat) (text : List Char) (rest : List Lexeme) (stack : List OpenList) :
    readFrom length stack (.word start text :: rest) =
      readAfter length (.symbol (Span.between start (start + text.length)) (String.ofList text)) rest stack := by
  cases stack <;> rfl

theorem readFrom_right (length start : Nat) (rest : List Lexeme) (outer : OpenList) (stack : List OpenList) :
    readFrom length (outer :: stack) (.right start :: rest) =
      readAfter length (.list (Span.between outer.start (start + 1)) outer.items) rest stack := by
  cases stack <;> rfl

/-- A complete term goes to the list around it, or to the terms that are done. -/
theorem Mirrors.add {term : SExpr Nat} {marked : SExpr Span} {rest : List Lexeme}
    (h : Mirrors file position [term] done stack recorder) (hterm : Stands recorder.spans [term] [marked])
    (hrest : ∀ done stack recorder, Mirrors file position [] done stack recorder →
      Recorded file done (readFrom length stack rest) (rest.foldlM step recorder >>= (conclude · length))) :
    Recorded file done (readAfter length marked rest stack)
      (rest.foldlM step (recorder.add term) >>= (conclude · length)) := by
  have hnumbers : (((recorder.add term).held.flatMap parts).map mark).Perm (List.range recorder.next) :=
    (((held_add recorder term).flatMap_right parts).map mark).trans h.numbers
  obtain ⟨spans, next, unfinished, terms⟩ := recorder
  obtain ⟨hfile, hkeys, -, hterms, hstack⟩ := h
  cases hstack with
  | nil =>
    rw [readAfter, ← readFrom_nil]
    refine Recorded.cons (hrest _ _ (Recorder.add _ term) ⟨hfile, hkeys, hnumbers, ?_, .nil⟩)
    exact hterms.append hterm
  | cons hinner hstack =>
    refine hrest _ _ (Recorder.add _ term) ⟨hfile, hkeys, hnumbers, hterms, ?_⟩
    exact .cons ⟨hinner.1, hinner.2.1, hinner.2.2.append hterm⟩ hstack

theorem stands_symbol {spans : SpanMap Nat} {number : Nat} {span : Span}
    (h : spans.get? number = some span) (text : String) :
    Stands spans [.symbol number text] [.symbol span text] := by
  simp [Stands, h]

theorem stands_list {spans : SpanMap Nat} {number : Nat} {span : Span}
    (h : spans.get? number = some span) {numbered : List (SExpr Nat)} {items : List (SExpr Span)}
    (hitems : Stands spans numbered items) :
    Stands spans [.list number numbered] [.list span items] := by
  rw [Stands] at hitems
  simp [Stands, h, hitems]

/-- The items of a list that is closed are loose. -/
theorem Mirrors.close {outer : OpenList}
    (h : Mirrors file position [] done (outer :: stack) recorder) :
    ∃ inner unfinished, recorder.stack = inner :: unfinished ∧ inner.start = outer.start ∧
      inner.start ≤ position ∧ Stands recorder.spans inner.items outer.items ∧
      Mirrors file position inner.items done stack { recorder with stack := unfinished } := by
  obtain ⟨spans, next, unfinished, terms⟩ := recorder
  obtain ⟨hfile, hkeys, hnumbers, hterms, hstack⟩ := h
  cases hstack with
  | @cons inner _ unfinished _ hinner hstack =>
    refine ⟨inner, unfinished, rfl, hinner.1, hinner.2.1, hinner.2.2, hfile, hkeys, ?_, hterms, hstack⟩
    rw [List.nil_append, held, List.flatMap_cons, List.append_assoc] at hnumbers
    exact hnumbers

/-- Recording goes on as reading does. -/
theorem Mirrors.recorded {lexemes : List Lexeme}
    (h : Mirrors file position [] done stack recorder) (hplaced : Placed position stop lexemes) :
    Recorded file done (readFrom length stack lexemes)
      (lexemes.foldlM step recorder >>= (conclude · length)) := by
  induction lexemes generalizing position done stack recorder with
  | nil =>
    obtain ⟨spans, next, unfinished, terms⟩ := recorder
    obtain ⟨hfile, hkeys, hnumbers, hterms, hstack⟩ := h
    cases hstack with
    | nil =>
      refine ⟨terms, spans, rfl, hfile, ?_, ?_, ?_⟩
      · rwa [List.append_nil]
      · rw [hkeys]
        exact List.nodup_range
      · rw [hkeys]
        exact hnumbers
    | cons hinner hstack => rfl
  | cons lexeme rest ih =>
    obtain ⟨hstart, hrest⟩ := hplaced
    have hmoved := h.of_le (Nat.le_trans hstart lexeme.start_le_stop)
    rw [List.foldlM_cons, bind_assoc]
    cases lexeme with
    | left start =>
      have hopen : Mirrors file (start + 1) [] done (⟨start, []⟩ :: stack)
          { recorder with stack := ⟨start, []⟩ :: recorder.stack } :=
        ⟨h.file, h.keys, h.numbers, h.terms, .cons ⟨rfl, Nat.le_succ start, rfl⟩ hmoved.stack⟩
      exact ih hopen hrest
    | word start text =>
      obtain ⟨spans, hfinish, hget, -, hmirrors⟩ := hmoved.finish (Nat.le_add_right start text.length)
        (.symbol · (String.ofList text)) rfl
      rw [readFrom_word, step, hfinish, Result.ok_bind]
      exact hmirrors.add (stands_symbol hget _) fun _ _ _ h => ih h hrest
    | right start =>
      cases stack with
      | nil =>
        rw [step, List.forall₂_nil_right_iff.mp h.stack]
        rfl
      | cons outer stack =>
        obtain ⟨inner, unfinished, hstack, hopen, hle, hitems, hloose⟩ := hmoved.close
        have hmade : (SExpr.list recorder.next inner.items).parts.map mark =
            recorder.next :: (inner.items.flatMap parts).map mark := by
          rw [parts_list, List.map_cons, mark]
        have hstep : recorder.step (.right start) =
            Recorder.finish { recorder with stack := unfinished } inner.start (start + 1)
              (.list · inner.items) := by
          rw [step, hstack]
        obtain ⟨spans, hfinish, hget, hextends, hmirrors⟩ :=
          hloose.finish (show inner.start ≤ start + 1 from hle) (.list · inner.items) hmade
        rw [readFrom_right, hstep, hfinish, Result.ok_bind]
        rw [hopen] at hget
        exact hmirrors.add (stands_list hget (hitems.of_extends hextends)) fun _ _ _ h => ih h hrest

end Recorder

theorem recorded_record (file : File) :
    Recorder.Recorded file [] (readAll file.contents) (record file) := by
  have hempty : Recorder.Mirrors file 0 [] [] [] (.ofFile file) := ⟨rfl, rfl, .nil, rfl, .nil⟩
  rw [readAll, ← readFrom_nil]
  exact hempty.recorded (placed_lexemes 0 file.contents)

theorem exists_record_of_parseFile {file : File} {terms : List (SExpr Span)}
    (h : parseFile file = .ok terms) :
    ∃ numbered spans, record file = .ok (numbered, spans) ∧ spans.file = file ∧
      Stands spans numbered terms ∧ (spans.entries.map Prod.fst).Nodup ∧
      ((numbered.flatMap parts).map mark).Perm (spans.entries.map Prod.fst) := by
  have hrecorded := recorded_record file
  rw [Result.mapError_eq_ok_iff.mp h] at hrecorded
  exact hrecorded

theorem exists_record_of_parseFile_error {file : File} {error : SyntaxError}
    (h : parseFile file = .error error) :
    ∃ cause, record file = .error (.malformed cause) ∧
      cause.toSyntaxError ReadError.message file = error := by
  have hrecorded := recorded_record file
  rw [parseFile] at h
  cases hread : readAll file.contents with
  | ok terms =>
    rw [hread] at h
    cases h
  | error cause =>
    rw [hread] at h hrecorded
    exact ⟨cause, hrecorded, Except.error.inj h⟩

end TileSelect.SExpr
