import Mathlib.Data.List.Forall2
import TileSelect.Expectation
import TileSelect.Proofs.ErrorColumns

/-! # Expected errors

A line `;;error:L:S-E:message` names columns of a line of its file.  The span of these columns is shown with the same
numbers, and the numbers that are shown with a span inside a line lead back to the span.  Every line at the start of a
file is read as an error inside one line or refused; only a negative line number is looked up without being checked. -/
namespace TileSelect

namespace File

theorem number_of_getElem? {file : File} {i : Nat} {line : Line} (h : file.lines[i]? = some line) :
    line.number = i + 1 := by
  have hlt : i < file.lines.length := (List.getElem?_eq_some_iff.mp h).1
  have hnumbers : (file.lines.map Line.number)[i]? = (List.range' 1 file.lines.length)[i]? :=
    congrArg (·[i]?) (map_number_linesFrom 1 0 file.contents)
  rw [List.getElem?_map, h, List.getElem?_range' hlt] at hnumbers
  have hnumber : line.number = 1 + 1 * i := Option.some.inj hnumbers
  omega

theorem getElem?_of_mem_lines {file : File} {line : Line} (h : line ∈ file.lines) :
    0 < line.number ∧ file.lines[line.number - 1]? = some line := by
  obtain ⟨i, hi⟩ := List.getElem?_of_mem h
  have hnumber := number_of_getElem? hi
  refine ⟨by omega, ?_⟩
  rwa [hnumber, Nat.add_sub_cancel]

theorem lineAround_start_le {file : File} {span : Span} (h : 0 ≤ span.start) :
    (file.lineAround span).start ≤ span.start := by
  by_cases hle : span.start ≤ file.contents.length
  · exact (lineAround_inside h hle).1
  · have hpast : ((0 + file.contents.length : Nat) : Int) ≤ span.start := by omega
    obtain ⟨before, hcontents, -, -, hstart, -⟩ := lineAroundFrom_past 1 hpast
    have hlength := congrArg List.length hcontents
    rw [List.length_append] at hlength
    rw [lineAround, hstart]
    omega

end File

namespace Expectation

/-- Does the text say this: behind a tag up to the first colon, a line number, two columns and a message?  The
numbers are 64-bit integers, the line and the first column are not zero, and the columns have no minus sign. -/
def ErrorLine.Written (e : ErrorLine) (contents : List Char) : Prop :=
  ∃ tag line start stop,
    contents = tag ++ ':' :: (line ++ ':' :: (start ++ '-' :: (stop ++ ':' :: e.message.toList))) ∧ ':' ∉ tag ∧
    Text.Integer64 line e.line ∧ e.line ≠ 0 ∧ Text.Integer64 start e.start ∧ e.start ≠ 0 ∧ '-' ∉ start ∧
    Text.Integer64 stop e.stop ∧ '-' ∉ stop

theorem readNumber_eq_ok_iff {place : String} {cs : List Char} {z : Int} :
    readNumber place (String.ofList cs) = .ok z ↔ Text.Integer64 cs z := by
  rw [readNumber, Result.mapError_eq_ok_iff, Text.readSigned_eq_ok_iff, String.toList_ofList]

theorem readColumns_eq_ok_iff {place : List Char} {columns : Int × Int} :
    readColumns place = .ok columns ↔ ∃ start stop, place = start ++ '-' :: stop ∧
      Text.Integer64 start columns.1 ∧ columns.1 ≠ 0 ∧ '-' ∉ start ∧ Text.Integer64 stop columns.2 ∧
      '-' ∉ stop := by
  unfold readColumns
  constructor
  · intro h
    simp only at h
    split at h
    · next start stop hparts =>
      obtain ⟨rest, hstart, hplace, hrest⟩ := Text.splitAt_eq_cons_cons_iff.mp hparts
      obtain ⟨hstop, rfl⟩ := Text.splitAt_eq_singleton_iff.mp hrest
      obtain ⟨first, hfirst, h⟩ := Result.bind_eq_ok_iff.mp h
      split at h
      · cases h
      · next hzero =>
        obtain ⟨last, hlast, h⟩ := Result.bind_eq_ok_iff.mp h
        obtain rfl := Except.ok.inj h
        exact ⟨start, stop, hplace, readNumber_eq_ok_iff.mp hfirst, hzero, hstart,
          readNumber_eq_ok_iff.mp hlast, hstop⟩
    · cases h
  · rintro ⟨start, stop, rfl, hfirst, hzero, hstart, hlast, hstop⟩
    have hparts : Text.splitAt '-' (start ++ '-' :: stop) = [start, stop] := by
      rw [Text.splitAt_append_cons hstart, Text.splitAt_of_notMem hstop]
    simp only [hparts, readNumber_eq_ok_iff.mpr hfirst, readNumber_eq_ok_iff.mpr hlast, Result.ok_bind,
      if_neg hzero]

/-- The lines that are understood are those that say something of an error. -/
theorem readErrorLine_eq_ok_iff {contents : List Char} {e : ErrorLine} :
    readErrorLine contents = .ok e ↔ e.Written contents := by
  unfold readErrorLine
  constructor
  · intro h
    split at h
    · next tag line columns part parts hparts =>
      obtain ⟨rest, htag, hcontents, hrest⟩ := Text.splitAt_eq_cons_cons_iff.mp hparts
      obtain ⟨rest', -, rfl, hrest'⟩ := Text.splitAt_eq_cons_cons_iff.mp hrest
      obtain ⟨message, -, rfl, hmessage⟩ := Text.splitAt_eq_cons_cons_iff.mp hrest'
      obtain ⟨number, hnumber, h⟩ := Result.bind_eq_ok_iff.mp h
      split at h
      · cases h
      · next hzero =>
        obtain ⟨⟨first, last⟩, hcolumns, h⟩ := Result.bind_eq_ok_iff.mp h
        obtain rfl := Except.ok.inj h
        obtain ⟨start, stop, rfl, hfirst, hfirstZero, hstart, hlast, hstop⟩ := readColumns_eq_ok_iff.mp hcolumns
        refine ⟨tag, line, start, stop, ?_, htag, readNumber_eq_ok_iff.mp hnumber, hzero, hfirst, hfirstZero,
          hstart, hlast, hstop⟩
        rw [hcontents, ← hmessage, Text.joinWith_splitAt, String.toList_ofList, List.append_assoc,
          List.cons_append]
    · cases h
  · rintro ⟨tag, line, start, stop, rfl, htag, hnumber, hzero, hfirst, hfirstZero, hstart, hlast, hstop⟩
    -- numerals hold no colon, so the first three colons are those written here and the message keeps its own
    have hcolon : ':' ∉ start ++ '-' :: stop := by
      rw [List.mem_append, List.mem_cons]
      rintro (h | h | h)
      · exact hfirst.colon_notMem h
      · exact absurd h (by decide)
      · exact hlast.colon_notMem h
    have hcolumns := (@readColumns_eq_ok_iff _ (e.start, e.stop)).mpr
      ⟨start, stop, rfl, hfirst, hfirstZero, hstart, hlast, hstop⟩
    obtain ⟨part, parts, hmessage⟩ := List.exists_cons_of_ne_nil (Text.splitAt_ne_nil ':' e.message.toList)
    have hparts :
        Text.splitAt ':' (tag ++ ':' :: (line ++ ':' :: (start ++ '-' :: (stop ++ ':' :: e.message.toList)))) =
          tag :: line :: (start ++ '-' :: stop) :: part :: parts := by
      rw [Text.splitAt_append_cons htag, Text.splitAt_append_cons hnumber.colon_notMem, ← List.cons_append,
        ← List.append_assoc, Text.splitAt_append_cons hcolon, hmessage]
    have hjoined : Text.joinWith ':' (part :: parts) = e.message.toList := by
      rw [← hmessage, Text.joinWith_splitAt]
    simp only [hparts, readNumber_eq_ok_iff.mpr hnumber, hcolumns, Result.ok_bind, if_neg hzero, hjoined,
      String.ofList_toList]

theorem ErrorLine.Written.unique {e e' : ErrorLine} {contents : List Char} (h : e.Written contents)
    (h' : e'.Written contents) : e = e' :=
  Except.ok.inj ((readErrorLine_eq_ok_iff.mpr h).symm.trans (readErrorLine_eq_ok_iff.mpr h'))

theorem ErrorLine.Written.start_pos {e : ErrorLine} {contents : List Char} (h : e.Written contents) :
    0 < e.start := by
  obtain ⟨_, _, start, _, -, -, -, -, hfirst, hzero, hstart, -⟩ := h
  have hnonneg := hfirst.nonneg hstart
  omega

theorem ErrorLine.Written.line_ne_zero {e : ErrorLine} {contents : List Char} (h : e.Written contents) :
    e.line ≠ 0 := by
  obtain ⟨_, _, _, _, -, -, -, hzero, -⟩ := h
  exact hzero

/-- Do the columns start inside the line and end there, not before they start? -/
def ErrorLine.Inside (e : ErrorLine) (line : Line) : Prop :=
  e.start ≤ line.length ∧ e.stop ≤ line.length + 1 ∧ e.start ≤ e.stop

def ErrorLine.spanIn (e : ErrorLine) (line : Line) : Span := ⟨line.start + e.start - 1, line.start + e.stop - 1⟩

theorem ErrorLine.spanIn_start (e : ErrorLine) (line : Line) : (e.spanIn line).start = line.start + e.start - 1 := rfl

theorem ErrorLine.spanIn_stop (e : ErrorLine) (line : Line) : (e.spanIn line).stop = line.start + e.stop - 1 := rfl

theorem ErrorLine.Inside.spanIn {e : ErrorLine} {line : Line} (h : e.Inside line) (hpos : 0 < e.start) :
    line.start ≤ (e.spanIn line).start ∧ (e.spanIn line).start ≤ (e.spanIn line).stop ∧
      (e.spanIn line).stop ≤ (line.start + line.length : Nat) := by
  obtain ⟨-, hstop, hle⟩ := h
  rw [ErrorLine.spanIn_start, ErrorLine.spanIn_stop]
  omega

/-- A line number that is not positive is looked up in vain. -/
theorem findSpan_of_nonpos (lines : List Line) {e : ErrorLine} (h : e.line ≤ 0) :
    findSpan lines e = .error .outOfRange := by
  unfold findSpan
  rw [if_neg (by omega), if_pos h]

/-- Columns inside the line of their number have a span, and all others are refused. -/
theorem findSpan_of_pos (lines : List Line) {e : ErrorLine} (h : 0 < e.line) :
    (∃ error, findSpan lines e = .ok (.error error) ∧
      ∀ line, lines[(e.line - 1).toNat]? = some line → ¬e.Inside line) ∨
    ∃ line, lines[(e.line - 1).toNat]? = some line ∧ e.Inside line ∧
      findSpan lines e = .ok (.ok (e.spanIn line)) := by
  unfold findSpan ErrorLine.Inside ErrorLine.spanIn
  by_cases hline : (lines.length : Int) < e.line
  · left
    rw [if_pos hline]
    refine ⟨_, rfl, ?_⟩
    intro line hget
    have hlt := (List.getElem?_eq_some_iff.mp hget).1
    omega
  · rw [if_neg hline, if_neg (by omega)]
    have hget := List.getElem?_eq_getElem (l := lines) (i := (e.line - 1).toNat) (by omega)
    rw [hget]
    generalize lines[(e.line - 1).toNat] = line
    by_cases hinside : (line.length : Int) ≤ e.start - 1 ∨ (line.length : Int) < e.stop - 1 ∨ e.stop - 1 < e.start - 1
    · left
      refine ⟨_, if_pos hinside, ?_⟩
      rintro line' hline'
      obtain rfl := Option.some.inj hline'
      omega
    · right
      refine ⟨line, rfl, by omega, ?_⟩
      simp only [if_neg hinside]
      have hmake : Span.make (e.start - 1 + line.start) (e.stop - 1 + line.start) =
          .ok ⟨line.start + e.start - 1, line.start + e.stop - 1⟩ := by
        rw [Span.make_eq_ok_iff, Span.mk.injEq]
        omega
      rw [hmake]
      rfl

theorem findSpan_eq_ok_iff {lines : List Line} {e : ErrorLine} {span : Span} :
    findSpan lines e = .ok (.ok span) ↔ 0 < e.line ∧ ∃ line, lines[(e.line - 1).toNat]? = some line ∧
      e.Inside line ∧ span = e.spanIn line := by
  by_cases hpos : 0 < e.line
  · rcases findSpan_of_pos lines hpos with ⟨error, herror, hnone⟩ | ⟨line, hline, hinside, hspan⟩
    · rw [herror]
      constructor
      · intro h
        cases h
      · rintro ⟨-, line, hline, hinside, -⟩
        exact absurd hinside (hnone line hline)
    · rw [hspan]
      constructor
      · intro h
        exact ⟨hpos, line, hline, hinside, (Except.ok.inj (Except.ok.inj h)).symm⟩
      · rintro ⟨-, line', hline', -, rfl⟩
        obtain rfl := Option.some.inj (hline.symm.trans hline')
        rfl
  · rw [findSpan_of_nonpos lines (Int.not_lt.mp hpos)]
    constructor
    · intro h
      cases h
    · rintro ⟨hpos', -⟩
      exact absurd hpos' hpos

def ErrorLine.display (e : ErrorLine) (name : String) : String :=
  name ++ ":" ++ toString e.line ++ ":" ++ toString e.start ++ "-" ++ toString e.stop ++ " " ++ e.message

/-- The line and the columns that an error is shown with. -/
def place (error : SyntaxError) : ErrorLine :=
  ⟨error.line.number, 1 + error.offset, 1 + error.offset + error.extent error.offset, error.message⟩

theorem display_eq (error : SyntaxError) : error.display = (place error).display error.file.name := rfl

section InsideLine

variable {file : File} {line : Line} (hline : line ∈ file.lines)

include hline

/-- The columns of a span inside a line count from the start of the line. -/
theorem place_of_mem {span : Span} (message : String) (hle : line.start ≤ span.start)
    (hstop : span.start ≤ span.stop) (hend : span.stop ≤ (line.start + line.length : Nat)) :
    place ⟨file, span, message⟩ =
      ⟨line.number, span.start - line.start + 1, span.stop - line.start + 1, message⟩ := by
  have hat : (SyntaxError.mk file span message).line = line :=
    (File.eq_lineAroundFrom_of_mem hline hle (Int.le_trans hstop hend)).symm
  have hoffset : (SyntaxError.mk file span message).offset = span.start - line.start := by
    rw [SyntaxError.offset, hat]
  have hextent : (SyntaxError.mk file span message).extent (span.start - line.start) = span.stop - span.start := by
    rw [SyntaxError.extent_eq_min, hat]
    change min _ (span.stop - span.start) = _
    omega
  have hfirst : 1 + (span.start - line.start) = span.start - line.start + 1 := by omega
  have hlast : span.start - line.start + 1 + (span.stop - span.start) = span.stop - line.start + 1 := by omega
  rw [place, hat, hoffset, hextent, hfirst, hlast]

/-- The span of columns inside a line is shown with these columns. -/
theorem place_spanIn {e : ErrorLine} (hnumber : e.line = line.number) (hpos : 0 < e.start) (h : e.Inside line) :
    place ⟨file, e.spanIn line, e.message⟩ = e := by
  obtain ⟨hstart, hstop, hend⟩ := h.spanIn hpos
  have hfirst : (e.spanIn line).start - line.start + 1 = e.start := by
    rw [ErrorLine.spanIn_start]
    omega
  have hlast : (e.spanIn line).stop - line.start + 1 = e.stop := by
    rw [ErrorLine.spanIn_stop]
    omega
  rw [place_of_mem hline e.message hstart hstop hend, hfirst, hlast, ← hnumber]

/-- The columns that a span inside a line is shown with have this span. -/
theorem spanIn_place {span : Span} (message : String) (hle : line.start ≤ span.start)
    (hlt : span.start < (line.start + line.length : Nat)) (hstop : span.start ≤ span.stop)
    (hend : span.stop ≤ (line.start + line.length : Nat)) :
    (place ⟨file, span, message⟩).line = line.number ∧ (place ⟨file, span, message⟩).Inside line ∧
      (place ⟨file, span, message⟩).spanIn line = span := by
  rw [place_of_mem hline message hle hstop hend]
  refine ⟨rfl, ?_, ?_⟩
  · change span.start - line.start + 1 ≤ _ ∧ span.stop - line.start + 1 ≤ _ ∧
      span.start - line.start + 1 ≤ span.stop - line.start + 1
    omega
  · cases span
    rw [ErrorLine.spanIn, Span.mk.injEq]
    dsimp only
    omega

end InsideLine

/-- The columns that a span is shown with have this span exactly if it starts and ends inside one line. -/
theorem findSpan_place_iff {file : File} {span : Span} (message : String) (hstart : 0 ≤ span.start)
    (hstop : span.start ≤ span.stop) :
    findSpan file.lines (place ⟨file, span, message⟩) = .ok (.ok span) ↔
      ∃ line ∈ file.lines, line.start ≤ span.start ∧ span.start < (line.start + line.length : Nat) ∧
        span.stop ≤ (line.start + line.length : Nat) := by
  rw [findSpan_eq_ok_iff]
  constructor
  · rintro ⟨-, line, hget, ⟨hfirst, hlast, -⟩, hspan⟩
    -- the line that was looked up starts where the line around the span does
    have haround : (SyntaxError.mk file span message).line.start ≤ span.start := File.lineAround_start_le hstart
    have hstart' : span.start = line.start + (place ⟨file, span, message⟩).start - 1 := congrArg Span.start hspan
    have hstop' : span.stop = line.start + (place ⟨file, span, message⟩).stop - 1 := congrArg Span.stop hspan
    have hoffset : (place ⟨file, span, message⟩).start =
        1 + (span.start - (SyntaxError.mk file span message).line.start) := rfl
    exact ⟨line, List.mem_of_getElem? hget, by omega, by omega, by omega⟩
  · rintro ⟨line, hline, hle, hlt, hend⟩
    obtain ⟨hnumber, hinside, hspan⟩ := spanIn_place hline message hle hlt hstop hend
    obtain ⟨hpos, hget⟩ := File.getElem?_of_mem_lines hline
    have hindex : ((line.number : Int) - 1).toNat = line.number - 1 := by omega
    rw [hnumber, hindex]
    exact ⟨by omega, line, hget, hinside, hspan.symm⟩

def errorLines (file : File) : List Line := leadingLines (startsWith ";;error") file

theorem expectedErrors_eq (file : File) :
    expectedErrors file = (errorLines file).mapM (expectedError file file.lines) := rfl

theorem expectedError_of_written (file : File) (lines : List Line) {line : Line} {e : ErrorLine}
    (h : e.Written line.text) : expectedError file lines line =
      (findSpan lines e).map (Except.map fun span => ⟨file, span, e.message⟩) := by
  rw [expectedError, readErrorLine_eq_ok_iff.mpr h]
  dsimp only
  rcases findSpan lines e with fault | error | span <;> rfl

theorem expectedError_of_not_written (file : File) (lines : List Line) {line : Line}
    (h : ∀ e : ErrorLine, ¬e.Written line.text) :
    ∃ error, readErrorLine line.text = .error error ∧ expectedError file lines line = .ok (.error error) := by
  cases hread : readErrorLine line.text with
  | error error => exact ⟨error, rfl, by rw [expectedError, hread]⟩
  | ok e => exact absurd (readErrorLine_eq_ok_iff.mp hread) (h e)

/-- Does the text name columns inside a line of the file? -/
def Names (file : File) (contents : List Char) (e : ErrorLine) (named : Line) : Prop :=
  e.Written contents ∧ named ∈ file.lines ∧ e.line = named.number ∧ e.Inside named

/-- A line is looked up in vain because its number is negative, or gives an error inside the line that it names, or is
refused because it names none. -/
theorem expectedError_cases (file : File) (line : Line) :
    (∃ e : ErrorLine, e.Written line.text ∧ e.line < 0 ∧
      expectedError file file.lines line = .error .outOfRange) ∨
    (∃ e named, Names file line.text e named ∧
      expectedError file file.lines line = .ok (.ok ⟨file, e.spanIn named, e.message⟩)) ∨
    ∃ refusal, expectedError file file.lines line = .ok (.error refusal) ∧
      ∀ e named, ¬Names file line.text e named := by
  by_cases hwritten : ∃ e : ErrorLine, e.Written line.text
  · obtain ⟨e, he⟩ := hwritten
    rw [expectedError_of_written file file.lines he]
    by_cases hpos : 0 < e.line
    · right
      rcases findSpan_of_pos file.lines hpos with ⟨refusal, hrefusal, hnone⟩ | ⟨named, hget, hinside, hspan⟩
      · right
        refine ⟨refusal, by rw [hrefusal]; rfl, ?_⟩
        rintro e' named ⟨he', hnamed, hnumber, hinside⟩
        obtain rfl := he.unique he'
        obtain ⟨-, hget⟩ := File.getElem?_of_mem_lines hnamed
        have hindex : (e.line - 1).toNat = named.number - 1 := by omega
        exact hnone named (by rw [hindex, hget]) hinside
      · left
        have hnumber := File.number_of_getElem? hget
        exact ⟨e, named, ⟨he, List.mem_of_getElem? hget, by omega, hinside⟩, by rw [hspan]; rfl⟩
    · left
      have hzero := he.line_ne_zero
      exact ⟨e, he, by omega, by rw [findSpan_of_nonpos file.lines (by omega)]; rfl⟩
  · obtain ⟨refusal, -, hrefusal⟩ := expectedError_of_not_written file file.lines (not_exists.mp hwritten)
    exact .inr (.inr ⟨refusal, hrefusal, fun e _ hnames => hwritten ⟨e, hnames.1⟩⟩)

theorem expectedError_eq_error_iff {file : File} {line : Line} {fault : Fault} :
    expectedError file file.lines line = .error fault ↔
      fault = .outOfRange ∧ ∃ e : ErrorLine, e.Written line.text ∧ e.line < 0 := by
  constructor
  · intro h
    rcases expectedError_cases file line with ⟨e, he, hneg, hline⟩ | ⟨e, named, -, hline⟩ | ⟨refusal, hline, -⟩
    · rw [hline] at h
      exact ⟨(Except.error.inj h).symm, e, he, hneg⟩
    · rw [hline] at h
      cases h
    · rw [hline] at h
      cases h
  · rintro ⟨rfl, e, he, hneg⟩
    rw [expectedError_of_written file file.lines he, findSpan_of_nonpos file.lines (by omega)]
    rfl

/-- An answer is an error inside the line that is named, or a refusal if none is. -/
theorem answer_cases {file : File} {line : Line} {answer : Except Error SyntaxError}
    (h : expectedError file file.lines line = .ok answer) :
    (∃ e named, Names file line.text e named ∧ answer = .ok ⟨file, e.spanIn named, e.message⟩) ∨
    ∃ refusal, answer = .error refusal ∧ ∀ e named, ¬Names file line.text e named := by
  rcases expectedError_cases file line with ⟨e, -, -, hline⟩ | ⟨e, named, hnames, hline⟩ | ⟨refusal, hline, hnone⟩
  · rw [hline] at h
    cases h
  · rw [hline] at h
    exact .inl ⟨e, named, hnames, (Except.ok.inj h).symm⟩
  · rw [hline] at h
    exact .inr ⟨refusal, (Except.ok.inj h).symm, hnone⟩

theorem forall₂_expectedErrors {file : File} {results : List (Except Error SyntaxError)}
    (h : expectedErrors file = .ok results) :
    List.Forall₂ (fun line result => expectedError file file.lines line = .ok result)
      (errorLines file) results := by
  have heq : List.Forall₂ Eq ((errorLines file).map (expectedError file file.lines))
      (results.map Except.ok) := by
    rw [List.forall₂_eq_eq_eq]
    exact Result.mapM_eq_ok_iff.mp h
  rwa [List.forall₂_map_left_iff, List.forall₂_map_right_iff] at heq

/-- An error that a file expects is shown with the line number, the columns and the message of its line, and the columns
that a span is shown with lead back to the span, exactly if it starts and ends inside one line. -/
theorem display_inverts_expectedErrors (file : File) :
    (∀ results, expectedErrors file = .ok results →
      List.Forall₂ (fun line result => ∀ error, result = .ok error →
        ∃ e : ErrorLine, e.Written line.text ∧ error.display = e.display file.name)
        (errorLines file) results) ∧
    ∀ (span : Span) (message : String), 0 ≤ span.start → span.start ≤ span.stop →
      let error : SyntaxError := ⟨file, span, message⟩
      error.display = (place error).display file.name ∧
        (findSpan file.lines (place error) = .ok (.ok span) ↔
          ∃ line ∈ file.lines, line.start ≤ span.start ∧ span.start < (line.start + line.length : Nat) ∧
            span.stop ≤ (line.start + line.length : Nat)) := by
  constructor
  · intro results hresults
    apply (forall₂_expectedErrors hresults).imp
    rintro line result hline error rfl
    rcases answer_cases hline with ⟨e, named, ⟨he, hnamed, hnumber, hinside⟩, herror⟩ | ⟨refusal, hrefusal, -⟩
    · obtain rfl := Except.ok.inj herror
      refine ⟨e, he, ?_⟩
      rw [display_eq, place_spanIn hnamed hnumber he.start_pos hinside]
    · cases hrefusal
  · intro span message hstart hstop error
    exact ⟨display_eq error, findSpan_place_iff message hstart hstop⟩

/-- A sign and a leading zero are read and not shown, and a colon of the message is kept. -/
theorem display_inverts_expectedErrors_signed :
    let file : File := ⟨"f", ";;error:+2:02-4:a:b\nxyz\n".toList⟩
    let error : SyntaxError := ⟨file, ⟨21, 23⟩, "a:b"⟩
    expectedErrors file = .ok [.ok error] ∧
      (∃ e : ErrorLine, e.Written ";;error:+2:02-4:a:b".toList ∧ error.display = e.display "f") ∧
      findSpan file.lines (place error) = .ok (.ok ⟨21, 23⟩) := by
  intro file error
  have hlines : file.lines = [⟨1, 0, ";;error:+2:02-4:a:b".toList⟩, ⟨2, 20, "xyz".toList⟩] := by decide +kernel
  have hresults : expectedErrors file = .ok [.ok error] := by decide +kernel
  have hleading : errorLines file = [⟨1, 0, ";;error:+2:02-4:a:b".toList⟩] := by
    decide +kernel
  obtain ⟨hitems, hspans⟩ := display_inverts_expectedErrors file
  obtain ⟨-, hback⟩ := hspans ⟨21, 23⟩ "a:b" (by decide) (by decide)
  have hitem := hitems _ hresults
  rw [hleading, List.forall₂_cons] at hitem
  refine ⟨hresults, hitem.1 error rfl, hback.mpr ⟨⟨2, 20, "xyz".toList⟩, ?_, by decide⟩⟩
  rw [hlines]
  exact List.mem_cons_of_mem _ List.mem_cons_self

def extent (line : Line) : Nat × Nat := (line.start, line.length)

def outcome (file : File) : Except Fault (List (Except Error (Span × String))) :=
  (expectedErrors file).map (List.map (Except.map fun error => (error.span, error.message)))

theorem findSpan_congr {lines lines' : List Line} (h : lines.map extent = lines'.map extent) (e : ErrorLine) :
    findSpan lines e = findSpan lines' e := by
  have hlength : lines.length = lines'.length := by
    simpa using congrArg List.length h
  have hget : lines[(e.line - 1).toNat]?.map extent = lines'[(e.line - 1).toNat]?.map extent := by
    rw [← List.getElem?_map, h, List.getElem?_map]
  unfold findSpan
  rw [hlength]
  cases hline : lines[(e.line - 1).toNat]? with
  | none =>
    rw [hline, Option.map_none, eq_comm, Option.map_eq_none_iff] at hget
    rw [hget]
  | some line =>
    rw [hline, Option.map_some, eq_comm, Option.map_eq_some_iff] at hget
    obtain ⟨line', hline', hextent⟩ := hget
    obtain ⟨hstart, hlen⟩ := Prod.mk.inj hextent
    rw [hline']
    simp only [hstart, hlen]

theorem outcome_congr {file file' : File}
    (hleading : errorLines file' = errorLines file)
    (hlines : file'.lines.map extent = file.lines.map extent) : outcome file' = outcome file := by
  rw [outcome, outcome, expectedErrors_eq, expectedErrors_eq, Result.map_mapM, Result.map_mapM, hleading]
  congr 1
  funext line
  by_cases hwritten : ∃ e : ErrorLine, e.Written line.text
  · obtain ⟨e, he⟩ := hwritten
    rw [expectedError_of_written _ _ he, expectedError_of_written _ _ he, findSpan_congr hlines]
    rcases findSpan file.lines e with fault | error | span <;> rfl
  · obtain ⟨error, hread, hline⟩ := expectedError_of_not_written file file.lines (not_exists.mp hwritten)
    obtain ⟨error', hread', hline'⟩ := expectedError_of_not_written file' file'.lines (not_exists.mp hwritten)
    obtain rfl := Except.error.inj (hread.symm.trans hread')
    rw [hline, hline']

theorem errorLines_split (file : File) :
    ∃ rest, file.lines = errorLines file ++ rest ∧
      (∀ line ∈ errorLines file, ";;error".toList <+: line.text) ∧
      ∀ line ∈ rest.head?, ¬";;error".toList <+: line.text := by
  refine ⟨file.lines.dropWhile fun line => startsWith ";;error" line.text,
    List.takeWhile_append_dropWhile.symm, ?_, ?_⟩
  · intro line hline
    have hstart : startsWith ";;error" line.text = true :=
      List.mem_takeWhile_imp (p := fun line : Line => startsWith ";;error" line.text) hline
    exact List.isPrefixOf_iff_prefix.mp hstart
  · intro line hline hprefix
    have hnot := List.head?_dropWhile_not (fun line : Line => startsWith ";;error" line.text) file.lines
    rw [Option.mem_def.mp hline] at hnot
    have hstart : startsWith ";;error" line.text = true := List.isPrefixOf_iff_prefix.mpr hprefix
    simp [hstart] at hnot

theorem expectedErrors_eq_error_iff {file : File} {fault : Fault} :
    expectedErrors file = .error fault ↔ fault = .outOfRange ∧
      ∃ line ∈ errorLines file, ∃ e : ErrorLine, e.Written line.text ∧ e.line < 0 := by
  constructor
  · intro h
    obtain ⟨line, hline, hfault⟩ := Result.exists_mem_of_mapM_eq_error h
    obtain ⟨rfl, hneg⟩ := expectedError_eq_error_iff.mp hfault
    exact ⟨rfl, line, hline, hneg⟩
  · rintro ⟨rfl, line, hline, hneg⟩
    have hfault : expectedError file file.lines line = .error .outOfRange :=
      expectedError_eq_error_iff.mpr ⟨rfl, hneg⟩
    cases hresults : expectedErrors file with
    | ok results =>
      obtain ⟨result, -, hresult⟩ := Result.exists_mem_of_mapM_eq_ok hresults hline
      rw [hfault] at hresult
      cases hresult
    | error fault =>
      -- no line gives another fault
      obtain ⟨line', -, hfault'⟩ := Result.exists_mem_of_mapM_eq_error hresults
      rw [(expectedError_eq_error_iff.mp hfault').1]

/-- Of the lines at the start of a file that are marked as expected errors, and only of these, each is answered by an
error inside one line of the file, or by a refusal if it names no columns inside a line, unless one of them has a
negative line number.  Of all other lines only their places are looked at. -/
theorem expectedErrors_answers_lines (file : File) :
    (∃ rest, file.lines = errorLines file ++ rest ∧
      (∀ line ∈ errorLines file, ";;error".toList <+: line.text) ∧
      ∀ line ∈ rest.head?, ¬";;error".toList <+: line.text) ∧
    (∀ fault, expectedErrors file = .error fault ↔ fault = .outOfRange ∧
      ∃ line ∈ errorLines file, ∃ e : ErrorLine, e.Written line.text ∧ e.line < 0) ∧
    (∀ results, expectedErrors file = .ok results →
      List.Forall₂ (fun line result =>
        (∃ (error : SyntaxError) (named : Line), result = .ok error ∧ error.file = file ∧ named ∈ file.lines ∧
          named.start ≤ error.span.start ∧ error.span.start ≤ error.span.stop ∧
          error.span.stop ≤ (named.start + named.length : Nat)) ∨
        ∃ refusal, result = .error refusal ∧ ∀ e named, ¬Names file line.text e named)
        (errorLines file) results) ∧
    ∀ file' : File, errorLines file' = errorLines file →
      file'.lines.map extent = file.lines.map extent → outcome file' = outcome file := by
  refine ⟨errorLines_split file, fun fault => expectedErrors_eq_error_iff, ?_, ?_⟩
  · intro results hresults
    apply (forall₂_expectedErrors hresults).imp
    intro line result hline
    rcases answer_cases hline with ⟨e, named, ⟨he, hnamed, -, hinside⟩, hresult⟩ | hrefused
    · left
      exact ⟨_, named, hresult, rfl, hnamed, hinside.spanIn he.start_pos⟩
    · exact .inr hrefused
  · intro file' hleading hextents
    exact outcome_congr hleading hextents

/-- A negative line number is a fault, where a line number of zero is refused. -/
theorem expectedErrors_negativeLine :
    expectedErrors ⟨"test.ir", ";;error:-1:1-2:m".toList⟩ = .error .outOfRange ∧
      expectedErrors ⟨"test.ir", ";;error:0:1-2:m".toList⟩ = .ok [.error (.invalidPlace "0:1-2" .lineZero)] := by
  decide +kernel

/-- One line is answered by an error and the next is refused.  Behind a line without a mark not even a negative line
number is read. -/
theorem expectedErrors_answers_lines_unread :
    let file : File := ⟨"f", ";;error:3:1-2:m\n;;error:9:1-2:m\nx\n;;error:-1:1-1:m".toList⟩
    let file' : File := ⟨"g", ";;error:3:1-2:m\n;;error:9:1-2:m\ny\n0123456789abcdef".toList⟩
    let error : SyntaxError := ⟨file, ⟨32, 33⟩, "m"⟩
    expectedErrors file = .ok [.ok error, .error (.invalidPlace "9:1-2" .noLine)] ∧
      (∃ named ∈ file.lines, named.start ≤ error.span.start ∧
        error.span.stop ≤ (named.start + named.length : Nat)) ∧
      (∀ e named, ¬Names file ";;error:9:1-2:m".toList e named) ∧ outcome file' = outcome file := by
  intro file file' error
  have hresults : expectedErrors file = .ok [.ok error, .error (.invalidPlace "9:1-2" .noLine)] := by decide +kernel
  have hmarked : errorLines file = [⟨1, 0, ";;error:3:1-2:m".toList⟩, ⟨2, 16, ";;error:9:1-2:m".toList⟩] := by
    decide +kernel
  obtain ⟨-, -, hanswers, hunread⟩ := expectedErrors_answers_lines file
  have hanswered := hanswers _ hresults
  rw [hmarked, List.forall₂_cons, List.forall₂_cons] at hanswered
  obtain ⟨hfirst, hsecond, -⟩ := hanswered
  refine ⟨hresults, ?_, ?_, hunread file' (by decide +kernel) (by decide +kernel)⟩
  · rcases hfirst with ⟨error', named, herror, -, hnamed, hstart, -, hstop⟩ | ⟨refusal, hrefusal, -⟩
    · obtain rfl := Except.ok.inj herror
      exact ⟨named, hnamed, hstart, hstop⟩
    · cases hrefusal
  · rcases hsecond with ⟨error', named, herror, -⟩ | ⟨refusal, -, hnone⟩
    · cases herror
    · exact hnone

end Expectation
end TileSelect
