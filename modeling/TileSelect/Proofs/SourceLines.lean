import Mathlib.Data.List.Chain
import Mathlib.Data.List.TakeWhile
import Mathlib.Tactic.Common
import TileSelect.Source.File
import TileSelect.Text.Split

/-! # The lines of a text

A text is a line, or a line with a newline and another text behind it.  By induction over this form, the lines of
a file are numbered from one, follow each other with one newline between them and make up the file, and the line
around a position is the one of them that the position lies in, the newline that ends a line included.  A position
past the text lies in what follows the last newline, which is a line of the file unless it is empty. -/
namespace TileSelect.File

theorem inLine_iff {c : Char} : inLine c = true ↔ c ≠ '\n' := by simp [inLine]

theorem takeWhile_inLine_of_line {line : List Char} (h : '\n' ∉ line) (rest : List Char) :
    (line ++ '\n' :: rest).takeWhile inLine = line := by
  rw [List.takeWhile_append_of_pos fun c hc => inLine_iff.mpr (ne_of_mem_of_not_mem hc h)]
  simp [inLine]

theorem dropWhile_inLine_of_line {line : List Char} (h : '\n' ∉ line) (rest : List Char) :
    (line ++ '\n' :: rest).dropWhile inLine = '\n' :: rest := by
  rw [List.dropWhile_append_of_pos fun c hc => inLine_iff.mpr (ne_of_mem_of_not_mem hc h)]
  simp [inLine]

theorem takeWhile_inLine_of_last {line : List Char} (h : '\n' ∉ line) : line.takeWhile inLine = line :=
  List.takeWhile_eq_self_iff.mpr fun _ hc => inLine_iff.mpr (ne_of_mem_of_not_mem hc h)

theorem dropWhile_inLine_of_last {line : List Char} (h : '\n' ∉ line) : line.dropWhile inLine = [] :=
  List.dropWhile_eq_nil_iff.mpr fun _ hc => inLine_iff.mpr (ne_of_mem_of_not_mem hc h)

/-- What holds of a text without newlines, and of a line with a text behind it if it holds of that text, holds of
every text. -/
theorem line_induction {motive : List Char → Prop} (last : ∀ line, '\n' ∉ line → motive line)
    (more : ∀ line rest, '\n' ∉ line → motive rest → motive (line ++ '\n' :: rest))
    (cs : List Char) : motive cs := by
  have hline : '\n' ∉ cs.takeWhile inLine := by
    intro hmem
    exact inLine_iff.mp (List.mem_takeWhile_imp hmem) rfl
  have hcs := List.takeWhile_append_dropWhile (p := inLine) (l := cs)
  match hrest : cs.dropWhile inLine with
  | [] =>
    rw [hrest, List.append_nil] at hcs
    rw [← hcs]
    exact last _ hline
  | c :: rest =>
    have hc : c = '\n' := by
      have hhead := List.head_dropWhile_not inLine (l := cs) (by simp [hrest])
      simpa [hrest, inLine] using hhead
    rw [← hcs, hrest, hc]
    exact more _ rest hline (line_induction last more rest)
termination_by cs.length
decreasing_by
  have hlength := congrArg List.length hcs
  rw [hrest, List.length_append, List.length_cons] at hlength
  omega

theorem linesFrom_of_last {line : List Char} (h : '\n' ∉ line) (number start : Nat) :
    linesFrom number start line = if line.isEmpty then [] else [⟨number, start, line⟩] := by
  rw [linesFrom]
  split <;> simp_all [takeWhile_inLine_of_last, dropWhile_inLine_of_last]

theorem linesFrom_of_line {line : List Char} (h : '\n' ∉ line) (number start : Nat) (rest : List Char) :
    linesFrom number start (line ++ '\n' :: rest) =
      ⟨number, start, line⟩ :: linesFrom (number + 1) (start + line.length + 1) rest := by
  rw [linesFrom]
  split <;> simp_all [takeWhile_inLine_of_line, dropWhile_inLine_of_line]

theorem lineAroundFrom_of_last {line : List Char} (h : '\n' ∉ line) (position : Int) (number start : Nat) :
    lineAroundFrom position number start line = ⟨number, start, line⟩ := by
  rw [lineAroundFrom]
  split <;> simp_all [takeWhile_inLine_of_last, dropWhile_inLine_of_last]

theorem lineAroundFrom_of_line {line : List Char} (h : '\n' ∉ line) (position : Int) (number start : Nat)
    (rest : List Char) :
    lineAroundFrom position number start (line ++ '\n' :: rest) =
      if (start : Int) ≤ position ∧ position ≤ (start + line.length : Nat) then ⟨number, start, line⟩
      else lineAroundFrom position (number + 1) (start + line.length + 1) rest := by
  rw [lineAroundFrom]
  split <;> simp_all [takeWhile_inLine_of_line, dropWhile_inLine_of_line]

theorem linesFrom_eq_nil_iff {number start : Nat} {cs : List Char} :
    linesFrom number start cs = [] ↔ cs = [] := by
  induction cs using line_induction with
  | last line h =>
    rw [linesFrom_of_last h]
    cases line <;> simp
  | more line rest h =>
    rw [linesFrom_of_line h]
    simp

theorem map_number_linesFrom (number start : Nat) (cs : List Char) :
    (linesFrom number start cs).map Line.number =
      List.range' number (linesFrom number start cs).length := by
  induction cs using line_induction generalizing number start with
  | last line h =>
    rw [linesFrom_of_last h]
    cases line <;> simp
  | more line rest h ih =>
    rw [linesFrom_of_line h, List.map_cons, ih, List.length_cons, List.range'_succ]

theorem start_of_mem_head? {number start : Nat} {cs : List Char} {line : Line}
    (h : line ∈ (linesFrom number start cs).head?) : line.start = start := by
  induction cs using line_induction with
  | last text htext =>
    rw [linesFrom_of_last htext] at h
    cases text with
    | nil => simp at h
    | cons c text =>
      obtain rfl := Option.some.inj h
      rfl
  | more text rest htext =>
    rw [linesFrom_of_line htext] at h
    obtain rfl := Option.some.inj h
    rfl

/-- A line is a stretch of the text, with a newline or the end of the text behind it. -/
theorem split_of_mem_linesFrom {number start : Nat} {cs : List Char} {line : Line}
    (h : line ∈ linesFrom number start cs) : ∃ before after, cs = before ++ line.text ++ after ∧
      line.start = start + before.length ∧ '\n' ∉ line.text ∧ (after = [] ∨ ∃ rest, after = '\n' :: rest) := by
  induction cs using line_induction generalizing number start with
  | last text htext =>
    rw [linesFrom_of_last htext] at h
    cases text with
    | nil => simp at h
    | cons c text =>
      obtain rfl := List.mem_singleton.mp h
      exact ⟨[], [], by simp, rfl, htext, .inl rfl⟩
  | more text rest htext ih =>
    rw [linesFrom_of_line htext] at h
    rcases List.mem_cons.mp h with rfl | h
    · exact ⟨[], '\n' :: rest, by simp, rfl, htext, .inr ⟨rest, rfl⟩⟩
    · obtain ⟨before, after, rfl, hstart, hline⟩ := ih h
      refine ⟨text ++ '\n' :: before, after, by simp, ?_, hline⟩
      rw [hstart, List.length_append, List.length_cons]
      omega

theorem isChain_linesFrom (number start : Nat) (cs : List Char) :
    (linesFrom number start cs).IsChain fun line next => next.start = line.start + line.length + 1 := by
  induction cs using line_induction generalizing number start with
  | last line h =>
    rw [linesFrom_of_last h]
    cases line <;> simp
  | more line rest h ih =>
    rw [linesFrom_of_line h]
    apply List.isChain_cons.mpr
    exact ⟨fun next hnext => start_of_mem_head? hnext, ih _ _⟩

theorem getLast?_of_line (line : List Char) {rest : List Char} (h : rest ≠ []) :
    (line ++ '\n' :: rest).getLast? = rest.getLast? := by
  rw [List.getLast?_append_of_ne_nil _ (List.cons_ne_nil _ _), List.getLast?_cons_of_ne_nil h]

theorem joinWith_linesFrom (number start : Nat) (cs : List Char) :
    Text.joinWith '\n' ((linesFrom number start cs).map Line.text) ++
      (if cs.getLast? = some '\n' then ['\n'] else []) = cs := by
  induction cs using line_induction generalizing number start with
  | last line h =>
    have hlast : line.getLast? ≠ some '\n' := fun hlast => h (List.mem_of_getLast? hlast)
    rw [linesFrom_of_last h, if_neg hlast]
    cases line <;> simp [Text.joinWith]
  | more line rest h ih =>
    rw [linesFrom_of_line h, List.map_cons]
    have hrest := ih (number + 1) (start + line.length + 1)
    cases hlines : linesFrom (number + 1) (start + line.length + 1) rest with
    | nil =>
      obtain rfl := linesFrom_eq_nil_iff.mp hlines
      simp [Text.joinWith]
    | cons next lines =>
      have hne : rest ≠ [] := by
        rintro rfl
        rw [linesFrom_eq_nil_iff.mpr rfl] at hlines
        cases hlines
      rw [hlines, List.map_cons] at hrest
      rw [List.map_cons, Text.joinWith, getLast?_of_line line hne, List.append_assoc, List.cons_append, hrest]

theorem start_le_of_mem_linesFrom {number start : Nat} {cs : List Char} {line : Line}
    (h : line ∈ linesFrom number start cs) : start ≤ line.start := by
  obtain ⟨before, after, -, hstart, -⟩ := split_of_mem_linesFrom h
  omega

/-- A line with the position in it or at its end is the line around the position. -/
theorem eq_lineAroundFrom_of_mem {position : Int} {number start : Nat} {cs : List Char} {line : Line}
    (h : line ∈ linesFrom number start cs) (hle : line.start ≤ position)
    (hge : position ≤ (line.start + line.length : Nat)) :
    line = lineAroundFrom position number start cs := by
  induction cs using line_induction generalizing number start with
  | last text htext =>
    rw [linesFrom_of_last htext] at h
    rw [lineAroundFrom_of_last htext]
    cases text with
    | nil => simp at h
    | cons c text => exact List.mem_singleton.mp h
  | more text rest htext ih =>
    rw [linesFrom_of_line htext] at h
    rw [lineAroundFrom_of_line htext]
    rcases List.mem_cons.mp h with rfl | h
    · rw [if_pos ⟨hle, hge⟩]
    · have hstart := start_le_of_mem_linesFrom h
      rw [if_neg (by omega)]
      exact ih h

theorem lineAroundFrom_mem {position : Int} (number : Nat) {start : Nat} {cs : List Char}
    (hle : start ≤ position) (hlt : position < (start + cs.length : Nat)) :
    let line := lineAroundFrom position number start cs
    line ∈ linesFrom number start cs ∧ line.start ≤ position ∧
      position ≤ (line.start + line.length : Nat) := by
  induction cs using line_induction generalizing number start with
  | last text htext =>
    rw [linesFrom_of_last htext, lineAroundFrom_of_last htext]
    cases text with
    | nil => simp at hlt; omega
    | cons c text => exact ⟨List.mem_singleton_self _, hle, Int.le_of_lt hlt⟩
  | more text rest htext ih =>
    rw [linesFrom_of_line htext, lineAroundFrom_of_line htext]
    rw [List.length_append, List.length_cons] at hlt
    by_cases hhere : (start : Int) ≤ position ∧ position ≤ (start + text.length : Nat)
    · rw [if_pos hhere]
      exact ⟨List.mem_cons_self, hhere⟩
    · have hnext : ((start + text.length + 1 : Nat) : Int) ≤ position := by omega
      rw [if_neg hhere]
      obtain ⟨hmem, hinside⟩ := ih (number + 1) hnext (by omega)
      exact ⟨List.mem_cons_of_mem _ hmem, hinside⟩

/-- A position past the text is in what follows the last newline. -/
theorem lineAroundFrom_past {position : Int} (number : Nat) {start : Nat} {cs : List Char}
    (h : (start + cs.length : Nat) ≤ position) :
    let line := lineAroundFrom position number start cs
    ∃ before, cs = before ++ line.text ∧ '\n' ∉ line.text ∧
      (before = [] ∨ before.getLast? = some '\n') ∧ line.start = start + before.length ∧
      line.number = number + cs.count '\n' := by
  induction cs using line_induction generalizing number start with
  | last text htext =>
    rw [lineAroundFrom_of_last htext, List.count_eq_zero.mpr htext]
    exact ⟨[], rfl, htext, .inl rfl, rfl, rfl⟩
  | more text rest htext ih =>
    rw [List.length_append, List.length_cons] at h
    rw [lineAroundFrom_of_line htext, if_neg (by omega)]
    have hpast : (start + text.length + 1 + rest.length : Nat) ≤ position := by omega
    obtain ⟨before, hrest, hline, hbefore, hstart, hnumber⟩ := ih (number + 1) hpast
    refine ⟨text ++ '\n' :: before, ?_, hline, .inr ?_, ?_, ?_⟩
    · rw [List.append_assoc, List.cons_append, ← hrest]
    · rcases hbefore with rfl | hbefore
      · simp
      · simp [List.getLast?_cons, hbefore]
    · rw [hstart, List.length_append, List.length_cons]
      omega
    · rw [hnumber, List.count_append, List.count_cons_self, List.count_eq_zero.mpr htext]
      omega

theorem getLast?_linesFrom_iff {position : Int} {number start : Nat} {cs : List Char}
    (h : (start + cs.length : Nat) ≤ position) :
    (linesFrom number start cs).getLast? = some (lineAroundFrom position number start cs) ↔
      cs ≠ [] ∧ cs.getLast? ≠ some '\n' := by
  induction cs using line_induction generalizing number start with
  | last text htext =>
    have hlast : text.getLast? ≠ some '\n' := fun hlast => htext (List.mem_of_getLast? hlast)
    rw [linesFrom_of_last htext, lineAroundFrom_of_last htext]
    cases text with
    | nil => simp
    | cons c text => simp [hlast]
  | more text rest htext ih =>
    rw [List.length_append, List.length_cons] at h
    rw [linesFrom_of_line htext, lineAroundFrom_of_line htext, if_neg (by omega)]
    by_cases hrest : rest = []
    · subst hrest
      have hnil : '\n' ∉ ([] : List Char) := List.not_mem_nil
      rw [linesFrom_of_last hnil, lineAroundFrom_of_last hnil]
      simp
    · rw [List.getLast?_cons_of_ne_nil (mt linesFrom_eq_nil_iff.mp hrest), ih (by omega),
        getLast?_of_line text hrest]
      simp [hrest]

theorem split_of_mem_lines {file : File} {line : Line} (h : line ∈ file.lines) :
    ∃ before after, file.contents = before ++ line.text ++ after ∧ line.start = before.length ∧
      '\n' ∉ line.text ∧ (after = [] ∨ ∃ rest, after = '\n' :: rest) := by
  obtain ⟨before, after, hcontents, hstart, hline⟩ := split_of_mem_linesFrom h
  exact ⟨before, after, hcontents, by rw [hstart, Nat.zero_add], hline⟩

theorem text_of_mem_lines {file : File} {line : Line} (h : line ∈ file.lines) :
    file.text (Span.between line.start (line.start + line.length)) = .ok line.text := by
  obtain ⟨before, after, hcontents, hstart, -⟩ := split_of_mem_lines h
  rw [hstart]
  exact text_between before line.text after hcontents

/-- A line that does not reach the end of the file has a newline behind it. -/
theorem newline_of_mem_lines {file : File} {line : Line} (h : line ∈ file.lines)
    (hlt : line.start + line.length < file.contents.length) :
    file.contents[line.start + line.length]? = some '\n' := by
  obtain ⟨before, after, hcontents, hstart, -, hafter⟩ := split_of_mem_lines h
  rw [hcontents, hstart, Line.length, List.length_append, List.length_append] at hlt
  rcases hafter with rfl | ⟨rest, rfl⟩
  · simp at hlt
  · rw [hcontents, hstart, Line.length, ← List.length_append, List.getElem?_append_right (Nat.le_refl _),
      Nat.sub_self]
    rfl

theorem isChain_lines (file : File) :
    file.lines.IsChain fun line next => next.start = line.start + line.length + 1 ∧
      file.contents[line.start + line.length]? = some '\n' := by
  apply (isChain_linesFrom 1 0 file.contents).imp_of_mem_imp
  intro line next hline hnext hstart
  refine ⟨hstart, newline_of_mem_lines hline ?_⟩
  obtain ⟨before, after, hcontents, hbefore, -⟩ := split_of_mem_lines hnext
  rw [hcontents, List.length_append, List.length_append]
  omega

theorem lineAround_mem {file : File} {span : Span} (hle : 0 ≤ span.start)
    (hlt : span.start < file.contents.length) :
    file.lineAround span ∈ file.lines ∧ (file.lineAround span).start ≤ span.start ∧
      span.start ≤ ((file.lineAround span).start + (file.lineAround span).length : Nat) :=
  lineAroundFrom_mem 1 (by omega) (by omega)

/-- A position of the file, or its end, is in the line around it or at the end of that. -/
theorem lineAround_inside {file : File} {span : Span} (hle : 0 ≤ span.start)
    (hge : span.start ≤ file.contents.length) :
    (file.lineAround span).start ≤ span.start ∧
      span.start ≤ ((file.lineAround span).start + (file.lineAround span).length : Nat) := by
  by_cases hlt : span.start < file.contents.length
  · exact (lineAround_mem hle hlt).2
  · have hpast : ((0 + file.contents.length : Nat) : Int) ≤ span.start := by omega
    obtain ⟨before, hcontents, -, -, hstart, -⟩ := lineAroundFrom_past 1 hpast
    have hlength := congrArg List.length hcontents
    rw [List.length_append] at hlength
    rw [lineAround, Line.length, hstart]
    omega

/-- A position of the file is at the end of its line exactly if there is a newline. -/
theorem newline_iff_at_end {file : File} {span : Span} (hle : 0 ≤ span.start)
    (hlt : span.start < file.contents.length) :
    file.contents[span.start.toNat]? = some '\n' ↔
      span.start = ((file.lineAround span).start + (file.lineAround span).length : Nat) := by
  obtain ⟨hmem, hstart, hstop⟩ := lineAround_mem hle hlt
  constructor
  · intro hnewline
    by_contra hne
    -- inside the line there is a character of it, and none of them is a newline
    obtain ⟨before, after, hcontents, hbefore, hline, -⟩ := split_of_mem_lines hmem
    rw [Line.length] at hstop hne
    rw [hcontents, List.append_assoc, List.getElem?_append_right (by omega),
      List.getElem?_append_left (by omega)] at hnewline
    exact hline (List.mem_of_getElem? hnewline)
  · intro heq
    rw [heq, Int.toNat_natCast]
    exact newline_of_mem_lines hmem (by omega)

/-- The lines of a file are numbered from one, follow each other with one newline between them, and make up the file.  The
line around a position of the file is the one that the position lies in, or at the end of which it stands.  The line around
a position past the file is what follows the last newline, and this is the last line unless it is empty. -/
theorem lines_agree_lineAround (file : File) :
    file.lines.map Line.number = List.range' 1 file.lines.length ∧
    (∀ line ∈ file.lines.head?, line.start = 0) ∧
    (file.lines.IsChain fun line next => next.start = line.start + line.length + 1 ∧
      file.contents[line.start + line.length]? = some '\n') ∧
    (∀ line ∈ file.lines, '\n' ∉ line.text ∧
      file.text (Span.between line.start (line.start + line.length)) = .ok line.text) ∧
    Text.joinWith '\n' (file.lines.map Line.text) ++
      (if file.contents.getLast? = some '\n' then ['\n'] else []) = file.contents ∧
    (∀ span : Span, 0 ≤ span.start → span.start < file.contents.length →
      file.lineAround span ∈ file.lines ∧ ∀ line ∈ file.lines,
        (line.start ≤ span.start ∧ span.start ≤ (line.start + line.length : Nat) ↔
          line = file.lineAround span)) ∧
    ∀ span : Span, file.contents.length ≤ span.start →
      (∃ before, file.contents = before ++ (file.lineAround span).text ∧
        '\n' ∉ (file.lineAround span).text ∧ (before = [] ∨ before.getLast? = some '\n') ∧
        (file.lineAround span).start = before.length ∧
        (file.lineAround span).number = 1 + file.contents.count '\n') ∧
      (file.lines.getLast? = some (file.lineAround span) ↔
        file.contents ≠ [] ∧ file.contents.getLast? ≠ some '\n') := by
  refine ⟨map_number_linesFrom 1 0 file.contents, ?_, file.isChain_lines, ?_,
    joinWith_linesFrom 1 0 file.contents, ?_, ?_⟩
  · intro line hline
    exact start_of_mem_head? hline
  · intro line hline
    obtain ⟨_, _, -, -, hnewline, -⟩ := split_of_mem_lines hline
    exact ⟨hnewline, text_of_mem_lines hline⟩
  · intro span hle hlt
    obtain ⟨hmem, hinside⟩ := lineAround_mem hle hlt
    refine ⟨hmem, fun line hline => ⟨?_, ?_⟩⟩
    · rintro ⟨hstart, hstop⟩
      exact eq_lineAroundFrom_of_mem hline hstart hstop
    · rintro rfl
      exact hinside
  · intro span hle
    have hpast : ((0 + file.contents.length : Nat) : Int) ≤ span.start := by omega
    obtain ⟨before, hcontents, hline, hbefore, hstart, hnumber⟩ := lineAroundFrom_past 1 hpast
    refine ⟨⟨before, hcontents, hline, hbefore, ?_, hnumber⟩, getLast?_linesFrom_iff hpast⟩
    rw [lineAround, hstart, Nat.zero_add]

/-- An empty line is the line around the newline that ends it, and behind a last newline there is no line. -/
theorem lines_agree_lineAround_emptyLine :
    let file : File := ⟨"", "a\n\nb\n".toList⟩
    file.lines = [⟨1, 0, ['a']⟩, ⟨2, 2, []⟩, ⟨3, 3, ['b']⟩] ∧ file.lineAround ⟨2, 4⟩ = ⟨2, 2, []⟩ ∧
      (file.lineAround ⟨5, 5⟩).number = 4 ∧ file.lines.getLast? ≠ some (file.lineAround ⟨5, 5⟩) := by
  intro file
  have hlines : file.lines = [⟨1, 0, ['a']⟩, ⟨2, 2, []⟩, ⟨3, 3, ['b']⟩] := by decide +kernel
  obtain ⟨-, -, -, -, -, hinside, hpast⟩ := lines_agree_lineAround file
  obtain ⟨-, hline⟩ := hinside ⟨2, 4⟩ (by decide) (by decide)
  have hempty := (hline ⟨2, 2, []⟩ (by rw [hlines]; simp)).mp (by decide)
  obtain ⟨⟨_, -, -, -, -, hnumber⟩, hlast⟩ := hpast ⟨5, 5⟩ (by decide)
  exact ⟨hlines, hempty.symm, hnumber, fun h => (hlast.mp h).2 rfl⟩

end TileSelect.File
