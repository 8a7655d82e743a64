import TileSelect.Proofs.DecimalNumerals
import TileSelect.Proofs.SourceLines
import TileSelect.Source.SyntaxError

/-! # The columns of an error

An error is shown on one line or with its line underlined.  Both name the same line and first column; the end
columns differ where nothing of the span is inside the line, because the underline has at least one character. -/
namespace TileSelect

theorem Text.toString_injective {a b : Nat} (h : toString a = toString b) : a = b := by
  have ha := readUnsigned_toString (max a b) a
  rw [h, readUnsigned_toString, if_pos (Nat.le_max_right a b), if_pos (Nat.le_max_left a b)] at ha
  exact (Except.ok.inj ha).symm

namespace SyntaxError

def shown (e : SyntaxError) (first last : Nat) : String :=
  e.file.name ++ ":" ++ toString e.line.number ++ ":" ++ toString first ++ "-" ++ toString last ++ " " ++
    e.message

theorem shown_inj {e : SyntaxError} {first last last' : Nat} :
    e.shown first last = e.shown first last' ↔ last = last' := by
  constructor
  · intro h
    rw [shown, shown, String.append_left_inj, String.append_left_inj, String.append_right_inj] at h
    exact Text.toString_injective h
  · rintro rfl
    rfl

theorem header_eq_shown (e : SyntaxError) (offset length : Nat) :
    e.header offset length = e.shown (offset + 1) (offset + 1 + length) := by
  have hfirst : (1 : Int) + offset = (offset + 1 : Nat) := by omega
  have hlast : ((offset + 1 : Nat) : Int) + length = (offset + 1 + length : Nat) := by omega
  rw [header, hfirst, hlast]
  rfl

theorem extent_eq_min (e : SyntaxError) (offset : Int) :
    e.extent offset = min (e.line.length - offset) e.span.length := by
  rw [extent, min_def]

/-- An error inside its file starts in its line or at the end of it. -/
theorem offset_inside {e : SyntaxError} (hstart : 0 ≤ e.span.start)
    (hend : e.span.start ≤ e.file.contents.length) : 0 ≤ e.offset ∧ e.offset ≤ e.line.length := by
  obtain ⟨hle, hge⟩ := File.lineAround_inside hstart hend
  rw [offset, line]
  omega

theorem caretOffset_eq {e : SyntaxError} (h : 0 ≤ e.offset) : (e.caretOffset : Int) = e.offset :=
  Int.toNat_of_nonneg h

theorem caretLength_eq {e : SyntaxError} (h : 0 ≤ e.offset) :
    e.caretLength = max 1 (e.extent e.offset).toNat := by
  rw [caretLength, caretOffset_eq h]
  split <;> omega

/-- Something of the span is inside the line exactly if the span is not empty and does not start on a newline. -/
theorem extent_pos_iff {e : SyntaxError} (hstart : 0 ≤ e.span.start)
    (hend : e.span.stop ≤ e.file.contents.length) : 0 < e.extent e.offset ↔
      e.span.start < e.span.stop ∧ e.file.contents[e.span.start.toNat]? ≠ some '\n' := by
  rw [extent_eq_min, lt_min_iff, Span.length]
  constructor
  · rintro ⟨hrest, hlength⟩
    refine ⟨by omega, fun hnewline => ?_⟩
    have hline := (File.newline_iff_at_end hstart (by omega)).mp hnewline
    rw [offset, line] at hrest
    omega
  · rintro ⟨hlt, hnewline⟩
    have hline := mt (File.newline_iff_at_end hstart (by omega)).mpr hnewline
    obtain ⟨-, hle⟩ := offset_inside hstart (by omega : e.span.start ≤ e.file.contents.length)
    rw [offset, line] at hle ⊢
    omega

/-- An error inside its file has the same line and first column on one line and underlined, and the column is one of the
line or the one past it.  The end column on one line is as many columns further as the span has characters in the line,
the other one too but at least one column, and the underline goes at most one column past the line. -/
theorem display_report_agree (e : SyntaxError) (hstart : 0 ≤ e.span.start)
    (hstop : e.span.start ≤ e.span.stop) (hend : e.span.stop ≤ e.file.contents.length) :
    ∃ column n : Nat, column = 1 + (e.span.start - e.line.start) ∧ 1 ≤ column ∧ column ≤ e.line.length + 1 ∧
      n = min (e.line.length - (e.span.start - e.line.start)) e.span.length ∧
      e.display = e.shown column (column + n) ∧
      e.report = e.shown column (column + max 1 n) ++ "\n\n" ++ String.ofList e.line.text ++ "\n" ++
        String.ofList (List.replicate (column - 1) ' ') ++ String.ofList (List.replicate (max 1 n) '^') ++
        "\n" ∧
      (e.shown column (column + n) = e.shown column (column + max 1 n) ↔
        e.span.start < e.span.stop ∧ e.file.contents[e.span.start.toNat]? ≠ some '\n') ∧
      column - 1 + max 1 n ≤ e.line.length + 1 := by
  obtain ⟨hoffset, hinside⟩ := offset_inside hstart (by omega : e.span.start ≤ e.file.contents.length)
  have hcaret := caretOffset_eq hoffset
  have hmin := extent_eq_min e e.offset
  have hextent : ((e.extent e.offset).toNat : Int) = e.extent e.offset := by
    rw [Span.length] at hmin
    omega
  have hlength := caretLength_eq hoffset
  refine ⟨e.caretOffset + 1, (e.extent e.offset).toNat, ?_, by omega, by omega, ?_, ?_, ?_, ?_, ?_⟩
  · rw [offset] at hcaret
    omega
  · rw [hextent, hmin]
    rfl
  · rw [display, ← header_eq_shown, hcaret, hextent]
  · rw [report, hlength, header_eq_shown]
    rfl
  · rw [shown_inj, ← extent_pos_iff hstart hend]
    omega
  · omega

/-- A span that starts on a newline is shown as empty on one line and underlined behind its line. -/
theorem display_report_agree_newline :
    let e : SyntaxError := ⟨⟨"f", "a\nbc".toList⟩, ⟨1, 3⟩, "m"⟩
    e.file.contents[e.span.start.toNat]? = some '\n' ∧ e.display = "f:1:2-2 m" ∧
      e.report = "f:1:2-3 m\n\na\n ^\n" := by
  intro e
  have hline : e.line = ⟨1, 0, ['a']⟩ := by decide +kernel
  obtain ⟨column, n, hcolumn, -, -, hn, hdisplay, hreport, -⟩ :=
    display_report_agree e (by decide) (by decide) (by decide)
  rw [hline] at hcolumn hn hreport
  obtain rfl : column = 2 := Int.ofNat_inj.mp hcolumn
  obtain rfl : n = 0 := Int.ofNat_inj.mp hn
  refine ⟨rfl, ?_, ?_⟩
  · rw [hdisplay, shown, hline]
    decide +kernel
  · rw [hreport, shown, hline]
    decide +kernel

end SyntaxError
end TileSelect
