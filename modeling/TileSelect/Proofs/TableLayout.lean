import Mathlib.Algebra.GroupWithZero.Nat
import Mathlib.Data.List.Forall2
import TileSelect.Proofs.ResultSequences
import TileSelect.Terminal.Table

/-! # The layout of a printed table

Rows widen columns and limits narrow them again, but never below three, so a text that is longer than its column
stands in a column of three characters or more.  This is what printing needs to cut it, and it holds after any
requests.  Then all rows are printed equally long, and escape sequences only stand around the texts.  The exception
is a column of more than a million characters, where a text that is not cut is not padded either. -/
namespace TileSelect.Terminal.Table

inductive Request where
  | addRow (cells : List String)
  | limitWidth (column limit : Nat)
  | decorate (column row : Nat) (escape : Escape)
  | useEscapes (enable : Bool)

def added (requests : List Request) : List (List String) :=
  requests.filterMap fun
    | .addRow cells => some cells
    | _ => none

/-- Has a row as many cells as there are columns, and is a place one of the table? -/
def Request.InRange (columns rows : Nat) : Request → Prop
  | .addRow cells => cells.length = columns
  | .limitWidth column _ => column < columns
  | .decorate column row _ => column < columns ∧ row < rows
  | .useEscapes _ => True

/-- Is every request in range for the rows added before it? -/
def Allowed (columns : Nat) : List Request → List Request → Prop
  | _, [] => True
  | before, request :: requests =>
    request.InRange columns (added before).length ∧ Allowed columns (before ++ [request]) requests

def after (table : Table) : Request → Except Fault Table
  | .addRow cells => (table.addRow cells).map Prod.snd
  | .limitWidth column limit => table.limitWidth column limit
  | .decorate column row escape => table.decorate column row escape
  | .useEscapes enable => .ok (table.useEscapes enable)

def afterAll (table : Table) (requests : List Request) : Except Fault Table := requests.foldlM after table

/-- The width of a column after a request, from the one before it. -/
def Request.widthAt (column width : Nat) : Request → Nat
  | .addRow cells => max width ((cells[column]?.map String.length).getD 0)
  | .limitWidth column' limit => if column' = column then min width (max limit 3) else width
  | _ => width

def lastWidth (requests : List Request) (column : Nat) : Nat := requests.foldl (Request.widthAt column) 0

/-- The escape sequence of a place after a request, from the one before it. -/
def Request.escapeAt (column row : Nat) (escape : String) : Request → String
  | .decorate column' row' escape' => if column' = column ∧ row' = row then escape'.render else escape
  | _ => escape

def lastEscape (requests : List Request) (column row : Nat) : String :=
  requests.foldl (Request.escapeAt column row) ""

def texts (table : Table) : List (List String) := table.rows.map (List.map Cell.text)

/-- The escape sequence at a place, none if there is no cell. -/
def escapeAt (table : Table) (column row : Nat) : String :=
  (table.rows[row]?.bind fun cells => cells[column]?).elim "" Cell.escape

theorem length_texts (table : Table) : table.texts.length = table.height := List.length_map ..

/-- Can a text be printed in a column, whole or cut? -/
def Room (width : Nat) (text : String) : Prop := text.length ≤ width ∨ 3 ≤ width

theorem Room.widen {width width' : Nat} {text : String} (h : Room width text) (hle : width ≤ width') :
    Room width' text := by
  unfold Room at *
  omega

theorem Room.limit {width : Nat} {text : String} (h : Room width text) (limit : Nat) :
    Room (min width (max limit 3)) text := by
  unfold Room at *
  omega

theorem forall₂_room_widen {widths : List Nat} {row cells : List String} (h : List.Forall₂ Room widths row)
    (hcells : cells.length = widths.length) :
    List.Forall₂ Room (List.zipWith (fun width cell => max width cell.length) widths cells) row := by
  induction h generalizing cells with
  | nil => exact .nil
  | cons hroom _ ih =>
    cases cells with
    | nil => cases hcells
    | cons cell cells =>
      apply List.Forall₂.cons
      · exact hroom.widen (Nat.le_max_left _ _)
      · exact ih (Nat.succ.inj hcells)

theorem forall₂_room_new {widths : List Nat} {cells : List String} (hcells : cells.length = widths.length) :
    List.Forall₂ Room (List.zipWith (fun width cell => max width cell.length) widths cells) cells := by
  induction widths generalizing cells with
  | nil =>
    rw [List.length_eq_zero_iff.mp hcells]
    exact .nil
  | cons width widths ih =>
    cases cells with
    | nil => cases hcells
    | cons cell cells =>
      apply List.Forall₂.cons
      · exact .inl (Nat.le_max_right _ _)
      · exact ih (Nat.succ.inj hcells)

theorem forall₂_room_limit {widths : List Nat} {row : List String} (h : List.Forall₂ Room widths row)
    {column width : Nat} (hwidth : widths[column]? = some width) (limit : Nat) :
    List.Forall₂ Room (widths.set column (min width (max limit 3))) row := by
  induction h generalizing column with
  | nil => cases hwidth
  | cons hroom hrest ih =>
    cases column with
    | zero =>
      obtain rfl := Option.some.inj hwidth
      exact .cons (hroom.limit limit) hrest
    | succ column => exact .cons hroom (ih hwidth)

/-- What a table with some columns is like after requests: it has their widths, rows and escape sequences, and room for
every text. -/
structure Tracks (columns : Nat) (table : Table) (requests : List Request) : Prop where
  length : table.widths.length = columns
  widths : ∀ column < columns, table.widths[column]? = some (lastWidth requests column)
  texts : table.texts = added requests
  escapes : ∀ column row, table.escapeAt column row = lastEscape requests column row
  room : ∀ row ∈ table.texts, List.Forall₂ Room table.widths row

theorem added_concat (requests : List Request) (request : Request) :
    added (requests ++ [request]) = added requests ++ added [request] :=
  List.filterMap_append ..

theorem lastWidth_concat (requests : List Request) (request : Request) (column : Nat) :
    lastWidth (requests ++ [request]) column = request.widthAt column (lastWidth requests column) := by
  rw [lastWidth, List.foldl_append]
  rfl

theorem lastEscape_concat (requests : List Request) (request : Request) (column row : Nat) :
    lastEscape (requests ++ [request]) column row =
      request.escapeAt column row (lastEscape requests column row) := by
  rw [lastEscape, List.foldl_append]
  rfl

/-- New cells have no escape sequence. -/
theorem escapeAt_concat (table : Table) (widths : List Nat) (cells : List String) (column row : Nat) :
    escapeAt { table with widths, rows := table.rows ++ [cells.map fun cell => { text := cell }] } column row =
      table.escapeAt column row := by
  unfold escapeAt
  by_cases hrow : row < table.rows.length
  · rw [List.getElem?_append_left hrow]
  · rw [List.getElem?_append_right (by omega), List.getElem?_eq_none (Nat.le_of_not_lt hrow),
      List.getElem?_singleton]
    split
    · rw [Option.bind_some, List.getElem?_map]
      cases cells[column]? <;> rfl
    · rfl

theorem map_set_of_eq {α β : Type} {f : α → β} {xs : List α} {i : Nat} {x x' : α} (hx : xs[i]? = some x)
    (h : f x' = f x) : (xs.set i x').map f = xs.map f := by
  obtain ⟨hi, rfl⟩ := List.getElem?_eq_some_iff.mp hx
  have hi' : i < (xs.map f).length := by rwa [List.length_map]
  have hget : (xs.map f)[i] = f xs[i] := List.getElem_map ..
  rw [List.map_set, h, ← hget, List.set_getElem_self hi']

section Decorate

variable {table : Table} {column row : Nat} {cells : List Cell} {cell : Cell}

theorem decorate_eq_ok (hcells : table.rows[row]? = some cells) (hcell : cells[column]? = some cell)
    (escape : Escape) : table.decorate column row escape =
      .ok { table with rows := table.rows.set row (cells.set column { cell with escape := escape.render }) } := by
  have hplace : table.cell column row = .ok cell := by
    rw [Table.cell, hcells, Option.bind_some, hcell]
  rw [Table.decorate, hplace, Result.ok_bind, List.modify_eq_set_getElem?, hcells]
  rfl

/-- The cell keeps its text. -/
theorem texts_decorated (hcells : table.rows[row]? = some cells) (hcell : cells[column]? = some cell)
    (escape : String) :
    texts { table with rows := table.rows.set row (cells.set column { cell with escape }) } = table.texts := by
  apply map_set_of_eq hcells
  exact map_set_of_eq hcell rfl

/-- No other cell is changed. -/
theorem escapeAt_decorated (hcells : table.rows[row]? = some cells) (hcell : cells[column]? = some cell)
    (escape : String) (column' row' : Nat) :
    escapeAt { table with rows := table.rows.set row (cells.set column { cell with escape }) } column' row' =
      if column = column' ∧ row = row' then escape else table.escapeAt column' row' := by
  obtain ⟨hrow, -⟩ := List.getElem?_eq_some_iff.mp hcells
  obtain ⟨hcolumn, -⟩ := List.getElem?_eq_some_iff.mp hcell
  unfold escapeAt
  by_cases hsame : row = row'
  · subst hsame
    rw [List.getElem?_set_self hrow, hcells, Option.bind_some, Option.bind_some, List.getElem?_set]
    by_cases hplace : column = column'
    · rw [if_pos hplace, if_pos hcolumn, if_pos ⟨hplace, rfl⟩]
      rfl
    · rw [if_neg hplace, if_neg fun h => hplace h.1]
  · rw [List.getElem?_set_ne hsame, if_neg fun h => hsame h.2]

end Decorate

namespace Tracks

variable {columns : Nat} {table : Table} {requests : List Request}

theorem addRow (h : Tracks columns table requests) {cells : List String} (hcells : cells.length = columns) :
    ∃ table', table.after (.addRow cells) = .ok table' ∧
      Tracks columns table' (requests ++ [.addRow cells]) := by
  have hlength : cells.length = table.widths.length := hcells.trans h.length.symm
  rw [after, Table.addRow, if_pos hlength]
  refine ⟨_, rfl, ?_, ?_, ?_, ?_, ?_⟩
  · rw [List.length_zipWith, hlength, Nat.min_self, h.length]
  · intro column hcolumn
    have hlt : column < cells.length := by rwa [hcells]
    have hcell := List.getElem?_eq_getElem hlt
    rw [List.getElem?_zipWith, h.widths column hcolumn, hcell, lastWidth_concat, Request.widthAt, hcell]
    rfl
  · rw [added_concat, ← h.texts, Table.texts, List.map_append]
    simp [Table.texts, added, Function.comp_def]
  · intro column row
    rw [lastEscape_concat, ← h.escapes]
    exact escapeAt_concat ..
  · intro row hrow
    rw [Table.texts, List.map_append, List.mem_append] at hrow
    -- an old text keeps its room as columns only get wider, a new one fits whole
    rcases hrow with hrow | hrow
    · exact forall₂_room_widen (h.room row hrow) hlength
    · have hnew : row = cells := by simpa [Function.comp_def] using hrow
      rw [hnew]
      exact forall₂_room_new hlength

theorem limitWidth (h : Tracks columns table requests) {column : Nat} (hcolumn : column < columns) (limit : Nat) :
    ∃ table', table.after (.limitWidth column limit) = .ok table' ∧
      Tracks columns table' (requests ++ [.limitWidth column limit]) := by
  have hlt : column < table.widths.length := by rwa [h.length]
  have hwidth := h.widths column hcolumn
  rw [after, Table.limitWidth, hwidth]
  refine ⟨_, rfl, ?_, ?_, ?_, ?_, ?_⟩
  · rw [List.length_set, h.length]
  · intro column' hcolumn'
    rw [List.getElem?_set, lastWidth_concat, Request.widthAt]
    by_cases hsame : column = column'
    · subst hsame
      rw [if_pos rfl, if_pos hlt, if_pos rfl]
    · rw [if_neg hsame, if_neg hsame, h.widths column' hcolumn']
  · rw [added_concat, ← h.texts]
    exact (List.append_nil _).symm
  · intro column' row
    rw [lastEscape_concat, ← h.escapes]
    rfl
  · intro row hrow
    exact forall₂_room_limit (h.room row hrow) hwidth limit

theorem exists_cell (h : Tracks columns table requests) {column row : Nat} (hcolumn : column < columns)
    (hrow : row < table.height) :
    ∃ cells cell, table.rows[row]? = some cells ∧ cells[column]? = some cell := by
  have hcells := List.getElem?_eq_getElem hrow
  have hmem : table.rows[row].map Cell.text ∈ table.texts := List.mem_map_of_mem (List.getElem_mem hrow)
  have hlength := (h.room _ hmem).length_eq
  rw [List.length_map, h.length] at hlength
  have hlt : column < table.rows[row].length := by rwa [← hlength]
  exact ⟨_, _, hcells, List.getElem?_eq_getElem hlt⟩

theorem decorate (h : Tracks columns table requests) {column row : Nat} (hcolumn : column < columns)
    (hrow : row < (added requests).length) (escape : Escape) :
    ∃ table', table.after (.decorate column row escape) = .ok table' ∧
      Tracks columns table' (requests ++ [.decorate column row escape]) := by
  rw [← h.texts, length_texts] at hrow
  obtain ⟨cells, cell, hcells, hcell⟩ := h.exists_cell hcolumn hrow
  have htexts := texts_decorated hcells hcell escape.render
  rw [after, decorate_eq_ok hcells hcell]
  refine ⟨_, rfl, h.length, ?_, ?_, ?_, ?_⟩
  · intro column' hcolumn'
    rw [lastWidth_concat]
    exact h.widths column' hcolumn'
  · rw [htexts, added_concat, ← h.texts]
    exact (List.append_nil _).symm
  · intro column' row'
    rw [escapeAt_decorated hcells hcell, lastEscape_concat, ← h.escapes]
    rfl
  · rw [htexts]
    exact h.room

theorem useEscapes (h : Tracks columns table requests) (enable : Bool) :
    Tracks columns (table.useEscapes enable) (requests ++ [.useEscapes enable]) := by
  refine ⟨h.length, ?_, ?_, ?_, h.room⟩
  · intro column hcolumn
    rw [lastWidth_concat]
    exact h.widths column hcolumn
  · rw [added_concat, ← h.texts]
    exact (List.append_nil _).symm
  · intro column row
    rw [lastEscape_concat, ← h.escapes]
    rfl

/-- A request in range is answered. -/
theorem after (h : Tracks columns table requests) {request : Request}
    (hrequest : request.InRange columns (added requests).length) :
    ∃ table', table.after request = .ok table' ∧ Tracks columns table' (requests ++ [request]) := by
  cases request with
  | addRow cells => exact h.addRow hrequest
  | limitWidth column limit => exact h.limitWidth hrequest limit
  | decorate column row escape => exact h.decorate hrequest.1 hrequest.2 escape
  | useEscapes enable => exact ⟨_, rfl, h.useEscapes enable⟩

theorem afterAll {before : List Request} (h : Tracks columns table before)
    (hrequests : Allowed columns before requests) :
    ∃ table', table.afterAll requests = .ok table' ∧ Tracks columns table' (before ++ requests) := by
  -- over the requests that are left; those before them say what the table is like by now
  induction requests generalizing table before with
  | nil => exact ⟨table, rfl, by rwa [List.append_nil]⟩
  | cons request requests ih =>
    obtain ⟨next, hnext, htracks⟩ := h.after hrequests.1
    obtain ⟨last, hlast, hall⟩ := ih htracks hrequests.2
    refine ⟨last, ?_, by rwa [List.append_assoc] at hall⟩
    rw [Table.afterAll, List.foldlM_cons, hnext, Result.ok_bind]
    exact hlast

end Tracks

theorem tracks_ofColumns? {columns : Nat} {table : Table} (h : ofColumns? columns = .ok table) :
    Tracks columns table [] := by
  unfold ofColumns? at h
  split at h
  · cases h
  · obtain rfl := Except.ok.inj h
    refine ⟨List.length_replicate, ?_, rfl, fun column row => rfl, ?_⟩
    · intro column hcolumn
      exact List.getElem?_replicate_of_lt hcolumn
    · intro row hrow
      cases hrow

/-- A text is to be padded to a width that texts are not padded to. -/
def Unpadded (width : Nat) (text : String) : Prop := text.length ≤ width ∧ maxPadding < width

instance (width : Nat) (text : String) : Decidable (Unpadded width text) := inferInstanceAs (Decidable (_ ∧ _))

/-- A text as it should stand in a column: whole and padded, or cut two characters short with two dots behind it. -/
def shown (width : Nat) (cs : List Char) : List Char :=
  if cs.length ≤ width then cs ++ List.replicate (width - cs.length) ' '
  else cs.take (width - 2) ++ ['.', '.']

/-- A text as it stands in a column: as it should, or whole behind a mark if it is not padded. -/
def printed (width : Nat) (text : String) : List Char :=
  if Unpadded width text then widthRefused.toList ++ text.toList else shown width text.toList

/-- A text in a column with something sent before and behind it, and the bar. -/
def place (before behind : String) (width : Nat) (text : String) : String :=
  before ++ (" " ++ String.ofList (printed width text)) ++ behind ++ " |"

def line (before behind : Cell → String) (widths : List Nat) (cells : List Cell) : String :=
  String.join ((widths.zip cells).map fun part => place (before part.2) (behind part.2) part.1 part.2.text) ++ "\n"

/-- What is sent behind the text of a cell that has an escape sequence. -/
def closing (cell : Cell) : String := if cell.escape = "" then "" else Escape.reset.render

def plainLine (widths : List Nat) (cells : List Cell) : String := line (fun _ => "") (fun _ => "") widths cells

def colouredLine (widths : List Nat) (cells : List Cell) : String := line Cell.escape closing widths cells

theorem length_shown {width : Nat} {text : String} (h : Room width text) :
    (shown width text.toList).length = width := by
  unfold Room at h
  rw [shown, String.length_toList]
  split
  · rw [List.length_append, List.length_replicate, String.length_toList]
    omega
  · rw [List.length_append, List.length_take, String.length_toList, List.length_cons, List.length_cons,
      List.length_nil]
    omega

theorem printed_of_unpadded {width : Nat} {text : String} (h : Unpadded width text) :
    printed width text = widthRefused.toList ++ text.toList := if_pos h

theorem printed_of_not_unpadded {width : Nat} {text : String} (h : ¬ Unpadded width text) :
    printed width text = shown width text.toList := if_neg h

theorem fit_eq_ok {width : Nat} {text : String} (h : Room width text) :
    fit width text = .ok (printed width text) := by
  unfold Room at h
  rw [fit, String.length_toList]
  split
  · next hwhole =>
    rw [pad]
    split
    · next hwidth =>
      rw [printed_of_not_unpadded fun hunpadded => Nat.not_lt.mpr hwidth hunpadded.2, shown,
        String.length_toList, if_pos hwhole]
    · next hwidth => rw [printed_of_unpadded ⟨hwhole, Nat.lt_of_not_le hwidth⟩]
  · next hcut =>
    rw [if_neg (by omega), printed_of_not_unpadded fun hunpadded => hcut hunpadded.1, shown,
      String.length_toList, if_neg hcut]

theorem length_place {width : Nat} {text : String} (h : Room width text) (hpadded : ¬ Unpadded width text) :
    (place "" "" width text).length = width + 3 := by
  have hprinted : (String.ofList (printed width text)).length = width := by
    rw [String.length_ofList, printed_of_not_unpadded hpadded, length_shown h]
  have hspace : " ".length = 1 := rfl
  have hbar : " |".length = 2 := rfl
  rw [place, String.empty_append, String.append_empty, String.length_append, String.length_append, hprinted,
    hspace, hbar]
  omega

theorem renderCell_eq_ok {width : Nat} {cell : Cell} (h : Room width cell.text) (escapes : Bool) :
    renderCell escapes width cell =
      .ok (if escapes then place cell.escape (closing cell) width cell.text else place "" "" width cell.text) := by
  rw [renderCell, fit_eq_ok h, Result.ok_bind]
  by_cases hescape : cell.escape = "" <;> cases escapes <;> simp [closing, place, hescape]

theorem room_of_mem_zip {widths : List Nat} {cells : List Cell}
    (h : List.Forall₂ Room widths (cells.map Cell.text)) {part : Nat × Cell} (hpart : part ∈ widths.zip cells) :
    Room part.1 part.2.text := by
  obtain ⟨-, hroom⟩ := List.forall₂_iff_zip.mp (List.forall₂_map_right_iff.mp h)
  exact hroom hpart

theorem renderRow_eq_ok {widths : List Nat} {cells : List Cell}
    (h : List.Forall₂ Room widths (cells.map Cell.text)) (escapes : Bool) :
    renderRow escapes widths cells =
      .ok (if escapes then colouredLine widths cells else plainLine widths cells) := by
  have hparts := Result.mapM_eq_ok_map fun (part : Nat × Cell) (hpart : part ∈ widths.zip cells) =>
    renderCell_eq_ok (room_of_mem_zip h hpart) escapes
  rw [renderRow, hparts, Result.ok_bind]
  cases escapes <;> rfl

/-- A table with room for its texts is printed. -/
theorem render_useEscapes {table : Table} (h : ∀ row ∈ table.texts, List.Forall₂ Room table.widths row)
    (escapes : Bool) : (table.useEscapes escapes).render =
      .ok (String.join (table.rows.map
        (if escapes then colouredLine table.widths else plainLine table.widths))) := by
  have hrows : ∀ cells ∈ table.rows, renderRow escapes table.widths cells =
      .ok ((if escapes then colouredLine table.widths else plainLine table.widths) cells) := by
    intro cells hcells
    rw [renderRow_eq_ok (h _ (List.mem_map_of_mem hcells))]
    cases escapes <;> rfl
  have hprinted := Result.mapM_eq_ok_map hrows
  rw [render, Table.useEscapes, hprinted]
  rfl

theorem length_plainLine {widths : List Nat} {cells : List Cell}
    (h : List.Forall₂ Room widths (cells.map Cell.text))
    (hpadded : ∀ part ∈ widths.zip cells, ¬ Unpadded part.1 part.2.text) :
    (plainLine widths cells).length = (widths.map (· + 3)).sum + 1 := by
  have hlength : widths.length = cells.length := by
    rw [h.length_eq, List.length_map]
  have hparts : ((widths.zip cells).map fun part => place "" "" part.1 part.2.text).map String.length =
      ((widths.zip cells).map Prod.fst).map (· + 3) := by
    rw [List.map_map, List.map_map]
    apply List.map_congr_left
    intro part hpart
    rw [Function.comp_apply, Function.comp_apply, length_place (room_of_mem_zip h hpart) (hpadded part hpart)]
  have hnewline : "\n".length = 1 := rfl
  rw [List.map_fst_zip (Nat.le_of_eq hlength)] at hparts
  rw [plainLine, line, String.length_append, String.length_join, hparts, hnewline]

theorem widthAt_le {column width bound : Nat} {request : Request} (hwidth : width ≤ bound)
    (hcells : ∀ cells ∈ added [request], ∀ text ∈ cells, text.length ≤ bound) :
    request.widthAt column width ≤ bound := by
  cases request with
  | addRow cells =>
    apply Nat.max_le.mpr ⟨hwidth, ?_⟩
    cases hcell : cells[column]? with
    | none => exact Nat.zero_le bound
    | some text => exact hcells cells List.mem_cons_self text (List.mem_of_getElem? hcell)
  | limitWidth column' limit =>
    rw [Request.widthAt]
    split
    · exact Nat.le_trans (Nat.min_le_left _ _) hwidth
    · exact hwidth
  | decorate => exact hwidth
  | useEscapes => exact hwidth

/-- No column gets wider than the longest text. -/
theorem foldl_widthAt_le {requests : List Request} {column width bound : Nat} (hwidth : width ≤ bound)
    (h : ∀ cells ∈ added requests, ∀ text ∈ cells, text.length ≤ bound) :
    requests.foldl (Request.widthAt column) width ≤ bound := by
  induction requests generalizing width with
  | nil => exact hwidth
  | cons request requests ih =>
    have hsplit : added (request :: requests) = added [request] ++ added requests :=
      List.filterMap_append (l := [request])
    rw [hsplit] at h
    apply ih
    · exact widthAt_le hwidth fun cells hcells => h cells (List.mem_append_left _ hcells)
    · exact fun cells hcells => h cells (List.mem_append_right _ hcells)

theorem Tracks.padded {columns : Nat} {table : Table} {requests : List Request}
    (h : Tracks columns table requests)
    (htexts : ∀ cells ∈ added requests, ∀ text ∈ cells, text.length ≤ maxPadding) :
    ∀ width ∈ table.widths, width ≤ maxPadding := by
  intro width hwidth
  obtain ⟨column, hcolumn⟩ := List.mem_iff_getElem?.mp hwidth
  obtain ⟨hlt, -⟩ := List.getElem?_eq_some_iff.mp hcolumn
  rw [h.widths column (h.length ▸ hlt)] at hcolumn
  rw [← Option.some.inj hcolumn]
  exact foldl_widthAt_le (Nat.zero_le _) htexts

/-- After any requests in range a table has the widths, rows and escape sequences asked for and is printed without a
fault, each row in one line.  With escape sequences, each cell that has one stands between it and the reset.  Without
them a line in which no text is left unpadded has three characters more than its width for each column and the
newline, so that such lines are equally long; and no text is left unpadded unless one of the table's texts is longer
than a million characters. -/
theorem render_lines_up {columns : Nat} {start : Table} (hstart : ofColumns? columns = .ok start)
    {requests : List Request} (hrequests : Allowed columns [] requests) :
    ∃ table, start.afterAll requests = .ok table ∧ table.widths.length = columns ∧
      (∀ column < columns, table.widths[column]? = some (lastWidth requests column)) ∧
      table.texts = added requests ∧
      (∀ column row, table.escapeAt column row = lastEscape requests column row) ∧
      (∃ out, table.render = .ok out) ∧
      (table.useEscapes false).render = .ok (String.join (table.rows.map (plainLine table.widths))) ∧
      (table.useEscapes true).render = .ok (String.join (table.rows.map (colouredLine table.widths))) ∧
      (∀ cells ∈ table.rows, (∀ part ∈ table.widths.zip cells, ¬ Unpadded part.1 part.2.text) →
        (plainLine table.widths cells).length = (table.widths.map (· + 3)).sum + 1) ∧
      ((∀ cells ∈ added requests, ∀ text ∈ cells, text.length ≤ maxPadding) →
        ∀ cells ∈ table.rows, ∀ part ∈ table.widths.zip cells, ¬ Unpadded part.1 part.2.text) := by
  obtain ⟨table, htable, htracks⟩ := (tracks_ofColumns? hstart).afterAll hrequests
  have hrender := render_useEscapes htracks.room
  refine ⟨table, htable, htracks.length, htracks.widths, htracks.texts, htracks.escapes,
    ⟨_, hrender table.escapes⟩, hrender false, hrender true, ?_, ?_⟩
  · intro cells hcells
    exact length_plainLine (htracks.room _ (List.mem_map_of_mem hcells))
  · intro htexts cells _ part hpart hunpadded
    have hwidth := htracks.padded htexts part.1 (List.of_mem_zip hpart).1
    exact Nat.not_lt.mpr hwidth hunpadded.2

/-- A text that was cut by a limit stays cut when a later row widens its column, by less than it needs. -/
theorem render_lines_up_limited :
    let requests : List Request := [.addRow ["abcdefgh"], .limitWidth 0 5,
      .decorate 0 0 (Escape.plain.foreground green), .addRow ["uvwxyz"]]
    Allowed 1 [] requests ∧ ∃ table, (ofColumns 1).afterAll requests = .ok table ∧
      table.widths[0]? = some 6 ∧ table.texts = [["abcdefgh"], ["uvwxyz"]] ∧ table.escapeAt 0 0 = "\x1b[32m" ∧
      (table.useEscapes false).render = .ok " abcd.. |\n uvwxyz |\n" ∧
      (table.useEscapes true).render = .ok "\x1b[32m abcd..\x1b[0m |\n uvwxyz |\n" := by
  intro requests
  have hrequests : Allowed 1 [] requests := ⟨rfl, Nat.zero_lt_one, ⟨Nat.zero_lt_one, Nat.zero_lt_one⟩, rfl, trivial⟩
  obtain ⟨table, htable, -, hwidths, htexts, hescapes, -, hplain, hcoloured, -, -⟩ :=
    render_lines_up rfl hrequests
  refine ⟨hrequests, table, htable, hwidths 0 Nat.zero_lt_one, htexts, hescapes 0 0, ?_⟩
  have hknown : (ofColumns 1).afterAll requests =
      .ok ⟨[6], [[⟨"abcdefgh", "\x1b[32m"⟩], [⟨"uvwxyz", ""⟩]], true⟩ := rfl
  obtain rfl := Except.ok.inj (htable.symm.trans hknown)
  rw [hplain, hcoloured]
  exact ⟨congrArg Except.ok (by decide +kernel), congrArg Except.ok (by decide +kernel)⟩

theorem plainLine_unpadded {width : Nat} {text : String} (h : Unpadded width text) :
    plainLine [width] [⟨text, ""⟩] = " %!(BADWIDTH)" ++ text ++ " |\n" := by
  have hmark : " " ++ (widthRefused ++ text) = " %!(BADWIDTH)" ++ text := by
    rw [← String.append_assoc]
    rfl
  rw [plainLine, line, List.zip_cons_cons, List.zip_nil_left, List.map_cons, List.map_nil, place,
    printed_of_unpadded h, String.ofList_append, String.ofList_toList, String.ofList_toList, hmark]
  simp [String.join, String.append_assoc]

/-- The text of the longest cell is not padded in its column and has a mark in front of it, which makes its line longer
than it should be. -/
theorem render_overlongText :
    let text := String.ofList (List.replicate 1000001 'x')
    Allowed 1 [] [.addRow [text]] ∧ ∃ table, (ofColumns 1).afterAll [.addRow [text]] = .ok table ∧
      table.widths = [1000001] ∧
      (table.useEscapes false).render = .ok (" %!(BADWIDTH)" ++ text ++ " |\n") ∧
      (" %!(BADWIDTH)" ++ text ++ " |\n").length ≠ (table.widths.map (· + 3)).sum + 1 := by
  intro text
  have hlength : text.length = 1000001 := by rw [String.length_ofList, List.length_replicate]
  have hunpadded : Unpadded 1000001 text := ⟨Nat.le_of_eq hlength, by decide⟩
  have hroom : ∀ row ∈ texts ⟨[1000001], [[⟨text, ""⟩]], true⟩, List.Forall₂ Room [1000001] row :=
    List.forall_mem_singleton.mpr (.cons (.inl (Nat.le_of_eq hlength)) .nil)
  have htable : (ofColumns 1).afterAll [.addRow [text]] = .ok ⟨[max 0 text.length], [[⟨text, ""⟩]], true⟩ := rfl
  rw [hlength] at htable
  refine ⟨⟨rfl, trivial⟩, _, htable, rfl, ?_, ?_⟩
  · rw [← plainLine_unpadded hunpadded]
    exact render_useEscapes hroom false
  · rw [String.length_append, String.length_append, hlength]
    decide

end TileSelect.Terminal.Table
