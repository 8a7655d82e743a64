import TileSelect.Proofs.SExprRecording

/-! # Where terms stand

The mark of a term is exactly where it stands.  The text there is read as the term alone and starts and ends with one
of its own characters.  A list stands around its items, and what follows a term stands after it. -/
namespace TileSelect.SExpr

def Lexeme.chars : Lexeme → List Char
  | left _ => ['(']
  | right _ => [')']
  | word _ text => text

def Lexeme.unplaced : Lexeme → Lexeme
  | left _ => left 0
  | right _ => right 0
  | word _ text => word 0 text

theorem isBlank_of_endsSymbol {c : Char} (h : endsSymbol c = false) : Text.isBlank c = false := by
  simp only [endsSymbol, Bool.or_eq_false_iff] at h
  exact h.2

theorem solid_of_mem_lexemes {position : Nat} {cs : List Char} {lexeme : Lexeme}
    (h : lexeme ∈ lexemes position cs) :
    lexeme.chars ≠ [] ∧ ∀ c ∈ lexeme.chars, Text.isBlank c = false := by
  cases lexeme with
  | left start =>
    refine ⟨List.cons_ne_nil _ _, List.forall_mem_singleton.mpr ?_⟩
    decide
  | right start =>
    refine ⟨List.cons_ne_nil _ _, List.forall_mem_singleton.mpr ?_⟩
    decide
  | word start text =>
    obtain ⟨hne, hplain⟩ := isSymbol_of_mem_lexemes h
    rw [String.toList_ofList] at hplain
    refine ⟨fun hempty => hne ?_, fun c hc => isBlank_of_endsSymbol (hplain c hc)⟩
    rw [show text = [] from hempty]

/-- Do these characters give these lexemes, wherever both stand? -/
def Gives (cs : List Char) (inside : List Lexeme) : Prop :=
  ∀ position rest, Delimited rest → ∃ found,
    lexemes position (cs ++ rest) = found ++ lexemes (position + cs.length) rest ∧
      found.map Lexeme.unplaced = inside.map Lexeme.unplaced

namespace Gives

variable {cs : List Char} {inside : List Lexeme}

theorem nil : Gives [] [] := fun _ _ _ => ⟨[], rfl, rfl⟩

/-- A character that is a lexeme by itself. -/
theorem cons (h : Gives cs inside) {c : Char} {lexeme : Nat → Lexeme}
    (hc : ∀ position cs, lexemes position (c :: cs) = lexeme position :: lexemes (position + 1) cs)
    (hplace : ∀ position, (lexeme position).unplaced = (lexeme 0).unplaced) (start : Nat) :
    Gives (c :: cs) (lexeme start :: inside) := by
  intro position rest hrest
  obtain ⟨found, hlexemes, hfound⟩ := h (position + 1) rest hrest
  refine ⟨lexeme position :: found, ?_, ?_⟩
  · rw [List.cons_append, hc, hlexemes, List.length_cons, Nat.add_assoc, Nat.add_comm 1]
    rfl
  · rw [List.map_cons, List.map_cons, hfound, hplace position, hplace start]

theorem blank (h : Gives cs inside) {c : Char} (hc : Text.isBlank c = true) : Gives (c :: cs) inside := by
  intro position rest hrest
  obtain ⟨found, hlexemes, hfound⟩ := h (position + 1) rest hrest
  refine ⟨found, ?_, hfound⟩
  rw [List.cons_append, lexemes_blank hc, hlexemes, List.length_cons, Nat.add_assoc, Nat.add_comm 1]

theorem word (h : Gives cs inside) (start : Nat) {text : List Char} (hne : text ≠ [])
    (hplain : text.any endsSymbol = false) (hcs : Delimited cs) :
    Gives (text ++ cs) (.word start text :: inside) := by
  intro position rest hrest
  obtain ⟨found, hlexemes, hfound⟩ := h (position + text.length) rest hrest
  refine ⟨.word position text :: found, ?_, ?_⟩
  · rw [List.append_assoc, lexemes_word hne hplain (hcs.append hrest), hlexemes, List.length_append,
      Nat.add_assoc]
    rfl
  · rw [List.map_cons, List.map_cons, hfound]
    rfl

/-- A comment gives nothing if the line it is on ends before the characters do. -/
theorem comment (h : Gives ('\n' :: cs) inside) {text : List Char} (htext : ∀ c ∈ text, c ≠ '\n') :
    Gives (';' :: text ++ '\n' :: cs) inside := by
  intro position rest hrest
  obtain ⟨found, hlexemes, hfound⟩ := h (position + 1 + text.length) rest hrest
  have htake : (text ++ '\n' :: cs ++ rest).takeWhile (· != '\n') = text := by
    rw [List.append_assoc, List.takeWhile_append_of_pos (by simpa using htext)]
    simp
  have hdrop : (text ++ '\n' :: cs ++ rest).dropWhile (· != '\n') = '\n' :: cs ++ rest := by
    rw [List.append_assoc, List.dropWhile_append_of_pos (by simpa using htext)]
    simp
  refine ⟨found, ?_, hfound⟩
  rw [List.cons_append, List.cons_append, lexemes, if_neg (by decide), if_neg (by decide), if_pos rfl,
    htake, hdrop, hlexemes]
  congr 2
  simp only [List.length_append, List.length_cons]
  omega

end Gives

/-- Before the lexeme stand characters that give the lexemes in front of it, after it those that give the lexemes
behind it. -/
def Splits (position : Nat) (cs : List Char) (front : List Lexeme) (lexeme : Lexeme)
    (back : List Lexeme) : Prop :=
  ∃ before after, cs = before ++ lexeme.chars ++ after ∧ lexeme.start = position + before.length ∧
    lexemes lexeme.stop after = back ∧ Gives before front

theorem Splits.append {position : Nat} {cs : List Char} {front front' back : List Lexeme}
    {lexeme : Lexeme} (run : List Char) (h : Splits (position + run.length) cs front lexeme back)
    (hrun : ∀ before after, cs = before ++ lexeme.chars ++ after → Gives before front →
      Gives (run ++ before) front') : Splits position (run ++ cs) front' lexeme back := by
  obtain ⟨before, after, rfl, hstart, hafter, hgives⟩ := h
  refine ⟨run ++ before, after, ?_, ?_, hafter, hrun before after rfl hgives⟩
  · rw [List.append_assoc, List.append_assoc, List.append_assoc]
  · rw [hstart, List.length_append, Nat.add_assoc]

theorem not_of_dropWhile_eq_cons {p : Char → Bool} {cs rest : List Char} {c : Char}
    (h : cs.dropWhile p = c :: rest) : p c = false := by
  have hhead := List.head?_dropWhile_not p cs
  rw [h] at hhead
  exact hhead

/-- A text is split by each of its lexemes. -/
theorem splits_of_lexemes {position : Nat} {cs : List Char} {front back : List Lexeme}
    {lexeme : Lexeme} (h : lexemes position cs = front ++ lexeme :: back) :
    Splits position cs front lexeme back := by
  have hsolid := solid_of_mem_lexemes (h ▸ List.mem_append_right front List.mem_cons_self)
  fun_induction lexemes position cs generalizing front with
  | case1 position => simp at h
  | case2 position rest ih =>
    cases front with
    | nil =>
      obtain ⟨rfl, rfl⟩ := List.cons.inj h
      exact ⟨[], rest, rfl, rfl, rfl, .nil⟩
    | cons first front =>
      obtain ⟨rfl, hrest⟩ := List.cons.inj h
      refine Splits.append ['('] (ih hrest) fun before after _ hgives => ?_
      exact hgives.cons lexemes_left (fun _ => rfl) position
  | case3 position rest hleft ih =>
    cases front with
    | nil =>
      obtain ⟨rfl, rfl⟩ := List.cons.inj h
      exact ⟨[], rest, rfl, rfl, rfl, .nil⟩
    | cons first front =>
      obtain ⟨rfl, hrest⟩ := List.cons.inj h
      refine Splits.append [')'] (ih hrest) fun before after _ hgives => ?_
      exact hgives.cons lexemes_right (fun _ => rfl) position
  | case4 position rest hleft hright ih =>
    have hwhole : rest.takeWhile (· != '\n') ++ rest.dropWhile (· != '\n') = rest :=
      List.takeWhile_append_dropWhile
    have hsplits := ih h
    rw [Nat.add_assoc, Nat.add_comm 1, ← List.length_cons] at hsplits
    rw [← hwhole, ← List.cons_append]
    refine hsplits.append _ fun before after hrest hgives => ?_
    -- the comment ends with its line, and the newline is no part of a lexeme
    · have hline : ∀ c ∈ rest.takeWhile (· != '\n'), c ≠ '\n' := by
        intro c hc
        simpa using List.mem_takeWhile_imp hc
      obtain ⟨c, tail, hchars⟩ := List.exists_cons_of_ne_nil hsolid.1
      have hc := hsolid.2 c (by simp [hchars])
      cases before with
      | nil =>
        rw [List.nil_append, hchars, List.cons_append] at hrest
        obtain rfl : c = '\n' := by simpa using not_of_dropWhile_eq_cons hrest
        cases hc
      | cons d before =>
        obtain rfl : d = '\n' := by simpa using not_of_dropWhile_eq_cons hrest
        exact hgives.comment hline
  | case5 position c rest hleft hright hcomment hblank ih =>
    refine Splits.append [c] (ih h) fun before after _ hgives => ?_
    exact hgives.blank hblank
  | case6 position c rest hleft hright hcomment hblank tail =>
    rename_i ih
    have hwhole : c :: tail ++ rest.dropWhile (!endsSymbol ·) = c :: rest := by
      rw [List.cons_append, List.takeWhile_append_dropWhile]
    cases front with
    | nil =>
      obtain ⟨rfl, rfl⟩ := List.cons.inj h
      refine ⟨[], rest.dropWhile (!endsSymbol ·), hwhole.symm, rfl, ?_, .nil⟩
      rw [Lexeme.stop, List.length_cons, Nat.add_comm tail.length, Nat.add_assoc]
    | cons first front =>
      obtain ⟨rfl, hrest⟩ := List.cons.inj h
      have hsplits := ih hrest
      rw [Nat.add_assoc, Nat.add_comm 1, ← @List.length_cons _ c] at hsplits
      rw [← hwhole]
      refine hsplits.append _ fun before after hafter hgives => ?_
      have hplain : (c :: tail).any endsSymbol = false := by
        have htail : tail.any endsSymbol = false := by
          rw [List.any_eq_false]
          intro d hd
          simpa using List.mem_takeWhile_imp hd
        simp [htail, endsSymbol, hleft, hright, hcomment, hblank]
      refine hgives.word position (List.cons_ne_nil c tail) hplain ?_
      cases before with
      | nil => exact delimited_nil
      | cons d before =>
        refine delimited_cons ?_ before
        simpa using not_of_dropWhile_eq_cons hafter

/-- The lexemes of terms are those of the same terms elsewhere. -/
theorem Spelled.exists_of_unplaced {terms : List (SExpr Span)} {inside inside' : List Lexeme}
    (h : Spelled terms inside) (hsame : inside'.map Lexeme.unplaced = inside.map Lexeme.unplaced) :
    ∃ terms', Spelled terms' inside' ∧ terms'.map unmarked = terms.map unmarked := by
  induction h generalizing inside' with
  | nil =>
    obtain rfl := List.map_eq_nil_iff.mp hsame
    exact ⟨[], .nil, rfl⟩
  | word start text _ ih =>
    obtain ⟨lexeme, more, rfl, hlexeme, hmore⟩ := List.map_eq_cons_iff.mp hsame
    obtain ⟨terms', hspelled, hterms⟩ := ih hmore
    cases lexeme with
    | left => cases hlexeme
    | right => cases hlexeme
    | word start' text' =>
      cases hlexeme
      refine ⟨_, .word start' text hspelled, ?_⟩
      rw [List.map_cons, List.map_cons, hterms]
      rfl
  | list start stop _ _ ihitems ih =>
    obtain ⟨first, more, rfl, hfirst, hmore⟩ := List.map_eq_cons_iff.mp hsame
    rw [List.map_append] at hmore
    obtain ⟨items, rest, rfl, hitems, hrest⟩ := List.map_eq_append_iff.mp hmore
    obtain ⟨last, rest, rfl, hlast, hrest⟩ := List.map_eq_cons_iff.mp hrest
    obtain ⟨items', hspelled, hitems'⟩ := ihitems hitems
    obtain ⟨terms', hspelled', hterms⟩ := ih hrest
    cases first with
    | right => cases hfirst
    | word => cases hfirst
    | left start' =>
      cases last with
      | left => cases hlast
      | word => cases hlast
      | right stop' =>
        refine ⟨_, .list start' stop' hspelled hspelled', ?_⟩
        rw [List.map_cons, List.map_cons, hterms, unmarked_list, unmarked_list, hitems']

theorem Gives.writes {cs : List Char} {inside : List Lexeme} (h : Gives cs inside)
    {terms : List (SExpr Span)} (hspelled : Spelled terms inside) : Writes cs (terms.map unmarked) := by
  intro position rest hrest
  obtain ⟨found, hlexemes, hfound⟩ := h position rest hrest
  obtain ⟨terms', hspelled', hterms⟩ := hspelled.exists_of_unplaced hfound
  exact ⟨terms', found, hlexemes, hspelled', hterms⟩

/-- The mark of the term is where these characters stand, and they write the term, from its first character to its
last. -/
def Fits (cs : List Char) (term : SExpr Span) : Prop :=
  ∃ before text after, cs = before ++ text ++ after ∧
    term.mark = Span.between before.length (before.length + text.length) ∧ Writes text [term.unmarked] ∧
    text ≠ [] ∧ (∀ c ∈ text.head?, Text.isBlank c = false) ∧ ∀ c ∈ text.getLast?, Text.isBlank c = false

theorem fits_symbol {cs : List Char} {start : Nat} {text : List Char} {front back : List Lexeme}
    (h : lexemes 0 cs = front ++ .word start text :: back) :
    Fits cs (.symbol (Span.between start (start + text.length)) (String.ofList text)) := by
  have hmem : .word start text ∈ lexemes 0 cs := h ▸ List.mem_append_right front List.mem_cons_self
  obtain ⟨hne, hsolid⟩ := solid_of_mem_lexemes hmem
  obtain ⟨before, after, hcs, hstart, -, -⟩ := splits_of_lexemes h
  have hplain : text.any endsSymbol = false := by
    simpa using (isSymbol_of_mem_lexemes hmem).2
  refine ⟨before, text, after, hcs, ?_, .symbol hne hplain, hne, fun c hc => hsolid c ?_,
    fun c hc => hsolid c ?_⟩
  · rw [Nat.zero_add] at hstart
    rw [mark, ← hstart]
    rfl
  · exact List.mem_of_mem_head? hc
  · exact List.mem_of_mem_getLast? hc

theorem fits_list {cs : List Char} {start stop : Nat} {items : List (SExpr Span)}
    {inside front back : List Lexeme} (hitems : Spelled items inside)
    (h : lexemes 0 cs = front ++ .left start :: (inside ++ .right stop :: back)) :
    Fits cs (.list (Span.between start (stop + 1)) items) := by
  obtain ⟨before, after, rfl, hstart, hafter, -⟩ := splits_of_lexemes h
  obtain ⟨text, after, rfl, hstop, -, hgives⟩ := splits_of_lexemes hafter
  have hwrites := (hgives.writes hitems).list
  refine ⟨before, '(' :: text ++ [')'], after, ?_, ?_, ?_, ?_, ?_, ?_⟩
  · simp [Lexeme.chars]
  · simp only [Lexeme.start, Lexeme.stop] at hstart hstop
    have hlength : start + ('(' :: text ++ [')']).length = stop + 1 := by
      rw [List.length_append, List.length_cons, List.length_singleton]
      omega
    rw [Nat.zero_add] at hstart
    rw [mark, ← hstart, hlength]
  · rwa [unmarked_list]
  · simp
  · rintro c ⟨⟩
    decide
  · rw [List.getLast?_append]
    rintro c ⟨⟩
    decide

/-- Every term in a text fits. -/
theorem Spelled.fits {cs : List Char} {terms : List (SExpr Span)} {inside : List Lexeme}
    (h : Spelled terms inside) (front back : List Lexeme) (hcs : lexemes 0 cs = front ++ (inside ++ back)) :
    ∀ part ∈ terms.flatMap parts, Fits cs part := by
  induction h generalizing front back with
  | nil => simp
  | word start text _ ih =>
    intro part hpart
    rw [List.flatMap_cons, parts_symbol, List.singleton_append, List.mem_cons] at hpart
    rcases hpart with rfl | hpart
    · exact fits_symbol hcs
    · refine ih (front ++ [.word start text]) back ?_ part hpart
      simpa using hcs
  | @list start stop items terms inside more hitems _ ihitems ih =>
    intro part hpart
    rw [List.flatMap_cons, parts_list, List.cons_append, List.mem_cons, List.mem_append] at hpart
    rcases hpart with rfl | hpart | hpart
    · refine fits_list hitems (?_ : _ = front ++ .left start :: (inside ++ .right stop :: (more ++ back)))
      simpa using hcs
    · refine ihitems (front ++ [.left start]) (.right stop :: (more ++ back)) ?_ part hpart
      simpa using hcs
    · refine ih (front ++ .left start :: (inside ++ [.right stop])) back ?_ part hpart
      simpa using hcs

def Before (first second : SExpr Span) : Prop := first.mark.stop ≤ second.mark.start

/-- The terms that lexemes spell stand where the lexemes do. -/
theorem Spelled.within {terms : List (SExpr Span)} {lexemes : List Lexeme} (h : Spelled terms lexemes)
    {start stop : Nat} (hplaced : Placed start stop lexemes) {term : SExpr Span} (hterm : term ∈ terms) :
    start ≤ term.mark.start ∧ term.mark.stop ≤ stop := by
  have hpart := List.mem_flatMap.mpr ⟨term, hterm, mem_parts_self term⟩
  obtain ⟨first, last, hmark, hfirst, -, hlast⟩ := h.mark_within hplaced term hpart
  rw [hmark]
  exact ⟨Int.ofNat_le.mpr hfirst, Int.ofNat_le.mpr hlast⟩

theorem Spelled.pairwise {terms : List (SExpr Span)} {lexemes : List Lexeme} (h : Spelled terms lexemes)
    {start stop : Nat} (hplaced : Placed start stop lexemes) : terms.Pairwise Before := by
  induction h generalizing start stop with
  | nil => exact .nil
  | word position text hmore ih =>
    refine List.pairwise_cons.mpr ⟨fun term hterm => ?_, ih hplaced.2⟩
    exact (hmore.within hplaced.2 hterm).1
  | list position last _ hmore _ ih =>
    have hrest := hplaced.2.of_append.2
    refine List.pairwise_cons.mpr ⟨fun term hterm => ?_, ih hrest⟩
    exact (hmore.within hrest hterm).1

/-- Does the mark stand around the items, with room on both sides, and each of them before the next? -/
def Encloses (mark : Span) (items : List (SExpr Span)) : Prop :=
  (∀ item ∈ items, mark.start < item.mark.start ∧ item.mark.stop < mark.stop) ∧ items.Pairwise Before

theorem Spelled.encloses {terms : List (SExpr Span)} {lexemes : List Lexeme} (h : Spelled terms lexemes)
    {start stop : Nat} (hplaced : Placed start stop lexemes) {mark : Span} {items : List (SExpr Span)}
    (hlist : .list mark items ∈ terms.flatMap parts) : Encloses mark items := by
  induction h generalizing start stop with
  | nil => cases hlist
  | word position text _ ih =>
    rw [List.flatMap_cons, parts_symbol, List.singleton_append, List.mem_cons] at hlist
    rcases hlist with hlist | hlist
    · cases hlist
    · exact ih hplaced.2 hlist
  | list position last hitems _ ihitems ih =>
    obtain ⟨hinside, hrest⟩ := hplaced.2.of_append
    rw [List.flatMap_cons, parts_list, List.cons_append, List.mem_cons, List.mem_append] at hlist
    rcases hlist with hlist | hlist | hlist
    · obtain ⟨rfl, rfl⟩ := SExpr.list.inj hlist
      refine ⟨fun item hitem => ?_, hitems.pairwise hinside⟩
      obtain ⟨hfirst, hlast⟩ := hitems.within hinside hitem
      simp only [Lexeme.start, Lexeme.stop] at hfirst hlast
      simp only [Span.between]
      omega
    · exact ihitems hinside hlist
    · exact ih hrest hlist

/-- What stands around its items stands around everything inside them. -/
theorem within_of_encloses {term : SExpr Span}
    (h : ∀ mark items, .list mark items ∈ term.parts → Encloses mark items) :
    ∀ part ∈ term.parts, term.mark.start ≤ part.mark.start ∧ part.mark.stop ≤ term.mark.stop := by
  induction term using term_induction with
  | hsymbol mark text =>
    intro part hpart
    obtain rfl := List.mem_singleton.mp hpart
    exact ⟨Int.le_refl _, Int.le_refl _⟩
  | hlist mark items ih =>
    intro part hpart
    have hitems := (h mark items (mem_parts_self _)).1
    rw [parts_list, List.mem_cons, List.mem_flatMap] at hpart
    rcases hpart with rfl | ⟨item, hitem, hpart⟩
    · exact ⟨Int.le_refl _, Int.le_refl _⟩
    · have hinside := ih item hitem (fun mark' items' hlist => h mark' items'
        (mem_parts_of_mem_items hitem hlist)) part hpart
      have hitem := hitems item hitem
      rw [SExpr.mark]
      omega

theorem within_of_parseFile {file : File} {terms : List (SExpr Span)} (h : parseFile file = .ok terms)
    {term part : SExpr Span} (hterm : term ∈ terms) (hpart : part ∈ term.parts) :
    term.mark.start ≤ part.mark.start ∧ part.mark.stop ≤ term.mark.stop := by
  refine within_of_encloses (fun mark items hlist => ?_) part hpart
  exact (parseFile_eq_ok_iff.mp h).encloses (placed_lexemes 0 file.contents)
    (List.mem_flatMap.mpr ⟨term, hterm, hlist⟩)

/-- What stands at the mark of a term of a file is read as that term alone. -/
theorem Fits.text {file : File} {term : SExpr Span} (h : Fits file.contents term) :
    ∃ text, file.text term.mark = .ok text ∧
      (∀ name, ∃ alone, parseFile ⟨name, text⟩ = .ok [alone] ∧ alone.unmarked = term.unmarked) ∧
      term.mark.start < term.mark.stop ∧
      (∀ c ∈ text.head?, Text.isBlank c = false) ∧ ∀ c ∈ text.getLast?, Text.isBlank c = false := by
  obtain ⟨before, text, after, hcontents, hmark, hwrites, hne, hfirst, hlast⟩ := h
  have hlength := List.length_pos_of_ne_nil hne
  rw [hmark]
  refine ⟨text, File.text_between before text after hcontents, fun name => ?_, ?_, hfirst, hlast⟩
  · obtain ⟨found, hparse, hfound⟩ := hwrites.parseFile name
    obtain ⟨alone, rfl, halone⟩ := List.map_eq_singleton_iff.mp hfound
    exact ⟨alone, hparse, halone⟩
  · simp only [Span.between]
    omega

/-- The terms of a file that is read are all on record, each under a number of its own, and the span on record is the
mark of the term; nothing else is on record, and no span is refused.  The text of every mark, at any depth, is read
as its term alone and neither starts nor ends with a blank.  The mark of a list stands strictly around those of its
items, and among items of one list, as among the outermost terms, each stands before the next. -/
theorem record_spans_exact {file : File} {terms : List (SExpr Span)} (h : parseFile file = .ok terms) :
    (∃ numbered spans, record file = .ok (numbered, spans) ∧
      numbered.map (mapMark spans.get?) = terms.map (mapMark some) ∧
      (spans.entries.map Prod.fst).Nodup ∧
      ((numbered.flatMap parts).map mark).Perm (spans.entries.map Prod.fst)) ∧
    (∀ part ∈ terms.flatMap parts, ∃ text, file.text part.mark = .ok text ∧
      (∀ name, ∃ alone, parseFile ⟨name, text⟩ = .ok [alone] ∧ alone.unmarked = part.unmarked) ∧
      part.mark.start < part.mark.stop ∧
      (∀ c ∈ text.head?, Text.isBlank c = false) ∧ ∀ c ∈ text.getLast?, Text.isBlank c = false) ∧
    (∀ mark items, .list mark items ∈ terms.flatMap parts →
      (∀ item ∈ items, mark.start < item.mark.start ∧ item.mark.stop < mark.stop) ∧
      items.Pairwise fun first second => first.mark.stop ≤ second.mark.start) ∧
    terms.Pairwise fun first second => first.mark.stop ≤ second.mark.start := by
  have hspelled := parseFile_eq_ok_iff.mp h
  have hplaced := placed_lexemes 0 file.contents
  refine ⟨?_, fun part hpart => ?_, fun mark items hlist => hspelled.encloses hplaced hlist,
    hspelled.pairwise hplaced⟩
  · obtain ⟨numbered, spans, hrecord, -, hstands, hnodup, hnumbers⟩ := exists_record_of_parseFile h
    exact ⟨numbered, spans, hrecord, hstands, hnodup, hnumbers⟩
  · exact (hspelled.fits [] [] (List.append_nil _).symm part hpart).text

/-- A parenthesis in a comment closes nothing. -/
theorem record_spans_exact_comment :
    let file : File := ⟨"", "(a;)\n()) b".toList⟩
    parseFile file = .ok [.list (Span.between 0 8) [.symbol (Span.between 1 2) "a",
      .list (Span.between 5 7) []], .symbol (Span.between 9 10) "b"] ∧
    (∃ numbered spans, record file = .ok (numbered, spans) ∧ (spans.entries.map Prod.fst).Nodup) ∧
    ∃ text alone, file.text (Span.between 0 8) = .ok text ∧ parseFile ⟨"", text⟩ = .ok [alone] ∧
      alone.unmarked = .list () [.symbol () "a", .list () []] := by
  intro file
  have hlexemes : lexemes 0 file.contents =
      [.left 0, .word 1 ['a'], .left 5, .right 6, .right 7, .word 9 ['b']] := by
    decide +kernel
  have hparse : parseFile file = .ok [.list (Span.between 0 8) [.symbol (Span.between 1 2) "a",
      .list (Span.between 5 7) []], .symbol (Span.between 9 10) "b"] := by
    rw [parseFile_eq_ok_iff, hlexemes]
    exact .list 0 7 (.word 1 ['a'] (.list 5 6 .nil .nil)) (.word 9 ['b'] .nil)
  obtain ⟨⟨numbered, spans, hrecord, -, hnodup, -⟩, hexact, -⟩ := record_spans_exact hparse
  obtain ⟨text, htext, halone, -⟩ := hexact _ (by rw [List.flatMap_cons, parts_list]; exact List.mem_cons_self)
  obtain ⟨alone, hread, hterm⟩ := halone ""
  exact ⟨hparse, ⟨numbered, spans, hrecord, hnodup⟩, text, alone, htext, hread, hterm⟩

end TileSelect.SExpr
