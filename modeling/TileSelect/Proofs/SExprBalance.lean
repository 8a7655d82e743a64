import Mathlib.Data.List.TakeWhile
import TileSelect.Proofs.ResultSequences
import TileSelect.Proofs.SExprReading

/-! # Balanced texts

A text is read as s-expressions exactly if its parentheses are balanced once its comments are left out: the depth
never falls below zero and is zero at the end.  The depth also says what is wrong with any other text, and where.
The reader keeps a stack of open lists and goes from lexeme to lexeme; the depth is counted character by
character. -/
namespace TileSelect.SExpr

/-- The characters outside comments.  A comment runs from a semicolon up to the end of its line. -/
def uncommented (commented : Bool) : List Char → List Char
  | [] => []
  | c :: cs =>
    if c != '\n' && (commented || c == ';') then uncommented true cs else c :: uncommented false cs

/-- How many more lists are opened than closed by a text that starts inside or outside a comment. -/
def depthFrom (commented : Bool) (cs : List Char) : Int :=
  (uncommented commented cs).count '(' - (uncommented commented cs).count ')'

def depth (cs : List Char) : Int := depthFrom false cs

@[simp] theorem depthFrom_nil (commented : Bool) : depthFrom commented [] = 0 := rfl

theorem depthFrom_cons (commented : Bool) (c : Char) (cs : List Char) :
    depthFrom commented (c :: cs) =
      if c != '\n' && (commented || c == ';') then depthFrom true cs
      else (if c = '(' then 1 else if c = ')' then -1 else 0) + depthFrom false cs := by
  rw [depthFrom, uncommented]
  split
  · rfl
  · simp only [depthFrom, List.count_cons, beq_iff_eq]
    by_cases hleft : c = '('
    · have hright : c ≠ ')' := by
        rw [hleft]
        decide
      rw [if_pos hleft, if_neg hright, if_pos hleft]
      omega
    · by_cases hright : c = ')'
      · rw [if_neg hleft, if_pos hright, if_neg hleft, if_pos hright]
        omega
      · rw [if_neg hleft, if_neg hright, if_neg hleft, if_neg hright]
        omega

/-- With this many lists open before the text, are there never fewer than none? -/
def Floats (commented : Bool) (opened : Nat) (cs : List Char) : Prop :=
  ∀ i, 0 ≤ opened + depthFrom commented (cs.take i)

/-- With this many lists open before the text, is it the character at `i` that first closes one too many? -/
def Sinks (commented : Bool) (opened : Nat) (cs : List Char) (i : Nat) : Prop :=
  (∀ j ≤ i, 0 ≤ opened + depthFrom commented (cs.take j)) ∧
    opened + depthFrom commented (cs.take (i + 1)) < 0

theorem Sinks.not_floats {commented : Bool} {opened i : Nat} {cs : List Char}
    (h : Sinks commented opened cs i) : ¬ Floats commented opened cs := by
  intro hfloats
  have hlow := h.2
  have hhigh := hfloats (i + 1)
  omega

theorem Sinks.unique {commented : Bool} {opened i j : Nat} {cs : List Char}
    (hi : Sinks commented opened cs i) (hj : Sinks commented opened cs j) : i = j := by
  have hle : ∀ {i j}, Sinks commented opened cs i → Sinks commented opened cs j → ¬ i < j := by
    intro i j hi hj hlt
    have hlow := hi.2
    have hhigh := hj.1 (i + 1) hlt
    omega
  have hij := hle hi hj
  have hji := hle hj hi
  omega

/-- Follows the depth of a text from a position on, to its end or to the first parenthesis that closes a list
which was never opened. -/
def descend (commented : Bool) (position opened : Nat) : List Char → Except Nat Nat
  | [] => .ok opened
  | c :: cs =>
    if c != '\n' && (commented || c == ';') then descend true (position + 1) opened cs
    else if c = '(' then descend false (position + 1) (opened + 1) cs
    else if c = ')' then
      if opened = 0 then .error position else descend false (position + 1) (opened - 1) cs
    else descend false (position + 1) opened cs

def Tells (commented : Bool) (position opened : Nat) (cs : List Char) : Except Nat Nat → Prop
  | .ok n => Floats commented opened cs ∧ n = opened + depthFrom commented cs
  | .error place => ∃ i < cs.length, place = position + i ∧ Sinks commented opened cs i

theorem Tells.cons {commented commented' : Bool} {position opened opened' : Nat} {c : Char}
    {cs : List Char} {answer : Except Nat Nat}
    (hturn : ∀ cs, opened + depthFrom commented (c :: cs) = opened' + depthFrom commented' cs)
    (h : Tells commented' (position + 1) opened' cs answer) :
    Tells commented position opened (c :: cs) answer := by
  have hnone : 0 ≤ opened + depthFrom commented ((c :: cs).take 0) := by
    rw [List.take_zero, depthFrom_nil]
    omega
  match answer with
  | .ok n =>
    obtain ⟨hfloats, hn⟩ := h
    refine ⟨fun i => ?_, by rw [hturn, hn]⟩
    cases i with
    | zero => exact hnone
    | succ i =>
      rw [List.take_succ_cons, hturn]
      exact hfloats i
  | .error _ =>
    obtain ⟨i, hi, rfl, hbefore, hlow⟩ := h
    refine ⟨i + 1, Nat.succ_lt_succ hi, by omega, fun j hj => ?_, ?_⟩
    · cases j with
      | zero => exact hnone
      | succ j =>
        rw [List.take_succ_cons, hturn]
        exact hbefore j (Nat.le_of_succ_le_succ hj)
    · rw [List.take_succ_cons, hturn]
      exact hlow

theorem tells_descend (commented : Bool) (position opened : Nat) (cs : List Char) :
    Tells commented position opened cs (descend commented position opened cs) := by
  fun_induction descend commented position opened cs with
  | case1 commented position opened =>
    refine ⟨fun i => ?_, by simp⟩
    rw [List.take_nil, depthFrom_nil]
    omega
  | case2 commented position opened c cs hcomment ih =>
    refine ih.cons fun cs => ?_
    rw [depthFrom_cons, if_pos hcomment]
  | case3 commented position opened cs hcomment ih =>
    refine ih.cons fun cs => ?_
    rw [depthFrom_cons, if_neg hcomment, if_pos rfl]
    omega
  | case4 commented position cs hcomment hleft =>
    refine ⟨0, Nat.zero_lt_succ _, rfl, fun j hj => ?_, ?_⟩
    · obtain rfl := Nat.le_zero.mp hj
      simp
    · rw [List.take_succ_cons, depthFrom_cons, if_neg hcomment, if_neg hleft, if_pos rfl]
      simp
  | case5 commented position opened cs hopened hcomment hleft ih =>
    refine ih.cons fun cs => ?_
    rw [depthFrom_cons, if_neg hcomment, if_neg hleft, if_pos rfl]
    omega
  | case6 commented position opened c cs hcomment hleft hright ih =>
    refine ih.cons fun cs => ?_
    rw [depthFrom_cons, if_neg hcomment, if_neg hleft, if_neg hright]
    omega

/-- A run of characters that the depth passes over. -/
theorem descend_append {commented : Bool} {run : List Char}
    (hrun : ∀ c ∈ run, ∀ position opened cs,
      descend commented position opened (c :: cs) = descend commented (position + 1) opened cs)
    (position opened : Nat) (cs : List Char) :
    descend commented position opened (run ++ cs) =
      descend commented (position + run.length) opened cs := by
  induction run generalizing position with
  | nil => rfl
  | cons c run ih =>
    rw [List.cons_append, hrun c List.mem_cons_self,
      ih fun d hd => hrun d (List.mem_cons_of_mem c hd), List.length_cons]
    congr 1
    omega

theorem descend_comment (position opened : Nat) (cs : List Char) :
    descend true position opened cs =
      descend false (position + (cs.takeWhile (· != '\n')).length) opened (cs.dropWhile (· != '\n')) := by
  have hrun : ∀ c ∈ cs.takeWhile (· != '\n'), ∀ position opened cs,
      descend true position opened (c :: cs) = descend true (position + 1) opened cs := by
    intro c hc position opened cs
    have hline : (c != '\n') = true := List.mem_takeWhile_imp (p := (· != '\n')) hc
    rw [descend, if_pos (by rw [hline]; rfl)]
  have hend : ∀ position opened, descend true position opened (cs.dropWhile (· != '\n')) =
      descend false position opened (cs.dropWhile (· != '\n')) := by
    intro position opened
    cases hrest : cs.dropWhile (· != '\n') with
    | nil => rfl
    | cons c rest =>
      have hnewline : (c != '\n') = false := by
        have hhead := List.head_dropWhile_not (· != '\n') (l := cs) (by simp [hrest])
        simpa [hrest] using hhead
      simp [descend, hnewline]
  calc descend true position opened cs
      = descend true position opened (cs.takeWhile (· != '\n') ++ cs.dropWhile (· != '\n')) := by
        rw [List.takeWhile_append_dropWhile]
    _ = _ := by rw [descend_append hrun, hend]

theorem descend_plain {c : Char} (hleft : c ≠ '(') (hright : c ≠ ')') (hcomment : c ≠ ';')
    (position opened : Nat) (cs : List Char) :
    descend false position opened (c :: cs) = descend false (position + 1) opened cs := by
  rw [descend, if_neg (by simpa using fun _ => hcomment), if_neg hleft, if_neg hright]

/-- Follows the depth of lexemes, to the end or to the position of the first that closes a list which was never
opened. -/
def balance (opened : Nat) : List Lexeme → Except Nat Nat
  | [] => .ok opened
  | .left _ :: rest => balance (opened + 1) rest
  | .right start :: rest => if opened = 0 then .error start else balance (opened - 1) rest
  | .word _ _ :: rest => balance opened rest

theorem balance_lexemes (position opened : Nat) (cs : List Char) :
    balance opened (lexemes position cs) = descend false position opened cs := by
  fun_induction lexemes position cs generalizing opened with
  | case1 position => rfl
  | case2 position rest ih => rw [balance, ih, descend, if_neg (by decide), if_pos rfl]
  | case3 position rest hleft ih =>
    have hstart : (')' != '\n' && (false || ')' == ';')) = false := by decide
    rw [balance, ih, descend, hstart, if_neg Bool.false_ne_true, if_neg hleft, if_pos rfl]
  | case4 position rest hleft hright ih =>
    rw [ih, descend, if_pos (by decide), descend_comment]
  | case5 position c rest hleft hright hcomment hblank ih =>
    rw [ih, descend_plain hleft hright hcomment]
  | case6 position c rest hleft hright hcomment hblank tail ih =>
    have htail : ∀ d ∈ tail, ∀ position opened cs,
        descend false position opened (d :: cs) = descend false (position + 1) opened cs := by
      intro d hd
      have hplain : (!endsSymbol d) = true := List.mem_takeWhile_imp (p := (!endsSymbol ·)) hd
      simp only [endsSymbol, Bool.not_or, Bool.and_eq_true, Bool.not_eq_true', beq_eq_false_iff_ne]
        at hplain
      exact descend_plain hplain.1.1.1 hplain.1.1.2 hplain.1.2
    have hrest : rest = tail ++ rest.dropWhile (!endsSymbol ·) :=
      List.takeWhile_append_dropWhile.symm
    calc balance opened (.word position (c :: tail) :: _)
        = descend false (position + 1 + tail.length) opened (rest.dropWhile (!endsSymbol ·)) := by
          rw [balance, ih]
      _ = descend false (position + 1) opened rest := by
          rw [← descend_append htail, ← hrest]
      _ = _ := (descend_plain hleft hright hcomment position opened rest).symm

/-- Reads all terms that are left, the first of them inside the lists in `stack`. -/
def readFrom (length : Nat) (stack : List OpenList) (lexemes : List Lexeme) :
    Except (Located ReadError) (List (SExpr Span)) :=
  match readInside length stack lexemes with
  | .done => .ok []
  | .failure error _ => .error error
  | .term term rest => (readLexemes length rest).map (term :: ·)

theorem readFrom_nil (length : Nat) (lexemes : List Lexeme) :
    readFrom length [] lexemes = readLexemes length lexemes := by
  rw [readFrom, readLexemes]
  cases readInside length [] lexemes <;> rfl

/-- What is read where the depth of the lexemes is this. -/
def Reads (length : Nat) (read : Except (Located ReadError) (List (SExpr Span))) :
    Except Nat Nat → Prop
  | .ok 0 => ∃ terms, read = .ok terms
  | .ok (_ + 1) => read = .error ⟨Span.point length, .unclosed⟩
  | .error start => read = .error ⟨Span.between start (start + 1), .unopened⟩

theorem Reads.map {length : Nat} {read : Except (Located ReadError) (List (SExpr Span))}
    {answer : Except Nat Nat} (h : Reads length read answer)
    (f : List (SExpr Span) → List (SExpr Span)) : Reads length (read.map f) answer := by
  match answer with
  | .ok 0 =>
    obtain ⟨terms, rfl⟩ := h
    exact ⟨f terms, rfl⟩
  | .ok (_ + 1) =>
    obtain rfl := h
    rfl
  | .error start =>
    obtain rfl := h
    rfl

theorem readFrom_reads (length : Nat) (stack : List OpenList) (lexemes : List Lexeme) :
    Reads length (readFrom length stack lexemes) (balance stack.length lexemes) := by
  -- a list is open for each one on the stack, whatever its items are so far
  induction lexemes generalizing stack with
  | nil =>
    cases stack with
    | nil => exact ⟨[], rfl⟩
    | cons inner stack => rfl
  | cons lexeme lexemes ih =>
    have houter : ∀ term, Reads length ((readLexemes length lexemes).map (term :: ·))
        (balance 0 lexemes) := by
      intro term
      have hrest := ih []
      rw [readFrom_nil] at hrest
      exact hrest.map _
    cases lexeme with
    | left start => exact ih (⟨start, []⟩ :: stack)
    | right start =>
      match stack with
      | [] => rfl
      | [inner] => exact houter _
      | inner :: outer :: stack => exact ih (_ :: stack)
    | word start text =>
      match stack with
      | [] => exact houter _
      | inner :: stack => exact ih (_ :: stack)

/-- The lexemes close this many open lists, each after the rest of its items, and then spell terms. -/
def Closing : Nat → List Lexeme → Prop
  | 0, lexemes => ∃ terms, Spelled terms lexemes
  | opened + 1, lexemes => ∃ items inside stop rest,
      lexemes = inside ++ .right stop :: rest ∧ Spelled items inside ∧ Closing opened rest

theorem Closing.append {opened : Nat} {items : List (SExpr Span)} {inside lexemes : List Lexeme}
    (hinside : Spelled items inside) (h : Closing opened lexemes) :
    Closing opened (inside ++ lexemes) := by
  cases opened with
  | zero =>
    obtain ⟨terms, hterms⟩ := h
    exact ⟨items ++ terms, hinside.append hterms⟩
  | succ opened =>
    obtain ⟨more, inside', stop, rest, rfl, hmore, hrest⟩ := h
    exact ⟨items ++ more, inside ++ inside', stop, rest, (List.append_assoc ..).symm,
      hinside.append hmore, hrest⟩

theorem closing_of_balance {opened : Nat} {lexemes : List Lexeme}
    (h : balance opened lexemes = .ok 0) : Closing opened lexemes := by
  -- a list that is opened is closed by what follows, and becomes one more item of the list around it
  induction lexemes generalizing opened with
  | nil =>
    obtain rfl : opened = 0 := Except.ok.inj h
    exact ⟨[], .nil⟩
  | cons lexeme lexemes ih =>
    cases lexeme with
    | left start =>
      obtain ⟨items, inside, stop, rest, rfl, hitems, hrest⟩ := ih h
      have hlist := Closing.append (Spelled.list start stop hitems .nil) hrest
      simpa using hlist
    | right start =>
      rw [balance] at h
      split at h
      · cases h
      · next hopened =>
        obtain ⟨opened, rfl⟩ := Nat.exists_eq_succ_of_ne_zero hopened
        exact ⟨[], [], start, lexemes, rfl, .nil, ih h⟩
    | word start text => exact Closing.append (Spelled.word start text .nil) (ih h)

/-- Lexemes are read as the terms they spell, and as none if they spell none. -/
theorem readLexemes_eq_ok_iff {length : Nat} {lexemes : List Lexeme} {terms : List (SExpr Span)} :
    readLexemes length lexemes = .ok terms ↔ Spelled terms lexemes := by
  constructor
  · intro h
    have hreads := readFrom_reads length [] lexemes
    rw [readFrom_nil, h] at hreads
    have hbalance : balance 0 lexemes = .ok 0 := by
      match hanswer : balance 0 lexemes with
      | .ok 0 => rfl
      | .ok (_ + 1) =>
        rw [List.length_nil, hanswer] at hreads
        cases hreads
      | .error start =>
        rw [List.length_nil, hanswer] at hreads
        cases hreads
    obtain ⟨spelled, hspelled⟩ := closing_of_balance hbalance
    have hread := hspelled.readLexemes length
    obtain rfl : terms = spelled := Except.ok.inj (h.symm.trans hread)
    exact hspelled
  · intro h
    exact h.readLexemes length

section

variable {μ : Type}

mutual

def parts : SExpr μ → List (SExpr μ)
  | symbol mark text => [.symbol mark text]
  | list mark items => .list mark items :: itemParts items

def itemParts : List (SExpr μ) → List (SExpr μ)
  | [] => []
  | item :: items => item.parts ++ itemParts items

end

theorem itemParts_eq_flatMap (items : List (SExpr μ)) : itemParts items = items.flatMap parts := by
  induction items with
  | nil => rfl
  | cons item items ih => rw [itemParts, ih, List.flatMap_cons]

@[simp] theorem parts_symbol (mark : μ) (text : String) :
    (symbol mark text).parts = [.symbol mark text] := rfl

@[simp] theorem parts_list (mark : μ) (items : List (SExpr μ)) :
    (list mark items).parts = .list mark items :: items.flatMap parts := by
  rw [parts, itemParts_eq_flatMap]

theorem mem_parts_self (term : SExpr μ) : term ∈ term.parts := by
  cases term with
  | symbol mark text => simp
  | list mark items => simp

theorem mem_parts_of_mem_items {mark : μ} {items : List (SExpr μ)} {item part : SExpr μ}
    (hitem : item ∈ items) (hpart : part ∈ item.parts) : part ∈ (list mark items).parts := by
  rw [parts_list]
  exact List.mem_cons_of_mem _ (List.mem_flatMap.mpr ⟨item, hitem, hpart⟩)

end

def Lexeme.start : Lexeme → Nat
  | left start | right start | word start _ => start

def Lexeme.stop : Lexeme → Nat
  | left start | right start => start + 1
  | word start text => start + text.length

def Placed (start stop : Nat) : List Lexeme → Prop
  | [] => start ≤ stop
  | lexeme :: rest => start ≤ lexeme.start ∧ Placed lexeme.stop stop rest

theorem Placed.of_le {start start' stop : Nat} {lexemes : List Lexeme} (h : Placed start stop lexemes)
    (hle : start' ≤ start) : Placed start' stop lexemes := by
  cases lexemes with
  | nil => exact Nat.le_trans hle h
  | cons lexeme rest => exact ⟨Nat.le_trans hle h.1, h.2⟩

theorem Lexeme.start_le_stop (lexeme : Lexeme) : lexeme.start ≤ lexeme.stop := by
  cases lexeme <;> simp only [Lexeme.start, Lexeme.stop] <;> omega

theorem Placed.le {start stop : Nat} {lexemes : List Lexeme} (h : Placed start stop lexemes) :
    start ≤ stop := by
  induction lexemes generalizing start with
  | nil => exact h
  | cons lexeme rest ih =>
    have hrest := ih h.2
    have hlexeme := lexeme.start_le_stop
    have hstart := h.1
    omega

theorem Placed.of_append {start stop : Nat} {before after : List Lexeme} {lexeme : Lexeme}
    (h : Placed start stop (before ++ lexeme :: after)) :
    Placed start lexeme.start before ∧ Placed lexeme.stop stop after := by
  induction before generalizing start with
  | nil => exact h
  | cons first before ih =>
    obtain ⟨hbefore, hafter⟩ := ih h.2
    exact ⟨⟨h.1, hbefore⟩, hafter⟩

theorem placed_lexemes (position : Nat) (cs : List Char) :
    Placed position (position + cs.length) (lexemes position cs) := by
  have hlength : ∀ (p : Char → Bool) (cs : List Char),
      cs.length = (cs.takeWhile p).length + (cs.dropWhile p).length := by
    intro p cs
    rw [← List.length_append, List.takeWhile_append_dropWhile]
  fun_induction lexemes position cs with
  | case1 position => exact Nat.le_refl _
  | case2 position rest ih | case3 position rest hleft ih =>
    refine ⟨Nat.le_refl _, ?_⟩
    rwa [Nat.add_assoc, Nat.add_comm 1] at ih
  | case4 position rest hleft hright ih =>
    have hrest := hlength (· != '\n') rest
    have hwhole : position + 1 + (rest.takeWhile (· != '\n')).length +
        (rest.dropWhile (· != '\n')).length = position + (rest.length + 1) := by omega
    rw [hwhole] at ih
    exact ih.of_le (by omega)
  | case5 position c rest hleft hright hcomment hblank ih =>
    rw [Nat.add_assoc, Nat.add_comm 1] at ih
    exact ih.of_le (by omega)
  | case6 position c rest hleft hright hcomment hblank tail ih =>
    have hrest : rest.length = tail.length + (rest.dropWhile (!endsSymbol ·)).length :=
      hlength (!endsSymbol ·) rest
    have hwhole : position + 1 + tail.length + (rest.dropWhile (!endsSymbol ·)).length =
        position + (rest.length + 1) := by omega
    refine ⟨Nat.le_refl _, ?_⟩
    rw [hwhole] at ih
    exact ih.of_le (by simp only [Lexeme.stop, List.length_cons]; omega)

/-- Every term that lexemes spell stands where they do. -/
theorem Spelled.mark_within {terms : List (SExpr Span)} {lexemes : List Lexeme}
    (h : Spelled terms lexemes) {start stop : Nat} (hplaced : Placed start stop lexemes) :
    ∀ part ∈ terms.flatMap parts, ∃ first last,
      part.mark = Span.between first last ∧ start ≤ first ∧ first ≤ last ∧ last ≤ stop := by
  induction h generalizing start stop with
  | nil => simp
  | word position text _ ih =>
    intro part hpart
    obtain ⟨hstart, hmore⟩ := hplaced
    rw [List.flatMap_cons, parts_symbol, List.singleton_append, List.mem_cons] at hpart
    rcases hpart with rfl | hpart
    · exact ⟨position, position + text.length, rfl, hstart, Nat.le_add_right _ _, hmore.le⟩
    · obtain ⟨first, last, hmark, hfirst, hle, hlast⟩ := ih hmore part hpart
      have hword := (Lexeme.word position text).start_le_stop
      exact ⟨first, last, hmark, by omega, hle, hlast⟩
  | list position last _ _ ihitems ih =>
    intro part hpart
    obtain ⟨hstart, hinside⟩ := hplaced
    obtain ⟨hitems, hmore⟩ := hinside.of_append
    have hopen := hitems.le
    have hclose := hmore.le
    simp only [Lexeme.start, Lexeme.stop] at hstart hopen hclose
    rw [List.flatMap_cons, parts_list, List.cons_append, List.mem_cons, List.mem_append] at hpart
    rcases hpart with rfl | hpart | hpart
    · exact ⟨position, last + 1, rfl, hstart, by omega, hclose⟩
    · obtain ⟨a, b, hmark, ha, hle, hb⟩ := ihitems hitems part hpart
      simp only [Lexeme.start, Lexeme.stop] at ha hb
      exact ⟨a, b, hmark, by omega, hle, by omega⟩
    · obtain ⟨a, b, hmark, ha, hle, hb⟩ := ih hmore part hpart
      simp only [Lexeme.stop] at ha
      exact ⟨a, b, hmark, by omega, hle, hb⟩

theorem floats_iff {cs : List Char} :
    Floats false 0 cs ↔ ∀ i ≤ cs.length, 0 ≤ depth (cs.take i) := by
  simp only [Floats, depth, Int.natCast_zero, Int.zero_add]
  refine ⟨fun h i _ => h i, fun h i => ?_⟩
  by_cases hi : i ≤ cs.length
  · exact h i hi
  · have hwhole := h cs.length (Nat.le_refl _)
    rwa [List.take_length, ← List.take_of_length_le (by omega : cs.length ≤ i)] at hwhole

theorem sinks_iff {cs : List Char} {i : Nat} :
    Sinks false 0 cs i ↔ (∀ j ≤ i, 0 ≤ depth (cs.take j)) ∧ depth (cs.take (i + 1)) < 0 := by
  simp only [Sinks, depth, Int.natCast_zero, Int.zero_add]

/-- The depth of a text decides what is read. -/
theorem readAll_cases (cs : List Char) :
    (Floats false 0 cs ∧ depth cs = 0 ∧ ∃ terms, readAll cs = .ok terms) ∨
    (Floats false 0 cs ∧ 0 < depth cs ∧ readAll cs = .error ⟨Span.point cs.length, .unclosed⟩) ∨
    ∃ i < cs.length, Sinks false 0 cs i ∧
      readAll cs = .error ⟨Span.between i (i + 1), .unopened⟩ := by
  have htells := tells_descend false 0 0 cs
  have hreads := readFrom_reads cs.length [] (lexemes 0 cs)
  rw [readFrom_nil, List.length_nil, balance_lexemes] at hreads
  match hanswer : descend false 0 0 cs with
  | .ok 0 =>
    rw [hanswer] at htells hreads
    obtain ⟨hfloats, hdepth⟩ := htells
    exact .inl ⟨hfloats, by rw [depth]; omega, hreads⟩
  | .ok (n + 1) =>
    rw [hanswer] at htells hreads
    obtain ⟨hfloats, hdepth⟩ := htells
    exact .inr (.inl ⟨hfloats, by rw [depth]; omega, hreads⟩)
  | .error start =>
    rw [hanswer] at htells hreads
    obtain ⟨i, hi, hstart, hsinks⟩ := htells
    obtain rfl : start = i := by omega
    exact .inr (.inr ⟨start, hi, hsinks, hreads⟩)

theorem parseFile_of_error {file : File} {error : Located ReadError}
    (h : readAll file.contents = .error error) :
    parseFile file = .error ⟨file, error.span, error.cause.message⟩ := by
  rw [parseFile, h]
  rfl

theorem parseFile_eq_ok_iff {file : File} {terms : List (SExpr Span)} :
    parseFile file = .ok terms ↔ Spelled terms (lexemes 0 file.contents) := by
  rw [parseFile, Result.mapError_eq_ok_iff, readAll, readLexemes_eq_ok_iff]

theorem exists_text_of_mem_parts {file : File} {terms : List (SExpr Span)}
    (h : parseFile file = .ok terms) {term part : SExpr Span} (hterm : term ∈ terms)
    (hpart : part ∈ term.parts) : ∃ text, file.text part.mark = .ok text := by
  have hplaced := placed_lexemes 0 file.contents
  have hmem : part ∈ terms.flatMap parts := List.mem_flatMap.mpr ⟨term, hterm, hpart⟩
  obtain ⟨first, last, hmark, -, hle, hlast⟩ := (parseFile_eq_ok_iff.mp h).mark_within hplaced part hmem
  refine ⟨(file.contents.drop first).take (last - first), ?_⟩
  have hdrop : file.contents.drop last = (file.contents.drop first).drop (last - first) := by
    rw [List.drop_drop]
    congr 1
    omega
  have hcontents : file.contents = file.contents.take first ++
      (file.contents.drop first).take (last - first) ++ file.contents.drop last := by
    rw [hdrop, List.append_assoc, List.take_append_drop, List.take_append_drop]
  have hfirst : (file.contents.take first).length = first := by
    rw [List.length_take]
    omega
  have hlength : ((file.contents.drop first).take (last - first)).length = last - first := by
    rw [List.length_take, List.length_drop]
    omega
  have hstop : first + (last - first) = last := by omega
  have htext := File.text_between _ _ _ hcontents
  rwa [hfirst, hlength, hstop, ← hmark] at htext

/-- A file is read as s-expressions exactly if its parentheses outside comments are balanced, and then every term
in the result, at any depth, stands at a span of the file.  Otherwise there is one error.  Where the depth first
falls below zero, it is the closing parenthesis there; if it never does, it is the end of the file. -/
theorem parseFile_accepts_balanced (file : File) :
    ((∃ terms, parseFile file = .ok terms) ↔
      (∀ i ≤ file.contents.length, 0 ≤ depth (file.contents.take i)) ∧ depth file.contents = 0) ∧
    (∀ terms, parseFile file = .ok terms →
      ∀ term ∈ terms, ∀ part ∈ term.parts, ∃ text, file.text part.mark = .ok text) ∧
    (∀ i, (∀ j ≤ i, 0 ≤ depth (file.contents.take j)) → depth (file.contents.take (i + 1)) < 0 →
      parseFile file = .error ⟨file, Span.between i (i + 1), "unexpected end-of-list"⟩) ∧
    ((∀ i ≤ file.contents.length, 0 ≤ depth (file.contents.take i)) → 0 < depth file.contents →
      parseFile file =
        .error ⟨file, Span.point file.contents.length, "unexpected end-of-file"⟩) := by
  refine ⟨?_, fun terms h term hterm part => exists_text_of_mem_parts h hterm, fun i hbefore hlow => ?_,
    fun hfloats hpos => ?_⟩
  · rw [← floats_iff]
    rcases readAll_cases file.contents with
      ⟨hfloats, hdepth, terms, hread⟩ | ⟨-, hdepth, hread⟩ | ⟨i, -, hsinks, hread⟩
    · refine ⟨fun _ => ⟨hfloats, hdepth⟩, fun _ => ⟨terms, ?_⟩⟩
      rw [parseFile, hread]
      rfl
    · refine ⟨fun ⟨terms, hterms⟩ => ?_, fun hbalanced => by omega⟩
      cases (parseFile_of_error hread).symm.trans hterms
    · refine ⟨fun ⟨terms, hterms⟩ => ?_, fun hbalanced => (hsinks.not_floats hbalanced.1).elim⟩
      cases (parseFile_of_error hread).symm.trans hterms
  · have hsinks := sinks_iff.mpr ⟨hbefore, hlow⟩
    rcases readAll_cases file.contents with ⟨hfloats, -⟩ | ⟨hfloats, -⟩ | ⟨j, -, hsinks', hread⟩
    · exact (hsinks.not_floats hfloats).elim
    · exact (hsinks.not_floats hfloats).elim
    · obtain rfl := hsinks.unique hsinks'
      exact parseFile_of_error hread
  · rcases readAll_cases file.contents with ⟨-, hdepth, -⟩ | ⟨-, -, hread⟩ | ⟨i, -, hsinks, -⟩
    · omega
    · exact parseFile_of_error hread
    · exact (hsinks.not_floats (floats_iff.mpr hfloats)).elim

/-- Parentheses in comments do not count, whether the comment follows a symbol at once or ends with the file. -/
theorem parseFile_accepts_balanced_comments :
    (∃ terms, parseFile ⟨"", "(a;(\n b)c;)".toList⟩ = .ok terms) ∧
      parseFile ⟨"", "();)\n)(".toList⟩ =
        .error ⟨⟨"", "();)\n)(".toList⟩, Span.between 5 6, "unexpected end-of-list"⟩ ∧
      parseFile ⟨"", "((a)".toList⟩ =
        .error ⟨⟨"", "((a)".toList⟩, Span.point 4, "unexpected end-of-file"⟩ := by
  refine ⟨?_, ?_, ?_⟩
  · exact (parseFile_accepts_balanced ⟨"", "(a;(\n b)c;)".toList⟩).1.mpr (by decide)
  · exact (parseFile_accepts_balanced ⟨"", "();)\n)(".toList⟩).2.2.1 5 (by decide) (by decide)
  · exact (parseFile_accepts_balanced ⟨"", "((a)".toList⟩).2.2.2 (by decide) (by decide)

end TileSelect.SExpr
