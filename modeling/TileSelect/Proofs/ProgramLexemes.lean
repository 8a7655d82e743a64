import Mathlib.Data.List.TakeWhile
import Mathlib.Tactic.Common
import TileSelect.Program.Token
import TileSelect.Proofs.ResultSequences

/-! # The lexemes of program texts

Which characters a token of each kind is made of, and how a text is cut into lexemes: the longest one at the
start of the text is taken, again and again, until no lexeme stands at the start of what is left.  Nothing is
left exactly if the text is a concatenation of lexemes in some way, longest or not.  The lexer of programs
cuts in this way and never asks for a character outside the text. -/
namespace TileSelect.Program

/-- May a token of the kind start with this character? -/
def TokenKind.startsWith : TokenKind → Char → Bool
  | .whitespace, c => c == ' ' || c == '\t' || c == '\r' || c == '\n'
  | .comment, c => c == ';'
  | .equals, c => c == '='
  | .comma, c => c == ','
  | .identifier, c => c.isAlpha || c == '_'
  | .endOfFile, _ => false

def TokenKind.continuesWith : TokenKind → Char → Bool
  | .whitespace, c => c == ' ' || c == '\t' || c == '\r' || c == '\n'
  | .comment, c => c != '\n'
  | .identifier, c => c.isAlphanum || c == '_' || c == '\''
  | .equals, _ | .comma, _ | .endOfFile, _ => false

/-- Are these the characters of one token of the kind? -/
def TokenKind.Spells (kind : TokenKind) : List Char → Prop
  | [] => False
  | c :: cs => kind.startsWith c = true ∧ ∀ d ∈ cs, kind.continuesWith d = true

instance (kind : TokenKind) : DecidablePred kind.Spells
  | [] => .isFalse id
  | c :: cs => decidable_of_iff (kind.startsWith c = true ∧ cs.all kind.continuesWith = true)
      (by simp [TokenKind.Spells])

structure Lexeme where
  kind : TokenKind
  text : List Char
  spells : kind.Spells text

/-- Is the text a concatenation of lexemes? -/
def Lexable (cs : List Char) : Prop := ∃ lexemes : List Lexeme, lexemes.flatMap Lexeme.text = cs

/-- With this text after it, is the lexeme the longest at its place? -/
def Longest (lexeme : Lexeme) (cs : List Char) : Prop :=
  ∀ other : Lexeme, other.text <+: lexeme.text ++ cs → other.text.length ≤ lexeme.text.length

/-- `Cut cs lexemes rest`: cutting the longest lexeme off the text again and again gives `lexemes`, and `rest`
starts with no lexeme. -/
inductive Cut : List Char → List Lexeme → List Char → Prop
  | stop {cs : List Char} (none : ∀ lexeme : Lexeme, ¬ lexeme.text <+: cs) : Cut cs [] cs
  | take {cs rest : List Char} {lexemes : List Lexeme} (lexeme : Lexeme)
      (longest : Longest lexeme cs) (more : Cut cs lexemes rest) :
      Cut (lexeme.text ++ cs) (lexeme :: lexemes) rest

namespace Lexeme

theorem exists_cons (lexeme : Lexeme) : ∃ c cs, lexeme.text = c :: cs ∧
    lexeme.kind.startsWith c = true ∧ ∀ d ∈ cs, lexeme.kind.continuesWith d = true := by
  obtain ⟨kind, _ | ⟨c, cs⟩, spells⟩ := lexeme
  · exact spells.elim
  · exact ⟨c, cs, rfl, spells⟩

theorem text_ne_nil (lexeme : Lexeme) : lexeme.text ≠ [] := by
  obtain ⟨c, cs, htext, -⟩ := lexeme.exists_cons
  rw [htext]
  exact List.cons_ne_nil c cs

end Lexeme

/-- No character starts tokens of two kinds. -/
theorem startsWith_unique {kind kind' : TokenKind} {c : Char} (h : kind.startsWith c = true)
    (h' : kind'.startsWith c = true) : kind = kind' := by
  cases kind <;> cases kind' <;> simp [TokenKind.startsWith] at h h' ⊢
  -- two of the finite kinds share no character, and none of their characters is a letter
  all_goals aesop

/-- Where a lexeme goes on inside a token of another kind and outside of it, it consists of blanks: only a
comment has blanks inside, and only a newline ends it. -/
theorem whitespace_of_leaves {kind kind' : TokenKind} {c d : Char} (hc : kind'.startsWith c = true)
    (hin : kind.continuesWith c = true) (hd : kind'.continuesWith d = true)
    (hout : kind.continuesWith d = false) : kind' = .whitespace := by
  cases kind <;> cases kind' <;>
    simp [TokenKind.startsWith, TokenKind.continuesWith] at hc hin hd hout ⊢
  all_goals aesop

/-- The lexeme that starts with a character and takes all it can of the text after it. -/
def Lexeme.greedy (kind : TokenKind) (c : Char) (cs : List Char) (h : kind.startsWith c = true) :
    Lexeme where
  kind := kind
  text := c :: cs.takeWhile kind.continuesWith
  spells := ⟨h, fun _ hd => List.mem_takeWhile_imp hd⟩

theorem Lexeme.greedy_prefix (kind : TokenKind) (c : Char) (cs : List Char)
    (h : kind.startsWith c = true) : (Lexeme.greedy kind c cs h).text <+: c :: cs :=
  (List.prefix_cons_inj c).mpr (List.takeWhile_prefix _)

theorem Lexeme.length_le_greedy {kind : TokenKind} {c : Char} {cs : List Char}
    (h : kind.startsWith c = true) (other : Lexeme) (hother : other.text <+: c :: cs) :
    other.text.length ≤ (Lexeme.greedy kind c cs h).text.length := by
  obtain ⟨c', run, htext, hstart, hrun⟩ := other.exists_cons
  obtain ⟨more, hmore⟩ := hother
  rw [htext, List.cons_append, List.cons.injEq] at hmore
  obtain ⟨rfl, rfl⟩ := hmore
  rw [startsWith_unique hstart h] at hrun
  simp [Lexeme.greedy, htext, List.takeWhile_append_of_pos hrun]

/-- A lexeme is longest exactly if its kind does not go on with the next character. -/
theorem longest_iff {lexeme : Lexeme} {cs : List Char} :
    Longest lexeme cs ↔ cs.takeWhile lexeme.kind.continuesWith = [] := by
  obtain ⟨c, run, htext, hstart, hrun⟩ := lexeme.exists_cons
  have hgreedy : (Lexeme.greedy lexeme.kind c (run ++ cs) hstart).text =
      lexeme.text ++ cs.takeWhile lexeme.kind.continuesWith := by
    simp [Lexeme.greedy, htext, List.takeWhile_append_of_pos hrun]
  have htexts : lexeme.text ++ cs = c :: (run ++ cs) := by rw [htext, List.cons_append]
  constructor
  · intro h
    have hle := h _ (htexts ▸ Lexeme.greedy_prefix lexeme.kind c (run ++ cs) hstart)
    rw [hgreedy, List.length_append] at hle
    exact List.length_eq_zero_iff.mp (by omega)
  · intro h other hother
    have hle := Lexeme.length_le_greedy hstart other (htexts ▸ hother)
    rwa [hgreedy, h, List.append_nil] at hle

def startedBy? (c : Char) : Option TokenKind :=
  [TokenKind.comment, .equals, .comma, .whitespace, .identifier].find? (·.startsWith c)

theorem startedBy?_eq_some_iff {c : Char} {kind : TokenKind} :
    startedBy? c = some kind ↔ kind.startsWith c = true := by
  have hsome : ∀ {kind'}, startedBy? c = some kind' → kind'.startsWith c = true := by
    intro kind' h
    exact List.find?_some (p := fun kind : TokenKind => kind.startsWith c) h
  constructor
  · exact hsome
  · intro h
    cases hfound : startedBy? c with
    | some kind' => rw [startsWith_unique h (hsome hfound)]
    | none =>
      have hnone := List.find?_eq_none.mp hfound
      cases kind <;> simp_all [TokenKind.startsWith]

theorem dropWhile_longest {kind : TokenKind} {c : Char} {cs : List Char}
    (h : kind.startsWith c = true) :
    Longest (Lexeme.greedy kind c cs h) (cs.dropWhile kind.continuesWith) := by
  rw [longest_iff]
  change (cs.dropWhile kind.continuesWith).takeWhile kind.continuesWith = []
  cases hrest : cs.dropWhile kind.continuesWith with
  | nil => rfl
  | cons d rest =>
    have hd : kind.continuesWith d = false := by
      simpa [hrest] using List.head_dropWhile_not kind.continuesWith (l := cs) (by simp [hrest])
    simp [hd]

/-- Every text can be cut. -/
theorem exists_cut (cs : List Char) : ∃ lexemes rest, Cut cs lexemes rest := by
  match cs with
  | [] => exact ⟨[], [], .stop fun lexeme h => lexeme.text_ne_nil (List.prefix_nil.mp h)⟩
  | c :: cs =>
    cases hkind : startedBy? c with
    | none =>
      refine ⟨[], c :: cs, .stop fun lexeme h => ?_⟩
      obtain ⟨d, run, htext, hstart, -⟩ := lexeme.exists_cons
      rw [htext, List.cons_prefix_cons] at h
      rw [h.1, ← startedBy?_eq_some_iff, hkind] at hstart
      cases hstart
    | some kind =>
      have hstart := startedBy?_eq_some_iff.mp hkind
      obtain ⟨lexemes, rest, hcut⟩ := exists_cut (cs.dropWhile kind.continuesWith)
      refine ⟨Lexeme.greedy kind c cs hstart :: lexemes, rest, ?_⟩
      have hwhole := Cut.take (Lexeme.greedy kind c cs hstart) (dropWhile_longest hstart) hcut
      simpa [Lexeme.greedy, List.takeWhile_append_dropWhile] using hwhole
termination_by cs.length
decreasing_by
  have := (List.dropWhile_suffix kind.continuesWith (l := cs)).length_le
  simp only [List.length_cons]
  omega

theorem Cut.eq_append {cs rest : List Char} {lexemes : List Lexeme} (h : Cut cs lexemes rest) :
    cs = lexemes.flatMap Lexeme.text ++ rest := by
  induction h with
  | stop => rfl
  | take lexeme _ _ ih => rw [List.flatMap_cons, List.append_assoc, ← ih]

/-- What follows the characters a token could take on is a concatenation of lexemes if both together are. -/
theorem Lexable.of_run (kind : TokenKind) {run rest : List Char}
    (hrun : ∀ d ∈ run, kind.continuesWith d = true) (hrest : rest.takeWhile kind.continuesWith = [])
    (h : Lexable (run ++ rest)) : Lexable rest := by
  obtain ⟨lexemes, hlexemes⟩ := h
  induction lexemes generalizing run with
  | nil =>
    obtain ⟨-, rfl⟩ := List.append_eq_nil_iff.mp hlexemes.symm
    exact ⟨[], rfl⟩
  | cons lexeme lexemes ih =>
    rw [List.flatMap_cons] at hlexemes
    rcases List.append_eq_append_iff.mp hlexemes with ⟨run', rfl, hmore⟩ | ⟨beyond, htext, hmore⟩
    · exact ih (fun d hd => hrun d (List.mem_append_right _ hd)) hmore
    · -- the lexeme reaches to the end of the run or beyond it
      match beyond, run with
      | [], _ => exact ⟨lexemes, by simpa using hmore.symm⟩
      | _, [] => exact ⟨lexeme :: lexemes, by simpa using hlexemes⟩
      | d :: beyond, c :: run =>
        obtain ⟨c', run', htext', hstart, hcontinues⟩ := lexeme.exists_cons
        rw [htext', List.cons_append, List.cons.injEq] at htext
        obtain ⟨rfl, rfl⟩ := htext
        have hd := hcontinues d (by simp)
        have hout : kind.continuesWith d = false := by
          by_contra hgoes
          simp [hmore, hgoes] at hrest
        have hblank := whitespace_of_leaves hstart (hrun c' (by simp)) hd hout
        rw [hblank] at hd hcontinues
        have hspells : TokenKind.whitespace.Spells (d :: beyond) :=
          ⟨hd, fun e he => hcontinues e (by simp [he])⟩
        exact ⟨⟨.whitespace, d :: beyond, hspells⟩ :: lexemes, by simpa using hmore.symm⟩

/-- Nothing is left exactly if the text is a concatenation of lexemes. -/
theorem Cut.rest_eq_nil_iff {cs rest : List Char} {lexemes : List Lexeme} (h : Cut cs lexemes rest) :
    rest = [] ↔ Lexable cs := by
  constructor
  · rintro rfl
    exact ⟨lexemes, by simpa using h.eq_append.symm⟩
  · intro hlexable
    induction h with
    | stop hnone =>
      obtain ⟨_ | ⟨lexeme, lexemes⟩, rfl⟩ := hlexable
      · rfl
      · exact (hnone lexeme (List.prefix_append _ _)).elim
    | @take cs rest lexemes lexeme hlongest _ ih =>
      apply ih
      obtain ⟨_ | ⟨other, others⟩, hothers⟩ := hlexable
      · exact (lexeme.text_ne_nil (List.append_eq_nil_iff.mp hothers.symm).1).elim
      rw [List.flatMap_cons] at hothers
      rcases List.append_eq_append_iff.mp hothers with ⟨run, htext, hmore⟩ | ⟨beyond, htext, hmore⟩
      · -- the other first lexeme is a shorter one of the same kind
        obtain ⟨c, run', htext', -, hcontinues⟩ := lexeme.exists_cons
        obtain ⟨c', run'', htext'', -, -⟩ := other.exists_cons
        refine Lexable.of_run lexeme.kind (fun d hd => hcontinues d ?_) (longest_iff.mp hlongest)
          ⟨others, hmore⟩
        rw [htext', htext'', List.cons_append, List.cons.injEq] at htext
        simp [htext.2, hd]
      · have hle := hlongest other (hothers ▸ List.prefix_append _ _)
        rw [htext, List.length_append] at hle
        obtain rfl := List.length_eq_zero_iff.mp (by omega : beyond.length = 0)
        exact ⟨others, by simpa using hmore.symm⟩

/-- The scanner accepts one character, of this class. -/
def TakesOne (scanner : Scanner Char) (p : Char → Bool) : Prop :=
  scanner.scan [] = .ok 0 ∧ ∀ c cs, scanner.scan (c :: cs) = .ok (if p c then 1 else 0)

/-- The scanner accepts as many characters of this class as there are. -/
def TakesRun (scanner : Scanner Char) (p : Char → Bool) : Prop :=
  ∀ cs, scanner.scan cs = .ok (cs.takeWhile p).length

/-- The scanner accepts the longest lexeme of the kind. -/
def TakesLexeme (scanner : Scanner Char) (kind : TokenKind) : Prop :=
  scanner.scan [] = .ok 0 ∧ ∀ c cs, scanner.scan (c :: cs) =
    .ok (if kind.startsWith c then (cs.takeWhile kind.continuesWith).length + 1 else 0)

theorem takesOne_character (c : Char) : TakesOne (character c) (· == c) := by
  constructor
  · simp [character]
  · intro d cs
    by_cases h : d = c
    · simp [character, h]
    · simp [character, h, Ne.symm h]

theorem takesOne_within (low high : Char) :
    TakesOne (.within low high) fun c => low ≤ c && c ≤ high := by
  constructor
  · simp
  · intro d cs
    simp

theorem takesOne_either_nil : TakesOne (.either []) fun _ => false := by
  constructor
  · simp
  · intro d cs
    simp

theorem TakesOne.either_cons {part : Scanner Char} {parts : List (Scanner Char)} {p q : Char → Bool}
    (hpart : TakesOne part p) (hparts : TakesOne (.either parts) q) :
    TakesOne (.either (part :: parts)) fun c => p c || q c := by
  obtain ⟨hnil, hcons⟩ := hparts
  simp only [Scanner.scan_either] at hnil hcons
  constructor
  · simp [Scanner.scanEither_cons, hpart.1, hnil]
  · intro c cs
    simp only [Scanner.scan_either, Scanner.scanEither_cons, hpart.2, hcons, Result.ok_bind]
    by_cases hp : p c <;> simp [hp]

theorem TakesOne.congr {scanner : Scanner Char} {p q : Char → Bool} (h : TakesOne scanner p)
    (heq : ∀ c, p c = q c) : TakesOne scanner q :=
  (funext heq : p = q) ▸ h

theorem TakesOne.many {part : Scanner Char} {p : Char → Bool} (h : TakesOne part p) :
    TakesRun (.many part) p := by
  intro cs
  rw [Scanner.scan_many]
  induction cs with
  | nil => simp [Scanner.repeated]
  | cons c cs ih =>
    rw [Scanner.repeated, h.2]
    cases hc : p c with
    | false => simp [hc]
    | true => simp [hc, ih, Nat.add_comm]

theorem takesRun_upTo (stop : Char) : TakesRun (.upTo stop) (· != stop) := by
  intro cs
  simp

/-- A kind that starts as it goes on is scanned for as a run. -/
theorem TakesRun.lexeme {scanner : Scanner Char} {kind : TokenKind}
    (h : TakesRun scanner kind.continuesWith) (hsame : kind.startsWith = kind.continuesWith) :
    TakesLexeme scanner kind := by
  constructor
  · exact h []
  · intro c cs
    rw [h, hsame]
    cases hc : kind.continuesWith c <;> simp [hc]

/-- A kind of one character is scanned for as such. -/
theorem TakesOne.lexeme {scanner : Scanner Char} {kind : TokenKind} (h : TakesOne scanner kind.startsWith)
    (hone : ∀ c, kind.continuesWith c = false) : TakesLexeme scanner kind := by
  constructor
  · exact h.1
  · intro c cs
    have hnone : cs.takeWhile kind.continuesWith = [] := by
      cases cs <;> simp [hone]
    rw [h.2, hnone]
    simp

/-- The first character and the run from it on are scanned for at once. -/
theorem TakesOne.every_run {first run : Scanner Char} {kind : TokenKind}
    (hfirst : TakesOne first kind.startsWith) (hrun : TakesRun run kind.continuesWith)
    (hsub : ∀ c, kind.startsWith c = true → kind.continuesWith c = true) :
    TakesLexeme (.every [first, run]) kind := by
  constructor
  · simp [Scanner.scanEvery_cons, hfirst.1]
  · intro c cs
    simp only [Scanner.scan_every, Scanner.scanEvery_cons, Scanner.scanEvery_nil, hfirst.2, hrun (c :: cs), Result.ok_bind]
    cases hc : kind.startsWith c with
    | false => simp
    | true => simp [hsub c hc]

theorem takesLexeme_comment : TakesLexeme commentScanner .comment := by
  refine TakesOne.every_run (takesOne_character ';') (takesRun_upTo '\n') fun c hc => ?_
  simp only [TokenKind.startsWith, beq_iff_eq] at hc
  rw [hc]
  rfl

theorem takesLexeme_equals : TakesLexeme (character '=') .equals :=
  TakesOne.lexeme (takesOne_character '=') fun _ => rfl

theorem takesLexeme_comma : TakesLexeme (character ',') .comma :=
  TakesOne.lexeme (takesOne_character ',') fun _ => rfl

theorem takesLexeme_whitespace : TakesLexeme whitespaceScanner .whitespace := by
  have hone := (takesOne_character ' ').either_cons <| (takesOne_character '\t').either_cons <|
    (takesOne_character '\r').either_cons <| (takesOne_character '\n').either_cons takesOne_either_nil
  have hblank := hone.congr (q := TokenKind.whitespace.continuesWith) fun c => by
    simp [TokenKind.continuesWith, Bool.or_assoc]
  exact hblank.many.lexeme rfl

theorem isLower_eq (c : Char) : c.isLower = ('a' ≤ c && c ≤ 'z') := rfl

theorem isUpper_eq (c : Char) : c.isUpper = ('A' ≤ c && c ≤ 'Z') :=
  Bool.decide_and _ _

theorem isAlpha_eq (c : Char) : c.isAlpha = (c.isUpper || c.isLower) := rfl

theorem isDigit_eq (c : Char) : c.isDigit = ('0' ≤ c && c ≤ '9') := rfl

theorem takesLexeme_identifier : TakesLexeme identifierScanner .identifier := by
  have hstart := (takesOne_character '_').either_cons <| (takesOne_within 'a' 'z').either_cons <|
    (takesOne_within 'A' 'Z').either_cons takesOne_either_nil
  have hrest := (takesOne_character '_').either_cons <| (takesOne_character '\'').either_cons <|
    (takesOne_within '0' '9').either_cons <| (takesOne_within 'a' 'z').either_cons <|
    (takesOne_within 'A' 'Z').either_cons takesOne_either_nil
  refine TakesOne.every_run (hstart.congr fun c => ?_) (hrest.congr fun c => ?_).many fun c hc => ?_
  · simp only [← isLower_eq, ← isUpper_eq, TokenKind.startsWith, isAlpha_eq, Bool.or_false]
    ac_rfl
  · simp only [← isLower_eq, ← isUpper_eq, ← isDigit_eq, TokenKind.continuesWith, Char.isAlphanum,
      isAlpha_eq, Bool.or_false]
    ac_rfl
  · simp only [TokenKind.startsWith, TokenKind.continuesWith, Char.isAlphanum, Bool.or_eq_true] at hc ⊢
    tauto

theorem first?_cons_of_takesLexeme {rule : Rule Char TokenKind} (rules : List (Rule Char TokenKind))
    (h : TakesLexeme rule.scanner rule.kind) (c : Char) (cs : List Char) :
    Rule.first? (c :: cs) (rule :: rules) =
      if rule.kind.startsWith c then
        .ok (some (rule.kind, (cs.takeWhile rule.kind.continuesWith).length + 1))
      else Rule.first? (c :: cs) rules := by
  rw [Rule.first?, h.2, Result.ok_bind]
  by_cases hc : rule.kind.startsWith c <;> simp [hc]

theorem first?_cons (c : Char) (cs : List Char) :
    Rule.first? (c :: cs) tokenRules =
      .ok ((startedBy? c).map fun kind => (kind, (cs.takeWhile kind.continuesWith).length + 1)) := by
  rw [tokenRules, first?_cons_of_takesLexeme _ takesLexeme_comment,
    first?_cons_of_takesLexeme _ takesLexeme_equals, first?_cons_of_takesLexeme _ takesLexeme_comma,
    first?_cons_of_takesLexeme _ takesLexeme_whitespace,
    first?_cons_of_takesLexeme _ takesLexeme_identifier]
  simp only [startedBy?, List.find?_cons, List.find?_nil]
  have hend : Rule.first? (c :: cs) [(⟨.endOfText, .endOfFile⟩ : Rule Char TokenKind)] = .ok none := by
    simp [Rule.first?]
  rw [hend]
  repeat' split <;> simp_all

theorem first?_nil : Rule.first? [] tokenRules = .ok (some (.endOfFile, 1)) := by
  simp [tokenRules, Rule.first?, takesLexeme_comment.1, takesLexeme_equals.1, takesLexeme_comma.1,
    takesLexeme_whitespace.1, takesLexeme_identifier.1]

theorem first?_of_longest {lexeme : Lexeme} {cs : List Char} (h : Longest lexeme cs) :
    Rule.first? (lexeme.text ++ cs) tokenRules = .ok (some (lexeme.kind, lexeme.text.length)) := by
  obtain ⟨c, run, htext, hstart, hrun⟩ := lexeme.exists_cons
  rw [htext, List.cons_append, first?_cons, startedBy?_eq_some_iff.mpr hstart, Option.map_some,
    List.takeWhile_append_of_pos hrun, longest_iff.mp h, List.append_nil, List.length_cons]

theorem first?_of_none {c : Char} {cs : List Char} (h : ∀ lexeme : Lexeme, ¬ lexeme.text <+: c :: cs) :
    Rule.first? (c :: cs) tokenRules = .ok none := by
  rw [first?_cons]
  cases hkind : startedBy? c with
  | none => rfl
  | some kind =>
    exact (h _ (Lexeme.greedy_prefix kind c cs (startedBy?_eq_some_iff.mp hkind))).elim

/-- The lexer of programs, past the characters before a place. -/
def lexerAt (before cs : List Char) : Lexer Char TokenKind :=
  { lexer (before ++ cs) with index := before.length }

def tokensOf (start : Nat) : List Lexeme → List (Token TokenKind)
  | [] => []
  | lexeme :: lexemes =>
    ⟨lexeme.kind, start, start + lexeme.text.length⟩ :: tokensOf (start + lexeme.text.length) lexemes

def endToken (length : Nat) : Token TokenKind := ⟨.endOfFile, length, length⟩

theorem peek?_lexerAt (before : List Char) {cs : List Char} {found : Option (TokenKind × Nat)}
    (h : Rule.first? cs tokenRules = .ok found) :
    (lexerAt before cs).peek? = .ok (found.map fun (kind, n) =>
      ⟨kind, before.length, min (before.length + cs.length) (before.length + n)⟩) := by
  have hdrop : (before ++ cs).drop before.length = cs := List.drop_left
  simp only [Lexer.peek?, lexerAt, lexer, hdrop, h, Result.ok_bind, List.length_append]
  rw [if_neg (by omega)]
  cases found <;> rfl

theorem peek?_end (before : List Char) :
    (lexerAt before []).peek? = .ok (some (endToken before.length)) := by
  rw [peek?_lexerAt before first?_nil]
  simp [endToken]

theorem peek?_past_end (before : List Char) (token : Token TokenKind) :
    ((lexerAt before []).advance token).peek? = .ok none := by
  simp [Lexer.advance, Lexer.peek?, lexerAt, lexer]

theorem peek?_longest {lexeme : Lexeme} {cs : List Char} (h : Longest lexeme cs) (before : List Char) :
    (lexerAt before (lexeme.text ++ cs)).peek? =
      .ok (some ⟨lexeme.kind, before.length, before.length + lexeme.text.length⟩) := by
  rw [peek?_lexerAt before (first?_of_longest h)]
  simp only [Option.map_some, List.length_append]
  rw [Nat.min_eq_right (by omega)]

theorem advance_longest (lexeme : Lexeme) (before cs : List Char) :
    (lexerAt before (lexeme.text ++ cs)).advance
        ⟨lexeme.kind, before.length, before.length + lexeme.text.length⟩ =
      lexerAt (before ++ lexeme.text) cs := by
  have hpos := List.length_pos_iff.mpr lexeme.text_ne_nil
  simp only [Lexer.advance, lexerAt, lexer, List.length_append, List.append_assoc]
  rw [if_neg (by omega)]

/-- The lexer gives the tokens of the cut, and the end of the file where nothing is left. -/
theorem collect_cut {cs rest : List Char} {lexemes : List Lexeme} (h : Cut cs lexemes rest)
    (before : List Char) : ∃ last final,
    (lexerAt before cs).collect = (.ok (tokensOf before.length lexemes ++ last), final) ∧
      (rest = [] ∧ last = [endToken (before ++ cs).length] ∧ final.remaining = 0 ∨
        rest ≠ [] ∧ last = [] ∧ final.remaining = rest.length ∧
          final.index + rest.length = (before ++ cs).length) := by
  induction h generalizing before with
  | @stop cs hnone =>
    cases cs with
    | nil =>
      let final := (lexerAt before []).advance (endToken before.length)
      refine ⟨_, final, ?_, .inl ⟨rfl, rfl, ?_⟩⟩
      · rw [Lexer.collect_of_some (peek?_end before), Lexer.collect_of_none (peek?_past_end before _)]
        simp [tokensOf, Except.map, final]
      · simp [final, Lexer.remaining, Lexer.advance, lexerAt, lexer]
    | cons c cs =>
      have hpeek := peek?_lexerAt before (first?_of_none hnone)
      refine ⟨[], _, Lexer.collect_of_none hpeek, .inr ⟨by simp, rfl, ?_, ?_⟩⟩
      · simp [Lexer.remaining, lexerAt, lexer]
      · simp [lexerAt]
  | @take cs rest lexemes lexeme hlongest _ ih =>
    obtain ⟨last, final, hcollect, hfinal⟩ := ih (before ++ lexeme.text)
    refine ⟨last, final, ?_, by simpa using hfinal⟩
    rw [Lexer.collect_of_some (peek?_longest hlongest before), advance_longest, hcollect]
    simp [tokensOf, Except.map]

def Lexeme.wordAt (lexeme : Lexeme) (start : Nat) : Word :=
  ⟨lexeme.kind, Span.between start (start + lexeme.text.length), String.ofList lexeme.text⟩

def wordsFrom (start : Nat) : List Lexeme → List Word
  | [] => []
  | lexeme :: lexemes => lexeme.wordAt start :: wordsFrom (start + lexeme.text.length) lexemes

def endWord (length : Nat) : Word := ⟨.endOfFile, Span.point length, ""⟩

/-- The words of a text that is cut into these lexemes: those without trivia, then the end of the file. -/
def wordsOf (lexemes : List Lexeme) : List Word :=
  (wordsFrom 0 lexemes).filter (!·.kind.isTrivia) ++ [endWord (lexemes.flatMap Lexeme.text).length]

theorem ofToken_eq_ok {file : File} (before text after : List Char)
    (h : file.contents = before ++ text ++ after) (kind : TokenKind) :
    Word.ofToken file ⟨kind, before.length, before.length + text.length⟩ =
      .ok ⟨kind, Span.between before.length (before.length + text.length), String.ofList text⟩ := by
  have hspan : Span.make before.length (before.length + text.length : Nat) =
      .ok (Span.between before.length (before.length + text.length)) :=
    (Span.make_eq_ok_iff _ _ _).mpr ⟨by omega, rfl⟩
  rw [Word.ofToken, hspan, Result.ok_bind, File.text_between before text after h, Result.ok_bind]

theorem mapM_ofToken {file : File} (before : List Char) {rest : List Char} {lexemes : List Lexeme}
    (h : file.contents = before ++ lexemes.flatMap Lexeme.text ++ rest) :
    (tokensOf before.length lexemes).mapM (Word.ofToken file) =
      .ok (wordsFrom before.length lexemes) := by
  induction lexemes generalizing before with
  | nil => rfl
  | cons lexeme lexemes ih =>
    have hword := ofToken_eq_ok before lexeme.text (lexemes.flatMap Lexeme.text ++ rest)
      (by simpa using h) lexeme.kind
    have hwords := ih (before ++ lexeme.text) (by simpa using h)
    rw [List.length_append] at hwords
    rw [tokensOf, List.mapM_cons, hword, Result.ok_bind, hwords]
    rfl

theorem ofToken_endToken (file : File) :
    Word.ofToken file (endToken file.contents.length) = .ok (endWord file.contents.length) :=
  ofToken_eq_ok file.contents [] [] (by simp) .endOfFile

end TileSelect.Program
