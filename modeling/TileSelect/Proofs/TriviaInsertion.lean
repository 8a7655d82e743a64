import TileSelect.Proofs.SourceLines
import TileSelect.Proofs.StatementSpans

/-! # Blanks and comments between tokens

Blanks, or a comment with its newline, may be put between any two tokens of a program text.  The comment before
them may swallow some of them and the blanks around them may join them, but the tokens that are no trivia stay as
they are.  What a text says depends on the spelling of these tokens alone, so the same program is read and the same
error found, at the same one of them. -/
namespace TileSelect.Program

/-- The text is cut to its end, and these of its lexemes are no trivia. -/
def Carries (cs : List Char) (content : List Lexeme) : Prop :=
  ∃ lexemes, Cut cs lexemes [] ∧ solid lexemes = content

theorem Carries.take {lexeme : Lexeme} {cs : List Char} {content : List Lexeme} (h : Carries cs content)
    (hlongest : Longest lexeme cs) : Carries (lexeme.text ++ cs) (solid [lexeme] ++ content) := by
  obtain ⟨lexemes, hcut, rfl⟩ := h
  exact ⟨lexeme :: lexemes, .take lexeme hlongest hcut, List.filter_append [lexeme] lexemes⟩

theorem Carries.trivia {lexeme : Lexeme} {cs : List Char} {content : List Lexeme} (h : Carries cs content)
    (hlongest : Longest lexeme cs) (htrivia : lexeme.kind.isTrivia = true) :
    Carries (lexeme.text ++ cs) content := by
  have htake := h.take hlongest
  simpa [solid, htrivia] using htake

/-- Whether a lexeme is longest depends on the next character only. -/
theorem longest_congr {lexeme : Lexeme} {cs cs' : List Char} (h : cs.head? = cs'.head?) :
    Longest lexeme cs ↔ Longest lexeme cs' := by
  rw [longest_iff, longest_iff]
  cases cs with
  | nil => rw [List.head?_eq_none_iff.mp h.symm]
  | cons c cs =>
    obtain ⟨rest, rfl⟩ := List.head?_eq_some_iff.mp h.symm
    cases lexeme.kind.continuesWith c <;> simp_all

theorem Lexeme.blank_of_mem {lexeme : Lexeme} (h : lexeme.kind = .whitespace) {c : Char}
    (hc : c ∈ lexeme.text) : TokenKind.whitespace.startsWith c = true := by
  obtain ⟨d, run, htext, hstart, hrun⟩ := lexeme.exists_cons
  rw [htext] at hc
  rw [h] at hstart hrun
  rcases List.mem_cons.mp hc with rfl | hc
  · exact hstart
  · exact hrun c hc

/-- A lexeme other than a comment ends where one of another kind starts. -/
theorem longest_of_startsWith {lexeme : Lexeme} {kind : TokenKind} {c : Char} (cs : List Char)
    (hcomment : lexeme.kind ≠ .comment) (hne : lexeme.kind ≠ kind) (hc : kind.startsWith c = true) :
    Longest lexeme (c :: cs) := by
  rw [longest_iff, List.takeWhile_cons, continuesWith_of_startsWith hcomment hne hc]
  rfl

/-- A blank before a text is a lexeme of its own, or part of the first one. -/
theorem Carries.blank {c : Char} {cs : List Char} {content : List Lexeme} (h : Carries cs content)
    (hc : TokenKind.whitespace.startsWith c = true) : Carries (c :: cs) content := by
  have hnone : ∀ d ∈ ([] : List Char), TokenKind.whitespace.continuesWith d = true := by simp
  let single : Lexeme := ⟨.whitespace, [c], hc, hnone⟩
  have hcarries := h
  obtain ⟨lexemes, hcut, rfl⟩ := h
  cases hcut with
  | stop =>
    have hlongest : Longest single [] := longest_iff.mpr rfl
    exact hcarries.trivia hlongest rfl
  | @take cs _ lexemes first hfirst hmore =>
    by_cases hkind : first.kind = .whitespace
    · -- the blanks of the first lexeme go on from this one
      have hblanks : ∀ d ∈ first.text, TokenKind.whitespace.continuesWith d = true :=
        fun d hd => first.blank_of_mem hkind hd
      let joined : Lexeme := ⟨.whitespace, c :: first.text, hc, hblanks⟩
      have hlongest : Longest joined cs := by
        rw [longest_iff, hkind] at hfirst
        exact longest_iff.mpr hfirst
      refine ⟨joined :: lexemes, .take joined hlongest hmore, ?_⟩
      simp [solid, hkind, joined, TokenKind.isTrivia]
    · obtain ⟨d, run, htext, hd, -⟩ := first.exists_cons
      have hlongest : Longest single (first.text ++ cs) := by
        have hcomment : single.kind ≠ .comment := by simp [single]
        rw [htext]
        exact longest_of_startsWith _ hcomment (Ne.symm hkind) hd
      exact hcarries.trivia hlongest rfl

theorem Carries.blanks {blanks cs : List Char} {content : List Lexeme} (h : Carries cs content)
    (hblanks : ∀ c ∈ blanks, TokenKind.whitespace.startsWith c = true) : Carries (blanks ++ cs) content := by
  induction blanks with
  | nil => exact h
  | cons c blanks ih =>
    rw [List.forall_mem_cons] at hblanks
    exact (ih hblanks.2).blank hblanks.1

/-- Blanks, or a comment with the newline after it. -/
inductive Trivia : List Char → Prop
  | blanks {cs : List Char} (h : ∀ c ∈ cs, c = ' ' ∨ c = '\t' ∨ c = '\r' ∨ c = '\n') : Trivia cs
  | comment {text : List Char} (h : '\n' ∉ text) : Trivia (';' :: text ++ ['\n'])

theorem startsWith_whitespace_iff {c : Char} : TokenKind.whitespace.startsWith c = true ↔
    c = ' ' ∨ c = '\t' ∨ c = '\r' ∨ c = '\n' := by
  simp [TokenKind.startsWith, or_assoc]

/-- What a comment before it would swallow, and blanks. -/
theorem Trivia.exists_split {gap : List Char} (h : Trivia gap) : ∃ run blanks, gap = run ++ blanks ∧
    '\n' ∉ run ∧ (∀ c ∈ blanks, TokenKind.whitespace.startsWith c = true) ∧
      (blanks = [] ∨ blanks.head? = some '\n') := by
  cases h with
  | blanks h =>
    induction gap using File.line_induction with
    | last text htext => exact ⟨text, [], (List.append_nil text).symm, htext, by simp, .inl rfl⟩
    | more text rest htext _ =>
      refine ⟨text, '\n' :: rest, rfl, htext, ?_, .inr rfl⟩
      intro c hc
      exact startsWith_whitespace_iff.mpr (h c (List.mem_append_right text hc))
  | @comment text h =>
    refine ⟨';' :: text, ['\n'], rfl, ?_, by simp [startsWith_whitespace_iff], .inr rfl⟩
    simp [h]

theorem Trivia.startsWith {c : Char} {gap : List Char} (h : Trivia (c :: gap)) :
    TokenKind.whitespace.startsWith c = true ∨ TokenKind.comment.startsWith c = true := by
  cases h with
  | blanks h => exact .inl (startsWith_whitespace_iff.mpr (h c List.mem_cons_self))
  | comment h => exact .inr rfl

theorem Carries.trivia_start {cs gap : List Char} {content : List Lexeme} (h : Carries cs content)
    (hgap : Trivia gap) : Carries (gap ++ cs) content := by
  cases hgap with
  | blanks hblanks => exact h.blanks fun c hc => startsWith_whitespace_iff.mpr (hblanks c hc)
  | @comment text htext =>
    let comment : Lexeme := ⟨.comment, ';' :: text, rfl, fun d hd => by
      simpa [TokenKind.continuesWith] using ne_of_mem_of_not_mem hd htext⟩
    have hlongest : Longest comment ('\n' :: cs) := longest_iff.mpr rfl
    have hnewline : Carries ('\n' :: cs) content := h.blank rfl
    have hcomment := hnewline.trivia hlongest rfl
    simpa [comment] using hcomment

/-- A comment takes up what it can of the trivia behind it. -/
theorem Carries.trivia_after_comment {lexeme : Lexeme} {cs gap : List Char} {content : List Lexeme}
    (h : Carries cs content) (hlongest : Longest lexeme cs) (hkind : lexeme.kind = .comment)
    (hgap : Trivia gap) : Carries (lexeme.text ++ (gap ++ cs)) content := by
  obtain ⟨run, blanks, rfl, hrun, hblanks, hhead⟩ := hgap.exists_split
  obtain ⟨c, text, htext, hstart, htail⟩ := lexeme.exists_cons
  rw [hkind] at hstart htail
  let longer : Lexeme := ⟨.comment, c :: (text ++ run), hstart, fun d hd => by
    rcases List.mem_append.mp hd with hd | hd
    · exact htail d hd
    · simpa [TokenKind.continuesWith] using ne_of_mem_of_not_mem hd hrun⟩
  have hlonger : Longest longer (blanks ++ cs) := by
    rcases hhead with rfl | hhead
    · rw [longest_iff, hkind] at hlongest
      exact longest_iff.mpr hlongest
    · obtain ⟨rest, rfl⟩ := List.head?_eq_some_iff.mp hhead
      exact longest_iff.mpr rfl
  have hcarries := (h.blanks hblanks).trivia hlonger rfl
  simpa [longer, htext] using hcarries

theorem Carries.trivia_after {lexeme : Lexeme} {cs gap : List Char} {content : List Lexeme}
    (h : Carries cs content) (hlongest : Longest lexeme cs) (hgap : Trivia gap) :
    Carries (lexeme.text ++ (gap ++ cs)) (solid [lexeme] ++ content) := by
  -- a comment goes on into the trivia, blanks may join them, and any other lexeme ends before them
  by_cases hcomment : lexeme.kind = .comment
  · simpa [solid, hcomment, TokenKind.isTrivia] using h.trivia_after_comment hlongest hcomment hgap
  by_cases hblank : lexeme.kind = .whitespace
  · have hcarries := (h.trivia_start hgap).blanks fun c hc => lexeme.blank_of_mem hblank hc
    simpa [solid, hblank, TokenKind.isTrivia] using hcarries
  · apply (h.trivia_start hgap).take
    cases gap with
    | nil => exact hlongest
    | cons c gap =>
      rcases hgap.startsWith with hc | hc
      · exact longest_of_startsWith _ hcomment hblank hc
      · exact longest_of_startsWith _ hcomment hcomment hc

/-- Trivia between two lexemes of a text change nothing of its content. -/
theorem Cut.carries_insert {cs after gap : List Char} {front back : List Lexeme}
    (h : Cut cs (front ++ back) []) (hcs : cs = front.flatMap Lexeme.text ++ after) (hgap : Trivia gap) :
    Carries (front.flatMap Lexeme.text ++ (gap ++ after)) (solid (front ++ back)) := by
  induction front generalizing cs with
  | nil =>
    rw [List.flatMap_nil, List.nil_append] at hcs
    rw [List.nil_append, hcs] at h
    have hcarries : Carries after (solid back) := ⟨back, h, rfl⟩
    exact hcarries.trivia_start hgap
  | cons lexeme front ih =>
    cases h with
    | @take cs _ _ _ hlongest hmore =>
      rw [List.flatMap_cons, List.append_assoc] at hcs
      obtain rfl := List.append_cancel_left hcs
      rw [List.flatMap_cons, List.append_assoc, List.cons_append, ← List.singleton_append, solid,
        List.filter_append]
      cases front with
      | nil =>
        have hcarries : Carries after (solid back) := ⟨back, hmore, rfl⟩
        exact hcarries.trivia_after hlongest hgap
      | cons next front =>
        apply (ih hmore rfl).take
        -- the character behind the lexeme is still the first one of the next
        obtain ⟨c, run, htext, -⟩ := next.exists_cons
        refine (longest_congr ?_).mp hlongest
        rw [List.flatMap_cons, htext]
        rfl

/-- The lexer takes the text to its end and gives these tokens. -/
def Tokenizes (cs : List Char) (tokens : List (Token TokenKind)) : Prop :=
  (lexer cs).collect.1 = .ok tokens ∧ (lexer cs).collect.2.remaining = 0

/-- A place where a token starts or ends, or the start or the end of the text. -/
def Boundary (tokens : List (Token TokenKind)) (before after : List Char) : Prop :=
  before = [] ∨ after = [] ∨
    ∃ token ∈ tokens, before.length = token.start ∨ before.length = token.stop

def content (file : File) (tokens : List (Token TokenKind)) : Except Fault (List Word) := do
  let words ← tokens.mapM (Word.ofToken file)
  .ok (words.filter (!·.kind.isTrivia))

theorem tokenizes_iff {cs : List Char} {tokens : List (Token TokenKind)} : Tokenizes cs tokens ↔
    ∃ lexemes, Cut cs lexemes [] ∧ tokens = tokensOf 0 lexemes ++ [endToken cs.length] := by
  constructor
  · intro ⟨htokens, hnone⟩
    obtain ⟨lexemes, rest, hcut⟩ := exists_cut cs
    obtain ⟨last, final, hcollect, hfinal⟩ := collect_cut hcut []
    have hlexer : (lexer cs).collect = (.ok (tokensOf 0 lexemes ++ last), final) := hcollect
    rw [hlexer] at htokens hnone
    rcases hfinal with ⟨rfl, rfl, -⟩ | ⟨hrest, -, hremaining, -⟩
    · exact ⟨lexemes, hcut, (Except.ok.inj htokens).symm⟩
    · rw [hremaining] at hnone
      exact (hrest (List.length_eq_zero_iff.mp hnone)).elim
  · intro ⟨lexemes, hcut, htokens⟩
    obtain ⟨last, final, hcollect, hfinal⟩ := collect_cut hcut []
    have hlexer : (lexer cs).collect = (.ok (tokensOf 0 lexemes ++ last), final) := hcollect
    rw [Tokenizes, hlexer, htokens]
    rcases hfinal with ⟨-, rfl, hremaining⟩ | ⟨hne, -⟩
    · exact ⟨rfl, hremaining⟩
    · exact (hne rfl).elim

theorem content_of_cut {file : File} {lexemes : List Lexeme} (h : Cut file.contents lexemes []) :
    content file (tokensOf 0 lexemes ++ [endToken file.contents.length]) = .ok (wordsOf lexemes) := by
  rw [content, mapM_ofToken_cut h, Result.ok_bind, filter_words_cut h]

/-- A token is one of the lexemes, after the text of those before it. -/
theorem exists_lexeme_of_token {start : Nat} {lexemes : List Lexeme} {token : Token TokenKind}
    (h : token ∈ tokensOf start lexemes) : ∃ front lexeme back, lexemes = front ++ lexeme :: back ∧
      token.start = start + (front.flatMap Lexeme.text).length ∧
      token.stop = start + ((front ++ [lexeme]).flatMap Lexeme.text).length := by
  induction lexemes generalizing start with
  | nil => cases h
  | cons first lexemes ih =>
    rcases List.mem_cons.mp h with rfl | h
    · exact ⟨[], first, lexemes, rfl, rfl, by simp⟩
    · obtain ⟨front, lexeme, back, rfl, hstart, hstop⟩ := ih h
      refine ⟨first :: front, lexeme, back, rfl, ?_, ?_⟩
      · rw [hstart, List.flatMap_cons, List.length_append, Nat.add_assoc]
      · rw [hstop, List.cons_append, List.flatMap_cons, List.length_append, Nat.add_assoc]

theorem Boundary.exists_split {before after : List Char} {lexemes : List Lexeme}
    (h : Boundary (tokensOf 0 lexemes ++ [endToken (before ++ after).length]) before after)
    (htext : before ++ after = lexemes.flatMap Lexeme.text) : ∃ front back, lexemes = front ++ back ∧
      before = front.flatMap Lexeme.text := by
  -- the texts before the boundary agree as soon as they are equally long
  have hsplit : ∀ front back, lexemes = front ++ back →
      before.length = (front.flatMap Lexeme.text).length → before = front.flatMap Lexeme.text := by
    intro front back hlexemes hlength
    rw [hlexemes, List.flatMap_append] at htext
    exact List.append_inj_left htext hlength
  have hend : before.length = (before ++ after).length → before = lexemes.flatMap Lexeme.text := by
    intro hlength
    apply hsplit lexemes [] (List.append_nil _).symm
    rw [hlength, htext]
  rcases h with hstart | hafter | ⟨token, htoken, hplace⟩
  · exact ⟨[], lexemes, rfl, hstart⟩
  · exact ⟨lexemes, [], (List.append_nil _).symm, hend (by rw [hafter, List.append_nil])⟩
  · rcases List.mem_append.mp htoken with htoken | htoken
    · obtain ⟨front, lexeme, back, hlexemes, hstart, hstop⟩ := exists_lexeme_of_token htoken
      rw [Nat.zero_add] at hstart hstop
      rcases hplace with hplace | hplace
      · exact ⟨front, lexeme :: back, hlexemes, hsplit _ _ hlexemes (hplace.trans hstart)⟩
      · rw [List.append_cons] at hlexemes
        exact ⟨front ++ [lexeme], back, hlexemes, hsplit _ _ hlexemes (hplace.trans hstop)⟩
    · obtain rfl := List.mem_singleton.mp htoken
      exact ⟨lexemes, [], (List.append_nil _).symm, hend (hplace.elim id id)⟩

theorem spelling_wordsOf_congr {lexemes lexemes' : List Lexeme} (h : solid lexemes = solid lexemes') :
    (wordsOf lexemes).map Word.spelling = (wordsOf lexemes').map Word.spelling := by
  have hcontent : (contentFrom 0 lexemes).map Word.spelling = (contentFrom 0 lexemes').map Word.spelling := by
    rw [spelling_contentFrom, spelling_contentFrom, h]
  rw [wordsOf, wordsOf, List.map_append, List.map_append]
  exact congrArg (· ++ [(.endOfFile, "")]) hcontent

/-- The grammar sees no more of words than their spelling. -/
theorem symbol_congr {words words' : List Word} (h : words.map Word.spelling = words'.map Word.spelling) :
    words.map Word.symbol = words'.map Word.symbol := by
  have hsymbol : Word.symbol = (fun (kind, text) => Word.symbol ⟨kind, Span.point 0, text⟩) ∘ Word.spelling := by
    funext word
    rfl
  rw [hsymbol, ← List.map_map, h, List.map_map]

theorem Progress.follow_append {progress next : Progress} {before : List Word}
    (h : progress.run (before.map Word.symbol) = .ok next) (words : List Word) :
    progress.follow (before ++ words) = next.follow words := by
  have hbefore : progress.follow before = .ok next := follow_eq_ok_iff.mpr h
  rw [follow] at hbefore
  rw [follow, List.foldlM_append, hbefore]
  rfl

/-- Of words with the same symbols, the same one is refused, for the same cause. -/
theorem Progress.follow_error_congr {progress : Progress} {words words' : List Word}
    {error : Located ParseError} (hsymbols : words.map Word.symbol = words'.map Word.symbol)
    (h : progress.follow words = .error error) : ∃ before word after before' word' after',
      words = before ++ word :: after ∧ words' = before' ++ word' :: after' ∧
      before.map Word.symbol = before'.map Word.symbol ∧ error.span = word.span ∧
      progress.follow words' = .error ⟨word'.span, error.cause⟩ := by
  obtain ⟨before, word, after, next, rfl, hspan, hrun, hstep⟩ := follow_eq_error h
  rw [List.map_append, List.map_cons] at hsymbols
  obtain ⟨before', rest', rfl, hbefore, hrest⟩ := List.map_eq_append_iff.mp hsymbols.symm
  obtain ⟨word', after', rfl, hword, -⟩ := List.map_eq_cons_iff.mp hrest
  refine ⟨before, word, after, before', word', after', rfl, rfl, hbefore.symm, hspan, ?_⟩
  rw [← hbefore] at hrun
  rw [← hword] at hstep
  rw [follow_append hrun, follow_cons_of_error hstep]

theorem pairwise_start_wordsOf (lexemes : List Lexeme) :
    (wordsOf lexemes).Pairwise fun first second => first.span.start < second.span.start := by
  have hbefore := List.pairwise_append.mp (pairwise_wordsOf lexemes)
  have hstart : ∀ {word next : Word}, word ∈ contentFrom 0 lexemes → word.Before next →
      word.span.start < next.span.start := by
    intro word next hword hnext
    have hwithin := (within_wordsFrom (List.mem_of_mem_filter hword)).2.1
    exact Int.lt_of_lt_of_le hwithin hnext
  refine List.pairwise_append.mpr ⟨?_, List.pairwise_singleton _ _, ?_⟩
  · exact hbefore.1.imp_of_mem fun hword _ hnext => hstart hword hnext
  · intro word hword last hlast
    exact hstart hword (hbefore.2.2 word hword last hlast)

theorem takeWhile_start {before after : List Word} {word : Word}
    (h : (before ++ word :: after).Pairwise fun first second => first.span.start < second.span.start) :
    (before ++ word :: after).takeWhile (fun other => other.span.start < word.span.start) = before := by
  have hbefore := (List.pairwise_append.mp h).2.2
  rw [List.takeWhile_append_of_pos, List.takeWhile_cons_of_neg, List.append_nil]
  · simp
  · intro other hother
    exact decide_eq_true (hbefore other hother word List.mem_cons_self)

/-- A word of a text is known by its span. -/
theorem split_unique {lexemes : List Lexeme} {before before' after after' : List Word} {word word' : Word}
    (h : wordsOf lexemes = before ++ word :: after) (h' : wordsOf lexemes = before' ++ word' :: after')
    (hspan : word.span = word'.span) : before = before' := by
  have hpairwise := pairwise_start_wordsOf lexemes
  have htake := takeWhile_start (h ▸ hpairwise)
  have htake' := takeWhile_start (h' ▸ hpairwise)
  rw [← htake, ← htake', ← h, ← h', hspan]

theorem follow_of_statements {lexemes : List Lexeme} {read : List Statement}
    {error : Option (Located ParseError)} (h : statements [] (wordsOf lexemes) = .ok (read, error)) :
    (∀ e, error = some e → Progress.initial.follow (wordsOf lexemes) = .error e) ∧
      (error = none → ∃ clauses, List.Forall₂ Says read clauses ∧
        Progress.initial.follow (wordsOf lexemes) = .ok ⟨clauses, .finished⟩) := by
  obtain ⟨read', error', hagrees, herror, hnone⟩ := statements_agrees [] (closed_wordsOf lexemes)
  have hread : statements [] (wordsOf lexemes) = .ok (read', error') := hagrees
  rw [h] at hread
  cases hread
  exact ⟨herror, hnone⟩

/-- What is read up to an error are the whole clauses before the word refused. -/
theorem exists_clauses_before {lexemes : List Lexeme} {read : List Statement} {error : Located ParseError}
    {before after : List Word} {word : Word} (h : statements [] (wordsOf lexemes) = .ok (read, some error))
    (hwords : wordsOf lexemes = before ++ word :: after) (hspan : error.span = word.span) :
    ∃ clauses pending, before.map Word.symbol = clauses.flatMap Clause.symbols ++ pending ∧
      Incomplete pending ∧ List.Forall₂ Says read clauses := by
  obtain ⟨taken, _, _, clauses, pending, htaken, hat, hclauses, hpending, hsays, -⟩ :=
    exists_clauses_of_error h
  obtain rfl := split_unique hwords htaken (hspan.symm.trans hat)
  exact ⟨clauses, pending, hclauses, hpending, hsays⟩

/-- There is no error, or the same message at the same one of the words. -/
def SameError (words words' : List Word) : Option SyntaxError → Option SyntaxError → Prop
  | none, none => True
  | some error, some error' => error.message = error'.message ∧
      ∃ i : Nat, words[i]?.map Word.span = some error.span ∧ words'[i]?.map Word.span = some error'.span
  | _, _ => False

/-- Texts whose words are spelled alike are the same program, and the same is wrong with them. -/
theorem parsed_congr {file file' : File} {lexemes lexemes' : List Lexeme} {parsed parsed' : Parsed}
    (hcut : Cut file.contents lexemes []) (hcut' : Cut file'.contents lexemes' [])
    (hparse : parse file = .ok parsed) (hparse' : parse file' = .ok parsed')
    (hspelling : (wordsOf lexemes).map Word.spelling = (wordsOf lexemes').map Word.spelling) :
    parsed.program = parsed'.program ∧
      SameError (wordsOf lexemes) (wordsOf lexemes') parsed.syntaxError? parsed'.syntaxError? := by
  have hsymbols := symbol_congr hspelling
  have hread := (statements_of_parse hcut hparse).2
  have hread' := (statements_of_parse hcut' hparse').2
  obtain ⟨herror, hnone⟩ := follow_of_statements hread
  obtain ⟨herror', hnone'⟩ := follow_of_statements hread'
  obtain ⟨file, read, error⟩ := parsed
  obtain ⟨file', read', error'⟩ := parsed'
  cases error with
  | none =>
    obtain ⟨clauses, hsays, hfollow⟩ := hnone rfl
    have hrun := Progress.follow_eq_ok_iff.mp hfollow
    rw [hsymbols] at hrun
    have hfollow' := Progress.follow_eq_ok_iff.mpr hrun
    cases error' with
    | none =>
      obtain ⟨clauses', hsays', hfinal⟩ := hnone' rfl
      rw [hfinal] at hfollow'
      cases hfollow'
      rw [program_eq_ofClauses hsays, program_eq_ofClauses hsays']
      exact ⟨rfl, trivial⟩
    | some error' =>
      rw [herror' error' rfl] at hfollow'
      cases hfollow'
  | some error =>
    obtain ⟨before, word, after, before', word', after', hwords, hwords', hbefore, hspan, hfollow'⟩ :=
      Progress.follow_error_congr hsymbols (herror error rfl)
    cases error' with
    | none =>
      obtain ⟨clauses, -, hfinal⟩ := hnone' rfl
      rw [hfinal] at hfollow'
      cases hfollow'
    | some error' =>
      rw [herror' error' rfl] at hfollow'
      cases hfollow'
      have hlength : before.length = before'.length := by simpa using congrArg List.length hbefore
      obtain ⟨clauses, pending, hclauses, hpending, hsays⟩ := exists_clauses_before hread hwords hspan
      obtain ⟨clauses', pending', hclauses', hpending', hsays'⟩ := exists_clauses_before hread' hwords' rfl
      -- symbols are clauses in one way, so as many statements were read on both sides
      rw [hclauses, hclauses'] at hbefore
      obtain ⟨rfl, -⟩ := clauses_unique hbefore hpending hpending'
      rw [program_eq_ofClauses hsays, program_eq_ofClauses hsays']
      refine ⟨rfl, rfl, before.length, ?_, ?_⟩
      · have hat : (wordsOf lexemes)[before.length]? = some word := by simp [hwords]
        rw [hat, Option.map_some, ← hspan]
        rfl
      · have hat : (wordsOf lexemes')[before.length]? = some word' := by simp [hwords', hlength]
        rw [hat]
        rfl

/-- Trivia put at a boundary between tokens leave the other tokens as they are, and the text is still taken to its
end.  The same program is read from it, and either there is no error in both texts or the same message is at the
same one of these tokens. -/
theorem parse_ignores_trivia (name : String) {before gap after : List Char}
    {tokens : List (Token TokenKind)} (htokens : Tokenizes (before ++ after) tokens)
    (hboundary : Boundary tokens before after) (hgap : Trivia gap) :
    ∃ tokens' words words' parsed parsed',
      Tokenizes (before ++ gap ++ after) tokens' ∧
      content ⟨name, before ++ after⟩ tokens = .ok words ∧
      content ⟨name, before ++ gap ++ after⟩ tokens' = .ok words' ∧
      words.map Word.spelling = words'.map Word.spelling ∧
      parse ⟨name, before ++ after⟩ = .ok parsed ∧
      parse ⟨name, before ++ gap ++ after⟩ = .ok parsed' ∧
      parsed.program = parsed'.program ∧
      SameError words words' parsed.syntaxError? parsed'.syntaxError? := by
  obtain ⟨lexemes, hcut, rfl⟩ := tokenizes_iff.mp htokens
  have htext : before ++ after = lexemes.flatMap Lexeme.text := by simpa using hcut.eq_append
  obtain ⟨front, back, rfl, rfl⟩ := hboundary.exists_split htext
  obtain ⟨lexemes', hcut', hsolid⟩ := hcut.carries_insert rfl hgap
  rw [← List.append_assoc] at hcut'
  obtain ⟨parsed, hparse⟩ := exists_parse ⟨name, front.flatMap Lexeme.text ++ after⟩
  obtain ⟨parsed', hparse'⟩ := exists_parse ⟨name, front.flatMap Lexeme.text ++ gap ++ after⟩
  have hspelling := spelling_wordsOf_congr hsolid.symm
  have hparsed := parsed_congr hcut hcut' hparse hparse' hspelling
  exact ⟨_, wordsOf (front ++ back), wordsOf lexemes', parsed, parsed', tokenizes_iff.mpr ⟨lexemes', hcut', rfl⟩,
    content_of_cut hcut, content_of_cut hcut', hspelling, hparse, hparse', hparsed⟩

/-- A comment put behind a comment makes this one longer, and the end of the file is still what is wrong. -/
theorem parse_ignores_trivia_commentLengthened :
    let before := "t=add a,b;x".toList
    let gap := ";y\n".toList
    let after := "\nt".toList
    let tokens : List (Token TokenKind) := [⟨.identifier, 0, 1⟩, ⟨.equals, 1, 2⟩, ⟨.identifier, 2, 5⟩,
      ⟨.whitespace, 5, 6⟩, ⟨.identifier, 6, 7⟩, ⟨.comma, 7, 8⟩, ⟨.identifier, 8, 9⟩, ⟨.comment, 9, 11⟩,
      ⟨.whitespace, 11, 12⟩, ⟨.identifier, 12, 13⟩, ⟨.endOfFile, 13, 13⟩]
    Tokenizes (before ++ after) tokens ∧ Boundary tokens before after ∧ Trivia gap ∧
      ∃ words words' parsed parsed', words.map Word.spelling = words'.map Word.spelling ∧
        parse ⟨"", before ++ after⟩ = .ok parsed ∧ parse ⟨"", before ++ gap ++ after⟩ = .ok parsed' ∧
        parsed.program = ⟨[], [⟨.add, "t", "a", "b"⟩]⟩ ∧ parsed'.program = ⟨[], [⟨.add, "t", "a", "b"⟩]⟩ ∧
        parsed.error = some ⟨⟨13, 13⟩, .unexpectedToken⟩ ∧
        SameError words words' parsed.syntaxError? parsed'.syntaxError? := by
  intro before gap after tokens
  have htokens : Tokenizes (before ++ after) tokens := ⟨by decide +kernel, by decide +kernel⟩
  have hboundary : Boundary tokens before after := .inr (.inr ⟨⟨.comment, 9, 11⟩, by decide, .inr rfl⟩)
  have hnewline : '\n' ∉ ['y'] := by decide
  have hgap : Trivia gap := .comment hnewline
  have hread : (parse ⟨"", before ++ after⟩).toOption.map (fun parsed => (parsed.program, parsed.error)) =
      some (⟨[], [⟨.add, "t", "a", "b"⟩]⟩, some ⟨⟨13, 13⟩, .unexpectedToken⟩) := by
    decide +kernel
  obtain ⟨_, words, words', parsed, parsed', -, -, -, hspelling, hparse, hparse', hprogram, herror⟩ :=
    parse_ignores_trivia "" htokens hboundary hgap
  rw [hparse] at hread
  obtain ⟨hsame, hfailed⟩ := Prod.mk.inj (Option.some.inj hread)
  exact ⟨htokens, hboundary, hgap, words, words', parsed, parsed', hspelling, hparse, hparse', hsame,
    hprogram.symm.trans hsame, hfailed, herror⟩

end TileSelect.Program
