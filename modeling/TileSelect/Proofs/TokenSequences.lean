import Mathlib.Data.List.Chain
import Mathlib.Data.List.Infix
import TileSelect.Proofs.ResultSequences
import TileSelect.TokenStream

/-! # The tokens that a stream hands out

A text has one sequence of tokens, whatever rules cut it: the first starts with the text, each other one where
the one before it ends, and only the last may start at the end of the text.  A stream hands out this sequence.
However it is asked, looked into or emptied, what it has handed out is a first part of the sequence and what it
will hand out is the rest. -/
namespace TileSelect

variable {α κ : Type} [BEq α] [LE α] [DecidableLE α]

namespace Rule

/-- No rule accepts at the start of the text. -/
def AcceptNone (rules : List (Rule α κ)) (cs : List α) : Prop :=
  ∀ rule ∈ rules, rule.scanner.scan cs = .ok 0

/-- The first rule that accepts at the start of the text is of this kind, and accepts so many items. -/
def FirstAccepts (rules : List (Rule α κ)) (cs : List α) (kind : κ) (n : Nat) : Prop :=
  ∃ before rule after, rules = before ++ rule :: after ∧ AcceptNone before cs ∧
    rule.scanner.scan cs = .ok n ∧ 0 < n ∧ rule.kind = kind

/-- The scanners of the rules meet no fault, at whatever position of the text they look. -/
def Faultless (rules : List (Rule α κ)) (text : List α) : Prop :=
  ∀ rule ∈ rules, ∀ cs, cs <:+ text → ∃ n, rule.scanner.scan cs = .ok n

theorem first?_cons_of_zero {rule : Rule α κ} {cs : List α} (h : rule.scanner.scan cs = .ok 0)
    (rules : List (Rule α κ)) : first? cs (rule :: rules) = first? cs rules := by
  rw [first?, h, Result.ok_bind, if_pos rfl]

theorem first?_cons_of_pos {rule : Rule α κ} {cs : List α} {n : Nat} (h : rule.scanner.scan cs = .ok n)
    (hn : n ≠ 0) (rules : List (Rule α κ)) : first? cs (rule :: rules) = .ok (some (rule.kind, n)) := by
  rw [first?, h, Result.ok_bind, if_neg hn]

theorem first?_eq_ok_cases {rules : List (Rule α κ)} {cs : List α} {found : Option (κ × Nat)}
    (h : first? cs rules = .ok found) :
    (found = none ∧ AcceptNone rules cs) ∨
      ∃ kind n, found = some (kind, n) ∧ FirstAccepts rules cs kind n := by
  induction rules with
  | nil =>
    left
    exact ⟨(Except.ok.inj h).symm, nofun⟩
  | cons rule rules ih =>
    obtain ⟨n, hscan, -⟩ := Result.bind_eq_ok_iff.mp h
    by_cases hn : n = 0
    · subst hn
      rw [first?_cons_of_zero hscan] at h
      rcases ih h with ⟨hnone, hrules⟩ | ⟨kind, m, hfound, before, other, after, rfl, hbefore, hother⟩
      · left
        exact ⟨hnone, List.forall_mem_cons.mpr ⟨hscan, hrules⟩⟩
      · right
        refine ⟨kind, m, hfound, rule :: before, other, after, rfl, ?_, hother⟩
        exact List.forall_mem_cons.mpr ⟨hscan, hbefore⟩
    · right
      rw [first?_cons_of_pos hscan hn] at h
      exact ⟨rule.kind, n, (Except.ok.inj h).symm, [], rule, rules, rfl, nofun, hscan, Nat.pos_of_ne_zero hn,
        rfl⟩

theorem AcceptNone.first? {rules : List (Rule α κ)} {cs : List α} (h : AcceptNone rules cs) :
    first? cs rules = .ok none := by
  induction rules with
  | nil => rfl
  | cons rule rules ih =>
    obtain ⟨hrule, hrules⟩ := List.forall_mem_cons.mp h
    rw [first?_cons_of_zero hrule]
    exact ih hrules

theorem Faultless.exists_first? {rules : List (Rule α κ)} {text cs : List α} (h : Faultless rules text)
    (hcs : cs <:+ text) : ∃ found, first? cs rules = .ok found := by
  induction rules with
  | nil => exact ⟨none, rfl⟩
  | cons rule rules ih =>
    obtain ⟨hrule, hrules⟩ := List.forall_mem_cons.mp h
    obtain ⟨n, hscan⟩ := hrule cs hcs
    by_cases hn : n = 0
    · subst hn
      rw [first?_cons_of_zero hscan]
      exact ih hrules
    · exact ⟨_, first?_cons_of_pos hscan hn rules⟩

end Rule

namespace Lexer

theorem peek?_of_le {lexer : Lexer α κ} (h : lexer.index ≤ lexer.text.length) {found : Option (κ × Nat)}
    (hfirst : Rule.first? (lexer.text.drop lexer.index) lexer.rules = .ok found) :
    lexer.peek? = .ok (found.map fun (kind, n) =>
      ⟨kind, lexer.index, min lexer.text.length (lexer.index + n)⟩) := by
  rw [peek?, if_neg (by omega), hfirst, Result.ok_bind]
  cases found <;> rfl

/-- There is no token past the end of the text, and none where no rule accepts. -/
theorem peek?_eq_none_iff {lexer : Lexer α κ} : lexer.peek? = .ok none ↔
    lexer.text.length < lexer.index ∨ Rule.AcceptNone lexer.rules (lexer.text.drop lexer.index) := by
  by_cases hle : lexer.index ≤ lexer.text.length
  · constructor
    · intro h
      right
      cases hfirst : Rule.first? (lexer.text.drop lexer.index) lexer.rules with
      | error fault =>
        rw [peek?, if_neg (by omega), hfirst] at h
        cases h
      | ok found =>
        rw [peek?_of_le hle hfirst] at h
        rcases Rule.first?_eq_ok_cases hfirst with ⟨rfl, hnone⟩ | ⟨kind, n, rfl, -⟩
        · exact hnone
        · cases h
    · intro h
      have hnone := h.resolve_left (by omega)
      exact peek?_of_le hle hnone.first?
  · constructor
    · intro _
      left
      omega
    · intro _
      rw [peek?, if_pos (by omega)]

theorem peek?_eq_some {lexer : Lexer α κ} {token : Token κ} (h : lexer.peek? = .ok (some token)) :
    lexer.index ≤ lexer.text.length ∧ token.start = lexer.index ∧
      ∃ n, Rule.FirstAccepts lexer.rules (lexer.text.drop lexer.index) token.kind n ∧
        token.stop = min lexer.text.length (lexer.index + n) := by
  obtain ⟨hle, hstart, -⟩ := peek?_spec h
  refine ⟨hle, hstart, ?_⟩
  cases hfirst : Rule.first? (lexer.text.drop lexer.index) lexer.rules with
  | error fault =>
    rw [peek?, if_neg (by omega), hfirst] at h
    cases h
  | ok found =>
    rw [peek?_of_le hle hfirst] at h
    rcases Rule.first?_eq_ok_cases hfirst with ⟨rfl, -⟩ | ⟨kind, n, rfl, haccepts⟩
    · cases h
    · cases h
      exact ⟨n, haccepts, rfl⟩

theorem exists_peek? {lexer : Lexer α κ} (h : Rule.Faultless lexer.rules lexer.text) :
    ∃ found, lexer.peek? = .ok found := by
  by_cases hle : lexer.index ≤ lexer.text.length
  · obtain ⟨found, hfirst⟩ := h.exists_first? (List.drop_suffix lexer.index lexer.text)
    exact ⟨_, peek?_of_le hle hfirst⟩
  · exact ⟨none, peek?_eq_none_iff.mpr (.inl (by omega))⟩

/-- The lexer cuts the rest of its text into these tokens. -/
def Yields (lexer : Lexer α κ) (tokens : List (Token κ)) : Prop := lexer.collect.1 = .ok tokens

theorem not_yields_of_error {lexer : Lexer α κ} {fault : Fault} (h : lexer.peek? = .error fault)
    (tokens : List (Token κ)) : ¬ lexer.Yields tokens := by
  intro hyields
  rw [Yields, collect] at hyields
  split at hyields <;> simp_all

theorem yields_nil_iff {lexer : Lexer α κ} : lexer.Yields [] ↔ lexer.peek? = .ok none := by
  constructor
  · intro h
    match hpeek : lexer.peek? with
    | .error fault => exact (not_yields_of_error hpeek _ h).elim
    | .ok none => rfl
    | .ok (some token) =>
      rw [Yields, collect_of_some hpeek] at h
      cases hrest : (lexer.advance token).collect.1 <;> simp_all [Except.map]
  · intro h
    rw [Yields, collect_of_none h]

theorem yields_cons_iff {lexer : Lexer α κ} {token : Token κ} {tokens : List (Token κ)} :
    lexer.Yields (token :: tokens) ↔
      lexer.peek? = .ok (some token) ∧ (lexer.advance token).Yields tokens := by
  constructor
  · intro h
    match hpeek : lexer.peek? with
    | .error fault => exact (not_yields_of_error hpeek _ h).elim
    | .ok none =>
      rw [Yields, collect_of_none hpeek] at h
      cases h
    | .ok (some token') =>
      rw [Yields, collect_of_some hpeek] at h
      cases hrest : (lexer.advance token').collect.1 with
      | error fault =>
        rw [hrest] at h
        cases h
      | ok rest =>
        rw [hrest] at h
        cases h
        exact ⟨rfl, hrest⟩
  · rintro ⟨hpeek, hrest⟩
    rw [Yields, collect_of_some hpeek, hrest]
    rfl

/-- A text is cut to where its tokens end if no rule meets a fault. -/
theorem exists_yields (lexer : Lexer α κ) (h : Rule.Faultless lexer.rules lexer.text) :
    ∃ tokens, lexer.Yields tokens := by
  obtain ⟨found, hpeek⟩ := exists_peek? h
  match found with
  | none => exact ⟨[], yields_nil_iff.mpr hpeek⟩
  | some token =>
    obtain ⟨tokens, hrest⟩ := exists_yields (lexer.advance token) h
    exact ⟨token :: tokens, yields_cons_iff.mpr ⟨hpeek, hrest⟩⟩
termination_by lexer.text.length + 1 - lexer.index
decreasing_by exact advance_measure hpeek

end Lexer

/-- The tokens of a text from a position on.  Each is what the first rule that accepts at its start accepts, cut at
the end of the text. -/
structure Consecutive (rules : List (Rule α κ)) (text : List α) (position : Nat)
    (tokens : List (Token κ)) : Prop where
  head : ∀ token ∈ tokens.head?, token.start = position
  chain : tokens.IsChain fun token next => token.stop = next.start
  inside : ∀ token ∈ tokens, token.start < text.length →
    token.start < token.stop ∧ token.stop ≤ text.length
  last : ∀ before token after, tokens = before ++ token :: after → text.length ≤ token.start →
    token.start = text.length ∧ token.stop = text.length ∧ after = []
  first : ∀ token ∈ tokens, ∃ n, Rule.FirstAccepts rules (text.drop token.start) token.kind n ∧
    token.stop = min text.length (token.start + n)

theorem Consecutive.nil (rules : List (Rule α κ)) (text : List α) (position : Nat) :
    Consecutive rules text position [] := by
  refine ⟨nofun, .nil, nofun, ?_, nofun⟩
  intro before token after heq
  simp at heq

theorem Consecutive.cons {rules : List (Rule α κ)} {text : List α} {token : Token κ}
    {tokens : List (Token κ)} {n : Nat} (hle : token.start ≤ text.length)
    (hfirst : Rule.FirstAccepts rules (text.drop token.start) token.kind n)
    (hstop : token.stop = min text.length (token.start + n))
    (hend : token.start = text.length → tokens = []) (hmore : Consecutive rules text token.stop tokens) :
    Consecutive rules text token.start (token :: tokens) := by
  have hpos : 0 < n := by
    obtain ⟨_, _, _, _, _, _, hpos, _⟩ := hfirst
    exact hpos
  refine ⟨?_, ?_, ?_, ?_, ?_⟩
  · intro head hhead
    obtain rfl := Option.some.inj hhead
    rfl
  · apply List.isChain_cons.mpr
    exact ⟨fun next hnext => (hmore.head next hnext).symm, hmore.chain⟩
  · rw [List.forall_mem_cons]
    exact ⟨fun _ => by omega, hmore.inside⟩
  · intro before other after heq hother
    cases before with
    | nil =>
      obtain ⟨rfl, rfl⟩ := List.cons.inj heq
      exact ⟨by omega, by omega, hend (by omega)⟩
    | cons head before => exact hmore.last before other after (List.cons.inj heq).2 hother
  · rw [List.forall_mem_cons]
    exact ⟨⟨n, hfirst, hstop⟩, hmore.first⟩

namespace Lexer

theorem Yields.unique {lexer : Lexer α κ} {tokens tokens' : List (Token κ)} (h : lexer.Yields tokens)
    (h' : lexer.Yields tokens') : tokens = tokens' :=
  Except.ok.inj (h.symm.trans h')

theorem Yields.consecutive {lexer : Lexer α κ} {tokens : List (Token κ)} (h : lexer.Yields tokens) :
    Consecutive lexer.rules lexer.text lexer.index tokens := by
  induction tokens generalizing lexer with
  | nil => exact .nil lexer.rules lexer.text lexer.index
  | cons token tokens ih =>
    obtain ⟨hpeek, hrest⟩ := yields_cons_iff.mp h
    obtain ⟨hle, hstart, n, hfirst, hstop⟩ := peek?_eq_some hpeek
    have hmore : Consecutive lexer.rules lexer.text (lexer.advance token).index tokens := ih hrest
    rw [advance_index] at hmore
    rw [← hstart] at hle hfirst hstop hmore ⊢
    by_cases hend : token.start = lexer.text.length
    · -- past the end of the text there is no token
      have hnone : (lexer.advance token).Yields [] := by
        apply yields_nil_iff.mpr
        apply peek?_eq_none_iff.mpr
        left
        simp [advance, ← hstart, hend]
      obtain rfl := hrest.unique hnone
      exact .cons hle hfirst hstop (fun _ => rfl) (.nil _ _ _)
    · rw [if_neg hend] at hmore
      exact .cons hle hfirst hstop (fun h => (hend h).elim) hmore

theorem hasNext_of_yields {lexer : Lexer α κ} {tokens : List (Token κ)} (h : lexer.Yields tokens) :
    lexer.hasNext = .ok !tokens.isEmpty := by
  cases tokens with
  | nil => rw [hasNext, yields_nil_iff.mp h]; rfl
  | cons token tokens => rw [hasNext, (yields_cons_iff.mp h).1]; rfl

theorem next_of_yields_nil {lexer : Lexer α κ} (h : lexer.Yields []) : lexer.next = .error .noToken := by
  rw [next, yields_nil_iff.mp h]
  rfl

theorem next_of_yields_cons {lexer : Lexer α κ} {token : Token κ} {tokens : List (Token κ)}
    (h : lexer.Yields (token :: tokens)) : lexer.next = .ok (token, lexer.advance token) := by
  rw [next, (yields_cons_iff.mp h).1]
  rfl

end Lexer

namespace TokenStream

theorem hasNext_eq (stream : TokenStream α κ) : stream.hasNext.1 = stream.lexer.hasNext := by
  unfold hasNext Lexer.hasNext
  cases hscan : stream.scan with
  | error fault => rw [scan_eq_error hscan]; rfl
  | ok scanned => rw [(scan_eq_ok hscan).2.1]; rfl

theorem next_of_error {stream : TokenStream α κ} {fault : Fault} (h : stream.lexer.next = .error fault) :
    stream.next = (.error fault, stream) := by
  unfold next
  unfold Lexer.next at h
  cases hscan : stream.scan with
  | error fault' =>
    rw [scan_eq_error hscan] at h
    cases h
    rfl
  | ok scanned =>
    obtain ⟨-, hpeek, hsame⟩ := scan_eq_ok hscan
    rw [hpeek, Result.ok_bind] at h
    cases hahead : scanned.ahead with
    | none =>
      rw [hahead] at h
      cases h
      simp only [hahead]
      rw [hsame hahead]
    | some token =>
      rw [hahead] at h
      cases h

theorem next_of_ok {stream : TokenStream α κ} {token : Token κ} {after : Lexer α κ}
    (h : stream.lexer.next = .ok (token, after)) : stream.next = (.ok token, { lexer := after }) := by
  unfold next
  unfold Lexer.next at h
  cases hscan : stream.scan with
  | error fault =>
    rw [scan_eq_error hscan] at h
    cases h
  | ok scanned =>
    obtain ⟨hlexer, hpeek, -⟩ := scan_eq_ok hscan
    rw [hpeek, Result.ok_bind] at h
    cases hahead : scanned.ahead with
    | none =>
      rw [hahead] at h
      cases h
    | some token' =>
      rw [hahead] at h
      cases h
      simp only [hahead, hlexer]

/-- The tokens that an answer hands out; a fault hands out none. -/
def taken : Except Fault (Answer κ) → List (Token κ)
  | .error _ | .ok (.truth _) | .ok (.number _) => []
  | .ok (.token token) => [token]
  | .ok (.tokens tokens) => tokens

def handedOut (answers : List (Except Fault (Answer κ))) : List (Token κ) := answers.flatMap taken

theorem handedOut_cons (given : Except Fault (Answer κ)) (answers : List (Except Fault (Answer κ))) :
    handedOut (given :: answers) = taken given ++ handedOut answers :=
  List.flatMap_cons

def positionAfter (text : List α) (tokens : List (Token κ)) : Nat :=
  tokens.getLast?.elim 0 fun token =>
    if token.start = text.length then text.length + 1 else token.stop

/-- The stream has handed out the one part of the tokens and has the other part left. -/
structure Served (text : List α) (rules : List (Rule α κ)) (before left : List (Token κ))
    (stream : TokenStream α κ) : Prop where
  text_eq : stream.lexer.text = text
  rules_eq : stream.lexer.rules = rules
  index_eq : stream.index = positionAfter text before
  yields : stream.lexer.Yields left

namespace Served

variable {text : List α} {rules : List (Rule α κ)} {before left : List (Token κ)}
  {stream : TokenStream α κ}

theorem start (h : (TokenStream.start text rules).lexer.Yields left) :
    Served text rules [] left (.start text rules) :=
  ⟨rfl, rfl, rfl, h⟩

theorem hasNext (h : Served text rules before left stream) :
    Served text rules before left stream.hasNext.2 := by
  have hlexer := stream.lexer_hasNext
  refine ⟨?_, ?_, ?_, ?_⟩
  · rw [hlexer, h.text_eq]
  · rw [hlexer, h.rules_eq]
  · rw [index, hlexer, ← h.index_eq, index]
  · rw [hlexer]
    exact h.yields

theorem next_nil (h : Served text rules before [] stream) : stream.next = (.error .noToken, stream) :=
  next_of_error (Lexer.next_of_yields_nil h.yields)

theorem next_cons {token : Token κ} (h : Served text rules before (token :: left) stream) :
    stream.next.1 = .ok token ∧ Served text rules (before ++ [token]) left stream.next.2 := by
  obtain ⟨hpeek, hrest⟩ := Lexer.yields_cons_iff.mp h.yields
  obtain ⟨-, hstart, -⟩ := Lexer.peek?_spec hpeek
  rw [next_of_ok (Lexer.next_of_yields_cons h.yields)]
  refine ⟨rfl, h.text_eq, h.rules_eq, ?_, hrest⟩
  rw [index, Lexer.advance_index, h.text_eq, ← hstart, positionAfter, List.getLast?_concat]
  rfl

theorem collect (h : Served text rules before left stream) :
    stream.collect.1 = .ok left ∧ Served text rules (before ++ left) [] stream.collect.2 := by
  induction left generalizing before stream with
  | nil =>
    have hnone : stream.hasNext = (.ok false, stream.hasNext.2) :=
      Prod.ext (hasNext_eq stream ▸ Lexer.hasNext_of_yields h.yields) rfl
    rw [collect_of_false hnone, List.append_nil]
    exact ⟨rfl, h.hasNext⟩
  | cons token left ih =>
    have hsome : stream.hasNext = (.ok true, stream.hasNext.2) :=
      Prod.ext (hasNext_eq stream ▸ Lexer.hasNext_of_yields h.yields) rfl
    -- each token is looked at before it is taken
    obtain ⟨htoken, hafter⟩ := h.hasNext.next_cons
    obtain ⟨hrest, hend⟩ := ih hafter
    rw [collect_of_true hsome (Prod.ext htoken rfl), hrest]
    rw [List.append_assoc, List.singleton_append] at hend
    exact ⟨rfl, hend⟩

/-- One request moves tokens from those left to those handed out. -/
theorem answer (h : Served text rules before left stream) (request : Request) :
    ∃ rest, left = taken (stream.answer request).1 ++ rest ∧
      Served text rules (before ++ taken (stream.answer request).1) rest (stream.answer request).2 := by
  have hnone : Served text rules (before ++ []) left stream := by rwa [List.append_nil]
  cases request with
  | hasNext =>
    rw [TokenStream.answer, hasNext_eq, Lexer.hasNext_of_yields h.yields]
    exact ⟨left, rfl, hnone.hasNext⟩
  | next =>
    cases left with
    | nil =>
      rw [TokenStream.answer, h.next_nil]
      exact ⟨[], rfl, hnone⟩
    | cons token left =>
      obtain ⟨htoken, hafter⟩ := h.next_cons
      rw [TokenStream.answer, htoken]
      exact ⟨left, rfl, hafter⟩
  | collect =>
    obtain ⟨htokens, hafter⟩ := h.collect
    rw [TokenStream.answer, htokens]
    exact ⟨[], (List.append_nil left).symm, hafter⟩
  | index => exact ⟨left, rfl, hnone⟩
  | remaining => exact ⟨left, rfl, hnone⟩

theorem run (h : Served text rules before left stream) (requests : List Request) :
    ∃ rest, left = handedOut (stream.run requests).1 ++ rest ∧
      Served text rules (before ++ handedOut (stream.run requests).1) rest (stream.run requests).2 := by
  induction requests generalizing before left stream with
  | nil => exact ⟨left, rfl, by rwa [TokenStream.run, handedOut, List.flatMap_nil, List.append_nil]⟩
  | cons request requests ih =>
    obtain ⟨middle, hleft, hafter⟩ := h.answer request
    obtain ⟨rest, hmiddle, hend⟩ := ih hafter
    rw [run_cons, handedOut_cons]
    refine ⟨rest, ?_, ?_⟩
    · rw [hleft, hmiddle, List.append_assoc]
    · rwa [← List.append_assoc]

/-- Nothing is left past the end of the text, and nothing where no rule accepts. -/
theorem left_eq_nil_iff (h : Served text rules before left stream) : left = [] ↔
    text.length < stream.index ∨ Rule.AcceptNone rules (text.drop stream.index) := by
  rw [← h.text_eq, ← h.rules_eq, index, ← Lexer.peek?_eq_none_iff, ← Lexer.yields_nil_iff]
  constructor
  · intro hleft
    rw [← hleft]
    exact h.yields
  · intro hnil
    exact h.yields.unique hnil

theorem refuses_iff (h : Served text rules before left stream) :
    (∃ fault, stream.next.1 = .error fault) ↔ left = [] := by
  cases left with
  | nil => simp [h.next_nil]
  | cons token left => simp [h.next_cons.1]

/-- The stream stands past the end of the text exactly if the token there was taken. -/
theorem length_lt_index_iff (h : Served text rules before left stream)
    (hall : Consecutive rules text 0 (before ++ left)) :
    text.length < stream.index ↔ ∃ token ∈ before, token.start = text.length := by
  rw [h.index_eq, positionAfter]
  constructor
  · intro hlt
    rcases List.eq_nil_or_concat' before with rfl | ⟨init, last, rfl⟩
    · simp at hlt
    · refine ⟨last, by simp, ?_⟩
      by_contra hne
      obtain ⟨n, -, hstop⟩ := hall.first last (by simp)
      rw [List.getLast?_concat, Option.elim_some, if_neg hne] at hlt
      omega
  · rintro ⟨token, hmem, hstart⟩
    obtain ⟨init, rest, rfl⟩ := List.append_of_mem hmem
    -- no token follows the one at the end of the text, so it is the last one handed out
    obtain ⟨-, -, hrest⟩ := hall.last init token (rest ++ left) (by simp) hstart.ge
    obtain ⟨rfl, -⟩ := List.append_eq_nil_iff.mp hrest
    rw [List.getLast?_concat, Option.elim_some, if_pos hstart]
    omega

end Served

/-- One sequence of tokens is handed out, whatever is asked.  After any requests, a stream has handed out a first part of
it, stands where that ends, says whether there is more, hands out the next token and, asked for all, the rest.  It refuses
to hand out a token exactly if the one at the end of the text was taken or no rule accepts where it stands, and does not
change then; it stops at the end of the text or where no rule accepts. -/
theorem hands_out_one_sequence (rules : List (Rule α κ)) (text : List α) (h : Rule.Faultless rules text) :
    ∃ tokens, Consecutive rules text 0 tokens ∧ ∀ requests : List Request,
      let stream := ((start text rules).run requests).2
      let before := handedOut ((start text rules).run requests).1
      ∃ left, tokens = before ++ left ∧
        stream.index = positionAfter text before ∧ stream.remaining = text.length - stream.index ∧
        stream.hasNext.1 = .ok !left.isEmpty ∧
        (∀ token ∈ left.head?, stream.next.1 = .ok token) ∧
        ((∃ fault, stream.next.1 = .error fault) ↔
          (∃ token ∈ before, token.start = text.length) ∨
            Rule.AcceptNone rules (text.drop stream.index)) ∧
        (∀ fault, stream.next.1 = .error fault → fault = .noToken ∧ stream.next.2 = stream) ∧
        stream.collect.1 = .ok left ∧
        (stream.collect.2.remaining = 0 ∨
          Rule.AcceptNone rules (text.drop stream.collect.2.index)) := by
  obtain ⟨tokens, hyields⟩ := Lexer.exists_yields (start text rules).lexer h
  have hall : Consecutive rules text 0 tokens := hyields.consecutive
  refine ⟨tokens, hall, ?_⟩
  intro requests stream before
  obtain ⟨left, hleft, hserved⟩ := (Served.start hyields).run requests
  rw [List.nil_append] at hserved
  obtain ⟨hcollect, hend⟩ := hserved.collect
  refine ⟨left, hleft, hserved.index_eq, ?_, ?_, ?_, ?_, ?_, hcollect, ?_⟩
  · rw [remaining, Lexer.remaining, hserved.text_eq]
    rfl
  · rw [hasNext_eq, Lexer.hasNext_of_yields hserved.yields]
  · intro token htoken
    obtain ⟨rest, rfl⟩ := List.head?_eq_some_iff.mp htoken
    exact hserved.next_cons.1
  · rw [hserved.refuses_iff, hserved.left_eq_nil_iff, hserved.length_lt_index_iff (hleft ▸ hall)]
  · intro fault hfault
    obtain rfl := hserved.refuses_iff.mp ⟨fault, hfault⟩
    rw [hserved.next_nil] at hfault ⊢
    exact ⟨(Except.error.inj hfault).symm, rfl⟩
  · rcases hend.left_eq_nil_iff.mp rfl with hlt | hnone
    · left
      rw [remaining, Lexer.remaining, hend.text_eq]
      exact Nat.sub_eq_zero_of_le hlt.le
    · right
      exact hnone

/-- A rule that asks for the end of the text accepts one character more than there is.  Its token is cut at the end of the
text, and one more token stands there. -/
theorem hands_out_one_sequence_cutAtEnd :
    let rules : List (Rule Char Nat) :=
      [⟨.many (.unit ['a']), 1⟩, ⟨.sequence [.unit ['b'], .endOfText], 2⟩, ⟨.endOfText, 0⟩]
    let text := "aab".toList
    let asked := (start text rules).run [.hasNext, .next, .hasNext, .collect]
    Rule.Faultless rules text ∧ handedOut asked.1 = [⟨1, 0, 2⟩, ⟨2, 2, 3⟩, ⟨0, 3, 3⟩] ∧
      asked.2.next.1 = .error .noToken ∧ asked.2.next.2 = asked.2 := by
  intro rules text asked
  have hscans : ∀ rule ∈ rules, ∀ cs ∈ text.tails, (rule.scanner.scan cs).toOption.isSome = true := by
    decide +kernel
  have hfaultless : Rule.Faultless rules text := by
    intro rule hrule cs hcs
    have hscan := hscans rule hrule cs ((List.mem_tails _ _).mpr hcs)
    cases hn : rule.scanner.scan cs with
    | error fault => simp [hn, Except.toOption] at hscan
    | ok n => exact ⟨n, rfl⟩
  have hgiven : handedOut asked.1 = [⟨1, 0, 2⟩, ⟨2, 2, 3⟩, ⟨0, 3, 3⟩] := by decide +kernel
  obtain ⟨tokens, -, hrequests⟩ := hands_out_one_sequence rules text hfaultless
  obtain ⟨left, -, -, -, -, -, hrefuses, hsame, -⟩ := hrequests [.hasNext, .next, .hasNext, .collect]
  obtain ⟨fault, hfault⟩ := hrefuses.mpr (.inl ⟨⟨0, 3, 3⟩, by rw [hgiven]; simp, rfl⟩)
  obtain ⟨rfl, hunchanged⟩ := hsame fault hfault
  exact ⟨hfaultless, hgiven, hfault, hunchanged⟩

end TokenStream
end TileSelect
