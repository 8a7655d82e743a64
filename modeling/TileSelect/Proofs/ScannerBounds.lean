import Mathlib.Logic.Function.Iterate
import TileSelect.Proofs.ResultSequences
import TileSelect.Scanner

/-! # How far scanners reach

The end of a text is the one thing that a scanner accepts past the last item.  Without it every length that a
scanner answers lies in the text, so that the parts of a sequence are always tried at a position of the text.  With it
an answer may be one too long, but never more: a sequence that goes on from there meets a fault, and a repetition stops.
Each way of putting scanners together keeps these bounds, whatever the parts are. -/
namespace TileSelect.Scanner

variable {α : Type}

/-- The scanner does not ask for the end of the text. -/
inductive EndFree : Scanner α → Prop where
  | unit (items : List α) : EndFree (.unit items)
  | within (low high : α) : EndFree (.within low high)
  | upTo (stop : α) : EndFree (.upTo stop)
  | many {part : Scanner α} (h : EndFree part) : EndFree (.many part)
  | every {parts : List (Scanner α)} (h : ∀ part ∈ parts, EndFree part) : EndFree (.every parts)
  | either {parts : List (Scanner α)} (h : ∀ part ∈ parts, EndFree part) : EndFree (.either parts)
  | sequence {parts : List (Scanner α)} (h : ∀ part ∈ parts, EndFree part) : EndFree (.sequence parts)

/-- No answer reaches further than `excess` items past the end of the text. -/
def Bounded (scan : List α → Except Fault Nat) (excess : Nat) : Prop :=
  ∀ cs n, scan cs = .ok n → n ≤ cs.length + excess

def Faultless (scan : List α → Except Fault Nat) : Prop :=
  ∀ cs, ∃ n, scan cs = .ok n

theorem Bounded.mono {scan : List α → Except Fault Nat} {excess more : Nat} (h : Bounded scan excess)
    (hle : excess ≤ more) : Bounded scan more := by
  intro cs n hn
  have := h cs n hn
  omega

theorem length_le_of_isPrefixOf [BEq α] {items cs : List α} (h : items.isPrefixOf cs = true) :
    items.length ≤ cs.length := by
  induction items generalizing cs with
  | nil => exact Nat.zero_le _
  | cons item items ih =>
    cases cs with
    | nil => cases h
    | cons c cs =>
      rw [List.isPrefixOf_cons_cons, Bool.and_eq_true] at h
      simpa using ih h.2

section Repetitions

variable {scan : List α → Except Fault Nat}

theorem repeated_of_error {c : α} {rest : List α} {fault : Fault} (h : scan (c :: rest) = .error fault) :
    repeated scan (c :: rest) = .error fault := by
  rw [repeated, h]

theorem repeated_of_zero {c : α} {rest : List α} (h : scan (c :: rest) = .ok 0) :
    repeated scan (c :: rest) = .ok 0 := by
  rw [repeated, h]

theorem repeated_of_succ {c : α} {rest : List α} {n : Nat} (h : scan (c :: rest) = .ok (n + 1)) :
    repeated scan (c :: rest) = (repeated scan (rest.drop n)).map (n + 1 + ·) := by
  rw [repeated, h]
  cases hrest : repeated scan (rest.drop n) <;> simp [hrest, Except.map]

theorem Bounded.repeated {excess : Nat} (h : Bounded scan excess) : Bounded (repeated scan) excess := by
  intro cs
  fun_induction Scanner.repeated scan cs with
  | case1 =>
    intro n hn
    obtain rfl := Except.ok.inj hn
    exact Nat.zero_le _
  | case2 => nofun
  | case3 =>
    intro n hn
    obtain rfl := Except.ok.inj hn
    exact Nat.zero_le _
  | case4 => nofun
  | case5 c rest n hscan m hrest ih =>
    intro k hk
    obtain rfl := Except.ok.inj hk
    have hfirst := h _ _ hscan
    have hmore := ih m hrest
    rw [List.length_cons] at hfirst ⊢
    rw [List.length_drop] at hmore
    -- once the text is used up nothing more is scanned, so the excess is not counted twice
    by_cases hused : rest.length ≤ n
    · rw [List.drop_eq_nil_of_le hused, Scanner.repeated] at hrest
      obtain rfl := Except.ok.inj hrest
      omega
    · omega

theorem Faultless.repeated (h : Faultless scan) : Faultless (repeated scan) := by
  intro cs
  fun_induction Scanner.repeated scan cs with
  | case1 => exact ⟨0, rfl⟩
  | case2 c rest fault hscan =>
    obtain ⟨n, hn⟩ := h (c :: rest)
    rw [hscan] at hn
    cases hn
  | case3 => exact ⟨0, rfl⟩
  | case4 c rest n hscan fault hrest ih =>
    obtain ⟨m, hm⟩ := ih
    rw [hrest] at hm
    cases hm
  | case5 c rest n hscan m hrest ih => exact ⟨n + 1 + m, rfl⟩

end Repetitions

/-- Where a repetition stands: at a position from which it is to go on, or at its end, with the answer. -/
inductive Repetition where
  | going (position : Nat)
  | done (answer : Except Fault Nat)

/-- One round of a repetition.  The text is looked at from the position on only while that lies before its end. -/
def Repetition.round (scan : List α → Except Fault Nat) (cs : List α) : Repetition → Repetition
  | done answer => done answer
  | going position =>
    if position < cs.length then
      match scan (cs.drop position) with
      | .error fault => done (.error fault)
      | .ok 0 => done (.ok position)
      | .ok (n + 1) => going (position + (n + 1))
    else done (.ok position)

section Rounds

variable (scan : List α → Except Fault Nat) (cs : List α)

theorem rounds_done (answer : Except Fault Nat) (k : Nat) :
    (Repetition.round scan cs)^[k] (.done answer) = .done answer :=
  Function.iterate_fixed rfl k

theorem rounds_past {position : Nat} (h : cs.length ≤ position) (k : Nat) :
    (Repetition.round scan cs)^[k + 1] (.going position) =
      .done ((repeated scan (cs.drop position)).map (position + ·)) := by
  have hround : Repetition.round scan cs (.going position) = .done (.ok position) := by
    rw [Repetition.round, if_neg (by omega)]
  rw [Function.iterate_succ_apply, hround, rounds_done, List.drop_eq_nil_of_le h, repeated]
  rfl

/-- A repetition comes to its answer, since each round but the last moves it on. -/
theorem rounds_going {position k : Nat} (h : cs.length ≤ position + k) :
    (Repetition.round scan cs)^[k + 1] (.going position) =
      .done ((repeated scan (cs.drop position)).map (position + ·)) := by
  induction k generalizing position with
  | zero => exact rounds_past scan cs h 0
  | succ k ih =>
    by_cases hlt : position < cs.length
    · rw [Function.iterate_succ_apply, Repetition.round, if_pos hlt, List.drop_eq_getElem_cons hlt]
      cases hscan : scan (cs[position] :: cs.drop (position + 1)) with
      | error fault =>
        rw [repeated_of_error hscan]
        exact rounds_done scan cs _ _
      | ok n =>
        cases n with
        | zero =>
          rw [repeated_of_zero hscan]
          exact rounds_done scan cs _ _
        | succ n =>
          have hrest : (cs.drop (position + 1)).drop n = cs.drop (position + (n + 1)) := by
            rw [List.drop_drop]
            congr 1
            omega
          have hmoved : cs.length ≤ position + (n + 1) + k := by omega
          rw [repeated_of_succ hscan, hrest]
          apply (ih hmoved).trans
          cases repeated scan (cs.drop (position + (n + 1))) with
          | error fault => rfl
          | ok m => simp [Except.map, Nat.add_assoc]
    · exact rounds_past scan cs (by omega) (k + 1)

end Rounds

variable [BEq α] [LE α] [DecidableLE α]

theorem scanEvery_le {parts : List (Scanner α)} {excess : Nat} (h : ∀ part ∈ parts, Bounded part.scan excess)
    {cs : List α} {longest n : Nat} (hlongest : longest ≤ cs.length + excess)
    (hn : scanEvery parts cs longest = .ok n) : n ≤ cs.length + excess := by
  induction parts generalizing longest with
  | nil =>
    obtain rfl := Except.ok.inj hn
    exact hlongest
  | cons part parts ih =>
    obtain ⟨hpart, hparts⟩ := List.forall_mem_cons.mp h
    obtain ⟨m, hm, hrest⟩ := Result.bind_eq_ok_iff.mp hn
    split at hrest
    · obtain rfl := Except.ok.inj hrest
      exact Nat.zero_le _
    · exact ih hparts (Nat.max_le.mpr ⟨hlongest, hpart cs m hm⟩) hrest

theorem bounded_every {parts : List (Scanner α)} {excess : Nat} (h : ∀ part ∈ parts, Bounded part.scan excess) :
    Bounded (every parts).scan excess := by
  intro cs n hn
  rw [scan_every] at hn
  exact scanEvery_le h (Nat.zero_le _) hn

theorem bounded_either {parts : List (Scanner α)} {excess : Nat} (h : ∀ part ∈ parts, Bounded part.scan excess) :
    Bounded (either parts).scan excess := by
  intro cs n hn
  rw [scan_either] at hn
  induction parts with
  | nil =>
    obtain rfl := Except.ok.inj hn
    exact Nat.zero_le _
  | cons part parts ih =>
    obtain ⟨hpart, hparts⟩ := List.forall_mem_cons.mp h
    obtain ⟨m, hm, hrest⟩ := Result.bind_eq_ok_iff.mp hn
    split at hrest
    · exact ih hparts hrest
    · obtain rfl := Except.ok.inj hrest
      exact hpart cs m hm

theorem exists_scanEvery {parts : List (Scanner α)} (h : ∀ part ∈ parts, Faultless part.scan) (cs : List α)
    (longest : Nat) : ∃ n, scanEvery parts cs longest = .ok n := by
  induction parts generalizing longest with
  | nil => exact ⟨longest, rfl⟩
  | cons part parts ih =>
    obtain ⟨hpart, hparts⟩ := List.forall_mem_cons.mp h
    obtain ⟨m, hm⟩ := hpart cs
    rw [scanEvery_cons, hm, Result.ok_bind]
    split
    · exact ⟨0, rfl⟩
    · exact ih hparts _

theorem exists_scanEither {parts : List (Scanner α)} (h : ∀ part ∈ parts, Faultless part.scan) (cs : List α) :
    ∃ n, scanEither parts cs = .ok n := by
  induction parts with
  | nil => exact ⟨0, rfl⟩
  | cons part parts ih =>
    obtain ⟨hpart, hparts⟩ := List.forall_mem_cons.mp h
    obtain ⟨m, hm⟩ := hpart cs
    rw [scanEither_cons, hm, Result.ok_bind]
    split
    · exact ih hparts
    · exact ⟨m, rfl⟩

/-- A part is tried only at a position of the text, so its excess is counted from the end of the text. -/
theorem scanSequence_le {parts : List (Scanner α)} {excess : Nat} (h : ∀ part ∈ parts, Bounded part.scan excess)
    {cs : List α} {used n : Nat} (hused : used ≤ cs.length + excess)
    (hn : scanSequence parts cs used = .ok n) : n ≤ cs.length + excess := by
  induction parts generalizing used with
  | nil =>
    obtain rfl := Except.ok.inj hn
    exact hused
  | cons part parts ih =>
    obtain ⟨hpart, hparts⟩ := List.forall_mem_cons.mp h
    rw [scanSequence_cons] at hn
    split at hn
    · cases hn
    · next hinside =>
      obtain ⟨m, hm, hrest⟩ := Result.bind_eq_ok_iff.mp hn
      split at hrest
      · obtain rfl := Except.ok.inj hrest
        exact Nat.zero_le _
      · have hnext := hpart _ _ hm
        rw [List.length_drop] at hnext
        exact ih hparts (by omega) hrest

theorem bounded_sequence {parts : List (Scanner α)} {excess : Nat} (h : ∀ part ∈ parts, Bounded part.scan excess) :
    Bounded (sequence parts).scan excess := by
  intro cs n hn
  rw [scan_sequence] at hn
  exact scanSequence_le h (Nat.zero_le _) hn

/-- If no part reaches past its text, the next part has a position of the text to start from. -/
theorem exists_scanSequence {parts : List (Scanner α)} (hbounded : ∀ part ∈ parts, Bounded part.scan 0)
    (hfaultless : ∀ part ∈ parts, Faultless part.scan) {cs : List α} {used : Nat} (hused : used ≤ cs.length) :
    ∃ n, scanSequence parts cs used = .ok n := by
  induction parts generalizing used with
  | nil => exact ⟨used, rfl⟩
  | cons part parts ih =>
    obtain ⟨hpart, hparts⟩ := List.forall_mem_cons.mp hbounded
    obtain ⟨hanswers, hfaultless⟩ := List.forall_mem_cons.mp hfaultless
    obtain ⟨m, hm⟩ := hanswers (cs.drop used)
    rw [scanSequence_cons, if_neg (by omega), hm, Result.ok_bind]
    split
    · exact ⟨0, rfl⟩
    · have hnext := hpart _ _ hm
      rw [List.length_drop] at hnext
      exact ih hparts hfaultless (by omega)

theorem bounded_unit (items : List α) : Bounded (unit items).scan 0 := by
  intro cs n hn
  rw [scan_unit] at hn
  obtain rfl := Except.ok.inj hn
  split
  · next h => exact length_le_of_isPrefixOf h
  · exact Nat.zero_le _

theorem bounded_within (low high : α) : Bounded (within low high).scan 0 := by
  intro cs n hn
  cases cs with
  | nil =>
    simp only [scan_within_nil, Except.ok.injEq] at hn
    omega
  | cons c cs =>
    simp only [scan_within_cons, Except.ok.injEq] at hn
    rw [List.length_cons]
    split at hn <;> omega

theorem bounded_upTo (stop : α) : Bounded (upTo stop).scan 0 := by
  intro cs n hn
  rw [scan_upTo] at hn
  obtain rfl := Except.ok.inj hn
  exact (List.takeWhile_prefix _).length_le

theorem bounded_endOfText : Bounded (endOfText : Scanner α).scan 1 := by
  intro cs n hn
  rw [scan_endOfText] at hn
  obtain rfl := Except.ok.inj hn
  split <;> omega

theorem bounded_many {part : Scanner α} {excess : Nat} (h : Bounded part.scan excess) :
    Bounded (many part).scan excess := by
  intro cs n hn
  rw [scan_many] at hn
  exact h.repeated cs n hn

theorem bounded_scan (scanner : Scanner α) : Bounded scanner.scan 1 := by
  match scanner with
  | .unit items => exact (bounded_unit items).mono (Nat.zero_le 1)
  | .within low high => exact (bounded_within low high).mono (Nat.zero_le 1)
  | .upTo stop => exact (bounded_upTo stop).mono (Nat.zero_le 1)
  | .endOfText => exact bounded_endOfText
  | .many part => exact bounded_many (bounded_scan part)
  | .every parts => exact bounded_every fun part _ => bounded_scan part
  | .either parts => exact bounded_either fun part _ => bounded_scan part
  | .sequence parts => exact bounded_sequence fun part _ => bounded_scan part

theorem EndFree.bounded {scanner : Scanner α} (h : scanner.EndFree) : Bounded scanner.scan 0 := by
  induction h with
  | unit items => exact bounded_unit items
  | within low high => exact bounded_within low high
  | upTo stop => exact bounded_upTo stop
  | many _ ih => exact bounded_many ih
  | every _ ih => exact bounded_every ih
  | either _ ih => exact bounded_either ih
  | sequence _ ih => exact bounded_sequence ih

theorem EndFree.faultless {scanner : Scanner α} (h : scanner.EndFree) : Faultless scanner.scan := by
  intro cs
  induction h generalizing cs with
  | unit items => exact ⟨_, scan_unit items cs⟩
  | within low high =>
    cases cs with
    | nil => exact ⟨0, scan_within_nil low high⟩
    | cons c cs => exact ⟨_, scan_within_cons low high c cs⟩
  | upTo stop => exact ⟨_, scan_upTo stop cs⟩
  | many _ ih =>
    rw [scan_many]
    exact Faultless.repeated ih cs
  | every _ ih =>
    rw [scan_every]
    exact exists_scanEvery ih cs 0
  | either _ ih =>
    rw [scan_either]
    exact exists_scanEither ih cs
  | sequence hparts ih =>
    rw [scan_sequence]
    exact exists_scanSequence (fun part hpart => (hparts part hpart).bounded) ih (Nat.zero_le _)

/-- A scanner that does not ask for the end of the text answers every text, with a length in it.  An answer of any
scanner is at most one longer than the text.  And every scanner can be repeated: after one round more than the text has
items the repetition has come to its answer. -/
theorem scan_stays_within (scanner : Scanner α) (cs : List α) :
    (scanner.EndFree → ∃ n, scanner.scan cs = .ok n ∧ n ≤ cs.length) ∧
      (∀ n, scanner.scan cs = .ok n → n ≤ cs.length + 1) ∧
      (Repetition.round scanner.scan cs)^[cs.length + 1] (.going 0) = .done ((many scanner).scan cs) := by
  refine ⟨fun hfree => ?_, bounded_scan scanner cs, ?_⟩
  · obtain ⟨n, hn⟩ := hfree.faultless cs
    exact ⟨n, hn, hfree.bounded cs n hn⟩
  · rw [rounds_going scanner.scan cs (Nat.le_add_left _ _), scan_many, List.drop_zero]
    cases repeated scanner.scan cs <;> simp [Except.map]

/-- Pairs of letters and hyphens stay in the text.  With the end of the text asked for behind them, one character more
is accepted than there is; a repetition goes no further from there, and a sequence cannot go on. -/
theorem scan_stays_within_pairsAtEnd :
    let pairs : Scanner Char := .many (.either [.unit ['-'], .sequence [.within 'a' 'z', .within 'a' 'z']])
    let last : Scanner Char := .sequence [pairs, .endOfText]
    pairs.EndFree ∧ (∃ n, pairs.scan ['a', 'b', '-', 'c'] = .ok n ∧ n ≤ 4) ∧
      last.scan ['a', 'b', '-'] = .ok 4 ∧ 4 ≤ ['a', 'b', '-'].length + 1 ∧
      (Repetition.round last.scan ['a', 'b', '-'])^[4] (.going 0) = .done (.ok 4) ∧
      (sequence [last, .endOfText]).scan ['a', 'b', '-'] = .error .outOfRange := by
  intro pairs last
  have hpair : EndFree (.sequence [.within 'a' 'z', .within 'a' 'z']) :=
    .sequence (by simp [EndFree.within])
  have hfree : pairs.EndFree := .many (.either (by simp [EndFree.unit, hpair]))
  have hlast : last.scan ['a', 'b', '-'] = .ok 4 := by cbv
  have hrepeated : (many last).scan ['a', 'b', '-'] = .ok 4 := by cbv
  obtain ⟨hinside, -, -⟩ := scan_stays_within pairs ['a', 'b', '-', 'c']
  obtain ⟨-, hreach, hrounds⟩ := scan_stays_within last ['a', 'b', '-']
  exact ⟨hfree, hinside hfree, hlast, hreach 4 hlast, hrepeated ▸ hrounds, by cbv⟩

end TileSelect.Scanner
