/-! # Splitting text

A text cut at every occurrence of a character.  There is always one part more than there are occurrences. -/
namespace TileSelect.Text

def splitAt (separator : Char) : List Char → List (List Char)
  | [] => [[]]
  | c :: cs =>
    if c = separator then [] :: splitAt separator cs
    else
      match splitAt separator cs with
      | [] => [[c]]
      | part :: parts => (c :: part) :: parts

def joinWith (separator : Char) : List (List Char) → List Char
  | [] => []
  | [part] => part
  | part :: next :: parts => part ++ separator :: joinWith separator (next :: parts)

theorem splitAt_ne_nil (separator : Char) (cs : List Char) : splitAt separator cs ≠ [] := by
  cases cs with
  | nil => simp [splitAt]
  | cons c cs =>
    simp only [splitAt]
    split
    · simp
    · split <;> simp

/-- Joining undoes splitting. -/
theorem joinWith_splitAt (separator : Char) (cs : List Char) :
    joinWith separator (splitAt separator cs) = cs := by
  induction cs with
  | nil => rfl
  | cons c cs ih =>
    have hne := splitAt_ne_nil separator cs
    simp only [splitAt]
    match hparts : splitAt separator cs with
    | [] => exact absurd hparts hne
    | [part] =>
      rw [hparts] at ih
      simp only [joinWith] at ih
      split
      · next h => simp [joinWith, ih, h]
      · simp [joinWith, ih]
    | part :: next :: parts =>
      rw [hparts] at ih
      simp only [joinWith] at ih
      split
      · next h => simp [joinWith, ih, h]
      · simp [joinWith, ih]

theorem splitAt_of_notMem {separator : Char} {cs : List Char} (h : separator ∉ cs) :
    splitAt separator cs = [cs] := by
  induction cs with
  | nil => rfl
  | cons c cs ih =>
    obtain ⟨hc, hcs⟩ := not_or.mp (mt List.mem_cons.mpr h)
    rw [splitAt, if_neg (Ne.symm hc), ih hcs]

theorem splitAt_append_cons {separator : Char} {part : List Char} (h : separator ∉ part) (rest : List Char) :
    splitAt separator (part ++ separator :: rest) = part :: splitAt separator rest := by
  induction part with
  | nil => rw [List.nil_append, splitAt, if_pos rfl]
  | cons c part ih =>
    obtain ⟨hc, hpart⟩ := not_or.mp (mt List.mem_cons.mpr h)
    rw [List.cons_append, splitAt, if_neg (Ne.symm hc), ih hpart]

/-- There is one part exactly if there is no separator. -/
theorem splitAt_eq_singleton_iff {separator : Char} {cs part : List Char} :
    splitAt separator cs = [part] ↔ separator ∉ cs ∧ part = cs := by
  constructor
  · intro h
    by_cases hmem : separator ∈ cs
    · obtain ⟨front, rest, rfl, hfront⟩ := List.eq_append_cons_of_mem hmem
      rw [splitAt_append_cons hfront] at h
      exact absurd (List.cons.inj h).2 (splitAt_ne_nil separator rest)
    · rw [splitAt_of_notMem hmem] at h
      exact ⟨hmem, (List.cons.inj h).1.symm⟩
  · rintro ⟨hmem, rfl⟩
    exact splitAt_of_notMem hmem

/-- The first of several parts reaches up to the first separator. -/
theorem splitAt_eq_cons_cons_iff {separator : Char} {cs part next : List Char} {parts : List (List Char)} :
    splitAt separator cs = part :: next :: parts ↔ ∃ rest, separator ∉ part ∧ cs = part ++ separator :: rest ∧
      splitAt separator rest = next :: parts := by
  constructor
  · intro h
    have hmem : separator ∈ cs := by
      apply Decidable.byContradiction
      intro hmem
      rw [splitAt_of_notMem hmem] at h
      cases h
    obtain ⟨front, rest, rfl, hfront⟩ := List.eq_append_cons_of_mem hmem
    rw [splitAt_append_cons hfront] at h
    obtain ⟨rfl, hrest⟩ := List.cons.inj h
    exact ⟨rest, hfront, rfl, hrest⟩
  · rintro ⟨rest, hpart, rfl, hrest⟩
    rw [splitAt_append_cons hpart, hrest]

end TileSelect.Text
