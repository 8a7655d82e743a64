import Mathlib.Data.Nat.Digits.Defs
import TileSelect.Text.Decimal
import TileSelect.Proofs.ResultSequences

/-! # Numbers written and read back

The decimal text of a number is read as the number, or as too large if it is past the limit: digits are taken from
the left, so the value so far never decreases and the limit is passed at the latest with the last digit.  Of all
texts, the numerals of numbers within the limit are read, leading zeros or not. -/
namespace TileSelect.Text

theorem digit?_digitChar {d : Nat} (h : d < 10) : digit? (Nat.digitChar d) = some d := by
  have hall : ∀ d < 10, digit? (Nat.digitChar d) = some d := by decide
  exact hall d h

theorem continueNumeral_append (limit n : Nat) (front back : List Char) :
    continueNumeral limit n (front ++ back) =
      continueNumeral limit n front >>= fun m => continueNumeral limit m back := by
  induction front generalizing n with
  | nil => rfl
  | cons c front ih =>
    rw [List.cons_append, continueNumeral, continueNumeral]
    cases digit? c with
    | none => rfl
    | some d =>
      by_cases hlimit : limit < n * 10 + d
      · simp only [if_pos hlimit]
        rfl
      · simp only [if_neg hlimit]
        exact ih (n * 10 + d)

/-- One digit more. -/
theorem continueNumeral_digitChar {limit n d : Nat} (h : d < 10) :
    continueNumeral limit n [Nat.digitChar d] =
      if n * 10 + d ≤ limit then .ok (n * 10 + d) else .error .tooLarge := by
  rw [continueNumeral, digit?_digitChar h]
  by_cases hlimit : n * 10 + d ≤ limit
  · rw [if_pos hlimit]
    exact if_neg (Nat.not_lt.mpr hlimit)
  · rw [if_neg hlimit]
    exact if_pos (Nat.lt_of_not_le hlimit)

theorem continueNumeral_toDigits (limit n : Nat) :
    continueNumeral limit 0 (Nat.toDigits 10 n) = if n ≤ limit then .ok n else .error .tooLarge := by
  -- the last digit stands behind the numeral of a tenth of the number
  induction n using Nat.strongRecOn with
  | ind n ih =>
    by_cases hsmall : n < 10
    · rw [Nat.toDigits_of_lt_base hsmall, continueNumeral_digitChar hsmall, Nat.zero_mul, Nat.zero_add]
    · have hdigit : n % 10 < 10 := Nat.mod_lt n (by decide)
      have hvalue : n / 10 * 10 + n % 10 = n := Nat.div_add_mod' n 10
      have hfront : 0 < n / 10 := by omega
      have hdigits := Nat.toDigits_append_toDigits (b := 10) (by decide) hfront hdigit
      rw [Nat.mul_comm, hvalue, Nat.toDigits_of_lt_base hdigit] at hdigits
      rw [← hdigits, continueNumeral_append, ih (n / 10) (by omega)]
      by_cases hlimit : n / 10 ≤ limit
      · rw [if_pos hlimit, Result.ok_bind, continueNumeral_digitChar hdigit, hvalue]
      · rw [if_neg hlimit, if_neg (by omega)]
        rfl

/-- The text of a number is read as the number if it is within the limit. -/
theorem readUnsigned_toString (limit n : Nat) :
    readUnsigned limit (toString n) = if n ≤ limit then .ok n else .error .tooLarge := by
  have htext : (toString n).toList = Nat.toDigits 10 n := Nat.toList_repr
  rw [readUnsigned, htext, ← continueNumeral_toDigits]
  obtain ⟨c, cs, hdigits⟩ := List.exists_cons_of_ne_nil (@Nat.toDigits_ne_nil n 10)
  rw [hdigits, readDigits]

/-- Is the text a decimal numeral for the number: digits, the first of the highest rank? -/
def Numeral (cs : List Char) (n : Nat) : Prop :=
  ∃ digits : List Nat, digits ≠ [] ∧ (∀ d ∈ digits, d < 10) ∧ cs = digits.map Nat.digitChar ∧
    n = Nat.ofDigits 10 digits.reverse

theorem digit?_eq_some_iff {c : Char} {d : Nat} :
    digit? c = some d ↔ d < 10 ∧ c = Nat.digitChar d := by
  constructor
  · intro h
    unfold digit? at h
    split at h
    · next hc =>
      obtain rfl := Option.some.inj h
      have hchar : ∀ d < 10, (Nat.digitChar d).toNat = d + 48 := by decide
      refine ⟨by omega, Char.toNat_inj.mp ?_⟩
      rw [hchar _ (by omega)]
      omega
    · cases h
  · rintro ⟨hd, rfl⟩
    exact digit?_digitChar hd

theorem le_foldl_digits (n : Nat) (digits : List Nat) : n ≤ digits.foldl (fun n d => n * 10 + d) n := by
  induction digits generalizing n with
  | nil => exact Nat.le_refl n
  | cons d digits ih => exact Nat.le_trans (by omega) (ih (n * 10 + d))

/-- Digits continue a numeral by their value, as long as it stays within the limit. -/
theorem continueNumeral_eq_ok_iff {limit n m : Nat} {cs : List Char} (hn : n ≤ limit) :
    continueNumeral limit n cs = .ok m ↔ ∃ digits : List Nat, (∀ d ∈ digits, d < 10) ∧
      cs = digits.map Nat.digitChar ∧ m = digits.foldl (fun n d => n * 10 + d) n ∧ m ≤ limit := by
  induction cs generalizing n with
  | nil =>
    constructor
    · intro h
      obtain rfl := Except.ok.inj h
      exact ⟨[], by simp, rfl, rfl, hn⟩
    · rintro ⟨digits, -, hdigits, rfl, -⟩
      rw [List.map_eq_nil_iff.mp hdigits.symm]
      rfl
  | cons c cs ih =>
    rw [continueNumeral]
    constructor
    · intro h
      split at h
      · cases h
      · next d hd =>
        obtain ⟨hsmall, rfl⟩ := digit?_eq_some_iff.mp hd
        split at h
        · cases h
        · next hlimit =>
          obtain ⟨digits, hdigits, rfl, hm, hle⟩ := (ih (Nat.le_of_not_lt hlimit)).mp h
          exact ⟨d :: digits, List.forall_mem_cons.mpr ⟨hsmall, hdigits⟩, rfl, hm, hle⟩
    · rintro ⟨digits, hdigits, hcs, rfl, hle⟩
      obtain ⟨d, digits, rfl, rfl, rfl⟩ := List.map_eq_cons_iff.mp hcs.symm
      obtain ⟨hsmall, hdigits⟩ := List.forall_mem_cons.mp hdigits
      have hlimit : n * 10 + d ≤ limit := Nat.le_trans (le_foldl_digits _ digits) hle
      rw [digit?_digitChar hsmall]
      simp only [if_neg (Nat.not_lt.mpr hlimit)]
      exact (ih hlimit).mpr ⟨digits, hdigits, rfl, rfl, hle⟩

theorem foldl_digits_eq_ofDigits (digits : List Nat) :
    digits.foldl (fun n d => n * 10 + d) 0 = Nat.ofDigits 10 digits.reverse := by
  rw [Nat.ofDigits_eq_foldr, List.foldr_reverse]
  simp only [Nat.cast_id, Nat.mul_comm 10, Nat.add_comm]

/-- The texts that are read are the numerals of the numbers within the limit. -/
theorem readUnsigned_eq_ok_iff {limit n : Nat} {text : String} :
    readUnsigned limit text = .ok n ↔ Numeral text.toList n ∧ n ≤ limit := by
  rw [readUnsigned]
  have hread : readDigits limit text.toList = .ok n ↔
      text.toList ≠ [] ∧ continueNumeral limit 0 text.toList = .ok n := by
    cases text.toList with
    | nil => simp
    | cons c cs => simp [readDigits]
  rw [hread, continueNumeral_eq_ok_iff (Nat.zero_le limit)]
  constructor
  · rintro ⟨hne, digits, hdigits, htext, rfl, hle⟩
    refine ⟨⟨digits, ?_, hdigits, htext, foldl_digits_eq_ofDigits digits⟩, hle⟩
    rintro rfl
    exact hne htext
  · rintro ⟨⟨digits, hne, hdigits, htext, rfl⟩, hle⟩
    refine ⟨?_, digits, hdigits, htext, (foldl_digits_eq_ofDigits digits).symm, hle⟩
    rw [htext]
    exact fun hnil => hne (List.map_eq_nil_iff.mp hnil)

/-- Is the text a decimal numeral for the integer, with or without a sign? -/
def SignedNumeral (cs : List Char) (z : Int) : Prop :=
  ∃ n : Nat, (Numeral cs n ∧ z = n) ∨ (∃ digits, cs = '+' :: digits ∧ Numeral digits n ∧ z = n) ∨
    ∃ digits, cs = '-' :: digits ∧ Numeral digits n ∧ z = -n

theorem readDigits_eq_ok_iff {limit n : Nat} {cs : List Char} :
    readDigits limit cs = .ok n ↔ Numeral cs n ∧ n ≤ limit := by
  have hread := @readUnsigned_eq_ok_iff limit n (String.ofList cs)
  rwa [readUnsigned, String.toList_ofList] at hread

theorem notMem_of_numeral {cs : List Char} {n : Nat} (h : Numeral cs n) {c : Char}
    (hc : ∀ d < 10, Nat.digitChar d ≠ c) : c ∉ cs := by
  obtain ⟨digits, -, hdigits, rfl, -⟩ := h
  intro hmem
  obtain ⟨d, hd, rfl⟩ := List.mem_map.mp hmem
  exact hc d (hdigits d hd) rfl

/-- A numeral that is given a meaning if it is not too large. -/
theorem readDigits_bind_eq_ok_iff {cs : List Char} {z : Int} {value : Nat → Int} {tooLarge : Nat → Prop}
    [DecidablePred tooLarge] (hlimit : ∀ n, ¬tooLarge n → n ≤ maxUnsigned64) :
    (readDigits maxUnsigned64 cs >>= fun n => if tooLarge n then .error .tooLarge else .ok (value n)) = .ok z ↔
      ∃ n, Numeral cs n ∧ ¬tooLarge n ∧ z = value n := by
  rw [Result.bind_eq_ok_iff]
  constructor
  · rintro ⟨n, hn, hz⟩
    split at hz
    · cases hz
    · next hfits => exact ⟨n, (readDigits_eq_ok_iff.mp hn).1, hfits, (Except.ok.inj hz).symm⟩
  · rintro ⟨n, hn, hfits, rfl⟩
    exact ⟨n, readDigits_eq_ok_iff.mpr ⟨hn, hlimit n hfits⟩, if_neg hfits⟩

theorem signedNumeral_plus {cs : List Char} {z : Int} :
    SignedNumeral ('+' :: cs) z ↔ ∃ n, Numeral cs n ∧ z = (n : Int) := by
  constructor
  · rintro ⟨n, ⟨hn, -⟩ | ⟨digits, hdigits, hn, rfl⟩ | ⟨digits, hdigits, -⟩⟩
    · exact absurd List.mem_cons_self (notMem_of_numeral hn (by decide))
    · obtain ⟨-, rfl⟩ := List.cons.inj hdigits
      exact ⟨n, hn, rfl⟩
    · exact absurd (List.cons.inj hdigits).1 (by decide)
  · rintro ⟨n, hn, rfl⟩
    exact ⟨n, .inr (.inl ⟨cs, rfl, hn, rfl⟩)⟩

theorem signedNumeral_minus {cs : List Char} {z : Int} :
    SignedNumeral ('-' :: cs) z ↔ ∃ n, Numeral cs n ∧ z = -(n : Int) := by
  constructor
  · rintro ⟨n, ⟨hn, -⟩ | ⟨digits, hdigits, -⟩ | ⟨digits, hdigits, hn, rfl⟩⟩
    · exact absurd List.mem_cons_self (notMem_of_numeral hn (by decide))
    · exact absurd (List.cons.inj hdigits).1 (by decide)
    · obtain ⟨-, rfl⟩ := List.cons.inj hdigits
      exact ⟨n, hn, rfl⟩
  · rintro ⟨n, hn, rfl⟩
    exact ⟨n, .inr (.inr ⟨cs, rfl, hn, rfl⟩)⟩

theorem signedNumeral_unsigned {cs : List Char} {z : Int} (hminus : ∀ digits, cs ≠ '-' :: digits)
    (hplus : ∀ digits, cs ≠ '+' :: digits) : SignedNumeral cs z ↔ ∃ n, Numeral cs n ∧ z = (n : Int) := by
  constructor
  · rintro ⟨n, ⟨hn, rfl⟩ | ⟨digits, hdigits, -⟩ | ⟨digits, hdigits, -⟩⟩
    · exact ⟨n, hn, rfl⟩
    · exact absurd hdigits (hplus digits)
    · exact absurd hdigits (hminus digits)
  · rintro ⟨n, hn, rfl⟩
    exact ⟨n, .inl ⟨hn, rfl⟩⟩

def Integer64 (cs : List Char) (z : Int) : Prop :=
  SignedNumeral cs z ∧ -(signedBound64 : Int) ≤ z ∧ z < (signedBound64 : Int)

theorem readDigits_below_iff {cs : List Char} {z : Int} :
    (readDigits maxUnsigned64 cs >>= fun n =>
      if signedBound64 ≤ n then .error .tooLarge else .ok (n : Int)) = .ok z ↔
      (∃ n, Numeral cs n ∧ z = (n : Int)) ∧ -(signedBound64 : Int) ≤ z ∧ z < (signedBound64 : Int) := by
  have hbound : signedBound64 ≤ maxUnsigned64 := by decide
  rw [readDigits_bind_eq_ok_iff fun n hn => by omega]
  constructor
  · rintro ⟨n, hn, hfits, rfl⟩
    exact ⟨⟨n, hn, rfl⟩, by omega, by omega⟩
  · rintro ⟨⟨n, hn, rfl⟩, -, hlt⟩
    exact ⟨n, hn, by omega, rfl⟩

/-- The texts that are read are the signed numerals of 64-bit integers. -/
theorem readSigned_eq_ok_iff {text : String} {z : Int} :
    readSigned text = .ok z ↔ Integer64 text.toList z := by
  have hbound : signedBound64 ≤ maxUnsigned64 := by decide
  have hpos : 0 < signedBound64 := by decide
  unfold readSigned Integer64
  split
  · next cs htext =>
    rw [htext, signedNumeral_minus, readDigits_bind_eq_ok_iff fun n hn => by omega]
    constructor
    · rintro ⟨n, hn, hfits, rfl⟩
      exact ⟨⟨n, hn, rfl⟩, by omega, by omega⟩
    · rintro ⟨⟨n, hn, rfl⟩, hle, -⟩
      exact ⟨n, hn, by omega, rfl⟩
  · next cs htext =>
    rw [htext, signedNumeral_plus]
    exact readDigits_below_iff
  · next hminus hplus =>
    rw [signedNumeral_unsigned hminus hplus]
    exact readDigits_below_iff

theorem Integer64.colon_notMem {cs : List Char} {z : Int} (h : Integer64 cs z) : ':' ∉ cs := by
  have hdigits : ∀ {digits n}, Numeral digits n → ':' ∉ digits := fun hn => notMem_of_numeral hn (by decide)
  obtain ⟨⟨n, ⟨hn, -⟩ | ⟨digits, rfl, hn, -⟩ | ⟨digits, rfl, hn, -⟩⟩, -⟩ := h
  · exact hdigits hn
  · exact List.not_mem_cons_of_ne_of_not_mem (by decide) (hdigits hn)
  · exact List.not_mem_cons_of_ne_of_not_mem (by decide) (hdigits hn)

theorem Integer64.nonneg {cs : List Char} {z : Int} (h : Integer64 cs z) (hminus : '-' ∉ cs) : 0 ≤ z := by
  obtain ⟨⟨n, ⟨-, rfl⟩ | ⟨digits, -, -, rfl⟩ | ⟨digits, rfl, -⟩⟩, -⟩ := h
  · exact Int.natCast_nonneg n
  · exact Int.natCast_nonneg n
  · exact absurd List.mem_cons_self hminus

end TileSelect.Text
