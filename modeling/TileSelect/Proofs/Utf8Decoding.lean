import TileSelect.Text.Utf8

/-! # Decoding what was encoded

The bytes of a character decode to the character, whatever follows them, so the bytes of a text decode to the
text. -/
namespace TileSelect.Text

theorem toNat_byte {n : Nat} (h : n < 256) : (UInt8.ofNat n).toNat = n :=
  UInt8.toNat_ofNat_of_lt h

theorem payload?_ofNat {low high n : Nat} (hlow : low ≤ n % 64 + 128) (hhigh : n % 64 + 128 ≤ high) :
    payload? low high (UInt8.ofNat (n % 64 + 128)) = some (n % 64) := by
  have hbyte : (n % 64 + 128) % 64 = n % 64 := by omega
  rw [payload?, toNat_byte (by omega), if_pos ⟨hlow, hhigh⟩, hbyte]

/-- The bytes of a character give its code point back and are all that is taken. -/
theorem codePoint?_encode (c : Char) (rest : List UInt8) : ∃ lead more,
    String.utf8EncodeChar c = lead :: more ∧
      codePoint? lead (more ++ rest) = some (c.toNat, more.length) := by
  have hvalid : c.toNat < 0xD800 ∨ 0xDFFF < c.toNat ∧ c.toNat < 0x110000 := c.valid
  obtain ⟨n, hn⟩ : ∃ n, c.toNat = n := ⟨_, rfl⟩
  have hval : c.val.toNat = n := hn
  simp only [String.utf8EncodeChar, hval, hn] at hvalid ⊢
  split
  · refine ⟨_, _, rfl, ?_⟩
    simp only [codePoint?]
    rw [toNat_byte (by omega), if_pos (by omega)]
    rfl
  split
  · refine ⟨_, _, rfl, ?_⟩
    simp only [codePoint?, List.cons_append]
    rw [toNat_byte (by omega), if_neg (by omega), if_pos (by omega),
      payload?_ofNat (by omega) (by omega)]
    simp only [bind, Option.bind, Option.some.injEq, Prod.mk.injEq, List.length_cons, List.length_nil,
      and_true]
    omega
  split
  · refine ⟨_, _, rfl, ?_⟩
    simp only [codePoint?, List.cons_append]
    rw [toNat_byte (by omega), if_neg (by omega), if_neg (by omega), if_pos (by omega),
      payload?_ofNat (by split <;> omega) (by split <;> omega), payload?_ofNat (by omega) (by omega)]
    simp only [bind, Option.bind, Option.some.injEq, Prod.mk.injEq, List.length_cons, List.length_nil,
      and_true]
    omega
  · refine ⟨_, _, rfl, ?_⟩
    simp only [codePoint?, List.cons_append]
    rw [toNat_byte (by omega), if_neg (by omega), if_neg (by omega), if_neg (by omega), if_pos (by omega),
      payload?_ofNat (by split <;> omega) (by split <;> omega), payload?_ofNat (by omega) (by omega),
      payload?_ofNat (by omega) (by omega)]
    simp only [bind, Option.bind, Option.some.injEq, Prod.mk.injEq, List.length_cons, List.length_nil,
      and_true]
    omega

theorem decode_encodeChar (c : Char) (rest : List UInt8) :
    decode (String.utf8EncodeChar c ++ rest) = c :: decode rest := by
  obtain ⟨lead, more, hbytes, hcode⟩ := codePoint?_encode c rest
  rw [hbytes, List.cons_append, decode, hcode]
  simp only [Char.ofNat_toNat, List.drop_left]

theorem decode_encode (cs : List Char) : decode (encode cs) = cs := by
  induction cs with
  | nil => rw [encode, List.flatMap_nil, decode_nil]
  | cons c cs ih =>
    rw [encode, List.flatMap_cons, decode_encodeChar]
    exact congrArg (c :: ·) ih

end TileSelect.Text
