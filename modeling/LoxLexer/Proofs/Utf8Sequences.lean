import LoxLexer.Script
import LoxLexer.Text.Utf8

/-!
# Well-formed UTF-8

The byte sequences that encode texts, told by their bytes alone. A character takes one to four
bytes; the first says how many follow, and the others lie between `80` and `bf`. After four of the
first bytes the second one is confined further: after `e0` and `f0` because a shorter sequence would
do, after `ed` because surrogates are no characters, and after `f4` because there is nothing beyond
`10ffff`. The bytes `c0`, `c1` and those above `f4` begin nothing.

These rows are what `String.utf8EncodeChar` gives (`characterBytes_iff`), so the well-formed
sequences are those of texts (`wellFormedBytes_iff`), each of one text only (`utf8_injective`), and
a script is accepted if and only if it is well formed (`Script.decode_eq_ok_iff`,
`Script.decode_of_not_wellFormedBytes`).
-/

namespace LoxLexer

namespace Text

/-! ## Characters -/

/-- A byte that continues a character. -/
def ContinuationByte (b : UInt8) : Prop := 0x80 ≤ b ∧ b ≤ 0xbf

/-- The byte sequences of single characters. -/
inductive CharacterBytes : List UInt8 → Prop where
  | one {a : UInt8} (hFirst : a ≤ 0x7f) : CharacterBytes [a]
  | two {a b : UInt8} (hFirst : 0xc2 ≤ a ∧ a ≤ 0xdf) (hSecond : ContinuationByte b) :
      CharacterBytes [a, b]
  | threeLowest {b c : UInt8} (hSecond : 0xa0 ≤ b ∧ b ≤ 0xbf) (hThird : ContinuationByte c) :
      CharacterBytes [0xe0, b, c]
  | three {a b c : UInt8} (hFirst : (0xe1 ≤ a ∧ a ≤ 0xec) ∨ (0xee ≤ a ∧ a ≤ 0xef))
      (hSecond : ContinuationByte b) (hThird : ContinuationByte c) : CharacterBytes [a, b, c]
  | threeBelowSurrogates {b c : UInt8} (hSecond : 0x80 ≤ b ∧ b ≤ 0x9f)
      (hThird : ContinuationByte c) : CharacterBytes [0xed, b, c]
  | fourLowest {b c d : UInt8} (hSecond : 0x90 ≤ b ∧ b ≤ 0xbf) (hThird : ContinuationByte c)
      (hFourth : ContinuationByte d) : CharacterBytes [0xf0, b, c, d]
  | four {a b c d : UInt8} (hFirst : 0xf1 ≤ a ∧ a ≤ 0xf3) (hSecond : ContinuationByte b)
      (hThird : ContinuationByte c) (hFourth : ContinuationByte d) : CharacterBytes [a, b, c, d]
  | fourHighest {b c d : UInt8} (hSecond : 0x80 ≤ b ∧ b ≤ 0x8f) (hThird : ContinuationByte c)
      (hFourth : ContinuationByte d) : CharacterBytes [0xf4, b, c, d]

private theorem byte_le_iff {a b : UInt8} : a ≤ b ↔ a.toNat ≤ b.toNat := UInt8.le_iff_toNat_le

private theorem ofNat_eq_byte {n : Nat} {b : UInt8} (hByte : n % 256 = b.toNat) :
    UInt8.ofNat n = b :=
  UInt8.toNat_inj.1 (UInt8.toNat_ofNat'.trans hByte)

private theorem continuationByte_ofNat (n : Nat) :
    ContinuationByte (UInt8.ofNat (n % 64 + 128)) := by
  simp only [ContinuationByte, byte_le_iff, UInt8.toNat_ofNat', UInt8.reduceToNat]
  omega

/-- A character is encoded in one of the rows. -/
theorem characterBytes_encode (c : Char) : CharacterBytes (String.utf8EncodeChar c) := by
  have hValid : c.val.toNat < 0xd800 ∨ 0xdfff < c.val.toNat ∧ c.val.toNat < 0x110000 := c.valid
  unfold String.utf8EncodeChar
  dsimp only
  generalize c.val.toNat = n at hValid
  split
  case isTrue hOne =>
      apply CharacterBytes.one
      simp only [byte_le_iff, UInt8.toNat_ofNat', UInt8.reduceToNat]
      omega
  case isFalse hOne =>
  split
  case isTrue hTwo =>
      refine .two ?_ (continuationByte_ofNat n)
      simp only [byte_le_iff, UInt8.toNat_ofNat', UInt8.reduceToNat]
      omega
  case isFalse hTwo =>
  split
  case isTrue hThree =>
      by_cases hLowest : n < 0x1000
      · rw [ofNat_eq_byte (b := 0xe0) (by simp only [UInt8.reduceToNat]; omega)]
        refine .threeLowest ?_ (continuationByte_ofNat n)
        simp only [byte_le_iff, UInt8.toNat_ofNat', UInt8.reduceToNat]
        omega
      by_cases hBelow : 0xd000 ≤ n ∧ n < 0xd800
      · rw [ofNat_eq_byte (b := 0xed) (by simp only [UInt8.reduceToNat]; omega)]
        refine .threeBelowSurrogates ?_ (continuationByte_ofNat n)
        simp only [byte_le_iff, UInt8.toNat_ofNat', UInt8.reduceToNat]
        omega
      · refine .three ?_ (continuationByte_ofNat (n / 64)) (continuationByte_ofNat n)
        simp only [byte_le_iff, UInt8.toNat_ofNat', UInt8.reduceToNat]
        omega
  case isFalse hThree =>
      by_cases hLowest : n < 0x40000
      · rw [ofNat_eq_byte (b := 0xf0) (by simp only [UInt8.reduceToNat]; omega)]
        refine .fourLowest ?_ (continuationByte_ofNat (n / 64)) (continuationByte_ofNat n)
        simp only [byte_le_iff, UInt8.toNat_ofNat', UInt8.reduceToNat]
        omega
      by_cases hHighest : 0x100000 ≤ n
      · rw [ofNat_eq_byte (b := 0xf4) (by simp only [UInt8.reduceToNat]; omega)]
        refine .fourHighest ?_ (continuationByte_ofNat (n / 64)) (continuationByte_ofNat n)
        simp only [byte_le_iff, UInt8.toNat_ofNat', UInt8.reduceToNat]
        omega
      · refine .four ?_ (continuationByte_ofNat (n / 4096)) (continuationByte_ofNat (n / 64))
          (continuationByte_ofNat n)
        simp only [byte_le_iff, UInt8.toNat_ofNat', UInt8.reduceToNat]
        omega

private theorem exists_char {n : Nat} (hValid : n < 0xd800 ∨ 0xdfff < n ∧ n < 0x110000) :
    ∃ c : Char, c.val.toNat = n := by
  refine ⟨Char.ofNatAux n hValid, ?_⟩
  rfl

/-- Three bytes hold a character if the first two lead to one: to none that has a shorter form, and
to no surrogate. -/
private theorem exists_encode_three {a b c : UInt8} (hLead : 224 ≤ a.toNat ∧ a.toNat < 240)
    (hSecond : 128 ≤ b.toNat ∧ b.toNat < 192) (hThird : ContinuationByte c) {high : Nat}
    (hHigh : high = (a.toNat - 224) * 64 + (b.toNat - 128)) (hLong : 0x20 ≤ high)
    (hScalar : high < 0x360 ∨ 0x380 ≤ high) :
    ∃ character, String.utf8EncodeChar character = [a, b, c] := by
  simp only [ContinuationByte, byte_le_iff, UInt8.reduceToNat] at hThird
  obtain ⟨character, hCharacter⟩ := exists_char (n := high * 64 + (c.toNat - 128)) (by omega)
  refine ⟨character, ?_⟩
  unfold String.utf8EncodeChar
  rw [hCharacter]
  dsimp only
  rw [if_neg (by omega), if_neg (by omega), if_pos (by omega),
    ofNat_eq_byte (b := a) (by omega), ofNat_eq_byte (b := b) (by omega),
    ofNat_eq_byte (b := c) (by omega)]

/-- Four bytes hold a character if the first two lead to one: to none that has a shorter form, and
to no number that is too large. -/
private theorem exists_encode_four {a b c d : UInt8} (hLead : 240 ≤ a.toNat ∧ a.toNat < 245)
    (hSecond : 128 ≤ b.toNat ∧ b.toNat < 192) (hThird : ContinuationByte c)
    (hFourth : ContinuationByte d) {high : Nat}
    (hHigh : high = (a.toNat - 240) * 64 + (b.toNat - 128)) (hLong : 0x10 ≤ high)
    (hScalar : high < 0x110) :
    ∃ character, String.utf8EncodeChar character = [a, b, c, d] := by
  simp only [ContinuationByte, byte_le_iff, UInt8.reduceToNat] at hThird hFourth
  obtain ⟨character, hCharacter⟩ :=
    exists_char (n := high * 4096 + (c.toNat - 128) * 64 + (d.toNat - 128)) (by omega)
  refine ⟨character, ?_⟩
  unfold String.utf8EncodeChar
  rw [hCharacter]
  dsimp only
  rw [if_neg (by omega), if_neg (by omega), if_neg (by omega),
    ofNat_eq_byte (b := a) (by omega), ofNat_eq_byte (b := b) (by omega),
    ofNat_eq_byte (b := c) (by omega), ofNat_eq_byte (b := d) (by omega)]

/-- **A row of bytes is a character**: the rows are what characters are encoded as. -/
theorem characterBytes_iff {bytes : List UInt8} :
    CharacterBytes bytes ↔ ∃ c, String.utf8EncodeChar c = bytes := by
  constructor
  · intro hBytes
    cases hBytes with
    | @one a hFirst =>
        simp only [byte_le_iff, UInt8.reduceToNat] at hFirst
        obtain ⟨character, hCharacter⟩ := exists_char (n := a.toNat) (by omega)
        refine ⟨character, ?_⟩
        unfold String.utf8EncodeChar
        rw [hCharacter]
        dsimp only
        rw [if_pos (by omega), ofNat_eq_byte (b := a) (by omega)]
    | @two a b hFirst hSecond =>
        simp only [ContinuationByte, byte_le_iff, UInt8.reduceToNat] at hFirst hSecond
        obtain ⟨character, hCharacter⟩ :=
          exists_char (n := (a.toNat - 192) * 64 + (b.toNat - 128)) (by omega)
        refine ⟨character, ?_⟩
        unfold String.utf8EncodeChar
        rw [hCharacter]
        dsimp only
        rw [if_neg (by omega), if_pos (by omega), ofNat_eq_byte (b := a) (by omega),
          ofNat_eq_byte (b := b) (by omega)]
    | threeLowest hSecond hThird =>
        simp only [byte_le_iff, UInt8.reduceToNat] at hSecond
        have hLead : (0xe0 : UInt8).toNat = 0xe0 := rfl
        exact exists_encode_three (by omega) (by omega) hThird rfl (by omega) (by omega)
    | three hFirst hSecond hThird =>
        simp only [ContinuationByte, byte_le_iff, UInt8.reduceToNat] at hFirst hSecond
        exact exists_encode_three (by omega) (by omega) hThird rfl (by omega) (by omega)
    | threeBelowSurrogates hSecond hThird =>
        simp only [byte_le_iff, UInt8.reduceToNat] at hSecond
        have hLead : (0xed : UInt8).toNat = 0xed := rfl
        exact exists_encode_three (by omega) (by omega) hThird rfl (by omega) (by omega)
    | fourLowest hSecond hThird hFourth =>
        simp only [byte_le_iff, UInt8.reduceToNat] at hSecond
        have hLead : (0xf0 : UInt8).toNat = 0xf0 := rfl
        exact exists_encode_four (by omega) (by omega) hThird hFourth rfl (by omega) (by omega)
    | four hFirst hSecond hThird hFourth =>
        simp only [ContinuationByte, byte_le_iff, UInt8.reduceToNat] at hFirst hSecond
        exact exists_encode_four (by omega) (by omega) hThird hFourth rfl (by omega) (by omega)
    | fourHighest hSecond hThird hFourth =>
        simp only [byte_le_iff, UInt8.reduceToNat] at hSecond
        have hLead : (0xf4 : UInt8).toNat = 0xf4 := rfl
        exact exists_encode_four (by omega) (by omega) hThird hFourth rfl (by omega) (by omega)
  · rintro ⟨c, rfl⟩
    exact characterBytes_encode c

/-! ## Texts -/

/-- The byte sequences that are characters in a row. -/
inductive WellFormedBytes : List UInt8 → Prop where
  | nil : WellFormedBytes []
  | cons {bytes rest : List UInt8} (hFirst : CharacterBytes bytes) (hRest : WellFormedBytes rest) :
      WellFormedBytes (bytes ++ rest)

/-- **The well-formed sequences are those of texts.** -/
theorem wellFormedBytes_iff {bytes : List UInt8} :
    WellFormedBytes bytes ↔ ∃ cs, utf8 cs = bytes := by
  constructor
  · intro hBytes
    induction hBytes with
    | nil => exact ⟨[], rfl⟩
    | cons hFirst _ ih =>
        obtain ⟨c, hCharacter⟩ := characterBytes_iff.1 hFirst
        obtain ⟨cs, hRest⟩ := ih
        exact ⟨c :: cs, by rw [← hCharacter, ← hRest]; rfl⟩
  · rintro ⟨cs, rfl⟩
    induction cs with
    | nil => exact .nil
    | cons c cs ih => exact .cons (characterBytes_encode c) ih

/-- What would be a surrogate is not well formed, whatever follows. -/
theorem not_wellFormedBytes_surrogate {b : UInt8} (hHigh : 0xa0 ≤ b) (rest : List UInt8) :
    ¬WellFormedBytes (0xed :: b :: rest) := by
  intro hBytes
  generalize hText : 0xed :: b :: rest = bytes at hBytes
  cases hBytes with
  | nil => cases hText
  | cons hFirst _ =>
      cases hFirst with
      | one hFirst =>
          cases hText
          exact absurd hFirst (by decide)
      | two hFirst _ =>
          cases hText
          exact absurd hFirst (by decide)
      | three hFirst _ _ =>
          cases hText
          exact absurd hFirst (by decide)
      | threeBelowSurrogates hSecond _ =>
          cases hText
          exact absurd (UInt8.le_trans hHigh hSecond.2) (by decide)
      | four hFirst _ _ _ =>
          cases hText
          exact absurd hFirst (by decide)
      | threeLowest _ _ => cases hText
      | fourLowest _ _ _ => cases hText
      | fourHighest _ _ _ => cases hText

theorem data_utf8Encode (cs : List Char) : cs.utf8Encode.data.toList = utf8 cs := by
  rw [List.utf8Encode, List.data_toByteArray, List.toList_toArray]
  rfl

/-- Two texts are never encoded alike. -/
theorem utf8_injective {cs ds : List Char} (hBytes : utf8 cs = utf8 ds) : cs = ds := by
  rw [← data_utf8Encode, ← data_utf8Encode] at hBytes
  have hEncoded : cs.utf8Encode = ds.utf8Encode := ByteArray.ext (Array.toList_inj.1 hBytes)
  have hDecoded := congrArg ByteArray.utf8Decode? hEncoded
  rw [List.utf8Decode?_utf8Encode, List.utf8Decode?_utf8Encode] at hDecoded
  exact List.toArray_inj (Option.some.inj hDecoded)

theorem isValidUTF8_iff {bytes : ByteArray} :
    bytes.IsValidUTF8 ↔ ∃ cs, utf8 cs = bytes.data.toList := by
  constructor
  · rintro ⟨cs, rfl⟩
    exact ⟨cs, (data_utf8Encode cs).symm⟩
  · rintro ⟨cs, hBytes⟩
    rw [← data_utf8Encode] at hBytes
    exact ⟨cs, (ByteArray.ext (Array.toList_inj.1 hBytes)).symm⟩

end Text

/-! ## Scripts -/

/-- **A script is the text that its bytes encode.** -/
theorem Script.decode_eq_ok_iff {bytes : ByteArray} {source : String} :
    decode bytes = .ok source ↔ Text.utf8 source.toList = bytes.data.toList := by
  rw [← Text.data_utf8Encode, String.utf8Encode_toList, decode, String.fromUTF8?]
  by_cases hValid : bytes.IsValidUTF8
  · rw [dif_pos hValid]
    constructor
    · intro hSource
      cases hSource
      rfl
    · intro hBytes
      have hSame : source.toByteArray = bytes := ByteArray.ext (Array.toList_inj.1 hBytes)
      exact congrArg Except.ok (String.toByteArray_inj.1 hSame.symm)
  · rw [dif_neg hValid]
    constructor
    · intro hSource
      cases hSource
    · intro hBytes
      have hSame : source.toByteArray = bytes := ByteArray.ext (Array.toList_inj.1 hBytes)
      exact absurd (hSame ▸ source.isValidUTF8) hValid

/-- Bytes that are not well formed are no script. -/
theorem Script.decode_of_not_wellFormedBytes {bytes : ByteArray}
    (hBytes : ¬Text.WellFormedBytes bytes.data.toList) : decode bytes = .error .notUtf8 := by
  have hValid : ¬bytes.IsValidUTF8 := by
    rwa [Text.isValidUTF8_iff, ← Text.wellFormedBytes_iff]
  rw [decode, String.fromUTF8?, dif_neg hValid]

end LoxLexer
