import LoxLexer.Proofs.Tiling
import LoxLexer.Report.Excerpt

/-!
# Counting characters where spans count bytes

A span counts bytes and an excerpt counts characters. The characters of a text begin at certain
offsets (`Text.characterOffsets`); these and the end of the text are its boundaries. Between two
boundaries in their order, and only there, a text can be cut out (`Text.exists_slice?_iff`), and
then the range of characters is exact: it counts the characters that begin before each of the two
offsets, and its characters have the bytes between them (`Text.CharacterRange.exact_ofBytes`).

Any other two offsets have a range of characters too, which lies inside the text. The errors of a
scan never need that, since the text of each of them can be cut out of the source
(`characterRange_exact`).
-/

namespace LoxLexer

namespace Text

/-- The offsets at which the characters of a text begin, if the first one begins at `first`. -/
def characterOffsets (first : Nat) : List Char → List Nat
  | [] => []
  | c :: cs => first :: characterOffsets (first + c.utf8Size) cs

/-- Whether a character begins at an offset, or the text ends there. -/
def IsBoundary (offset : Nat) (cs : List Char) : Prop :=
  offset ∈ characterOffsets 0 cs ∨ offset = byteLength cs

instance (offset : Nat) (cs : List Char) : Decidable (IsBoundary offset cs) :=
  inferInstanceAs (Decidable (_ ∨ offset = _))

/-- How many characters of a text begin before an offset. -/
def charactersBefore (offset : Nat) (cs : List Char) : Nat :=
  (characterOffsets 0 cs).countP (· < offset)

/-! ## Offsets of characters -/

theorem characterOffsets_append (first : Nat) (left right : List Char) :
    characterOffsets first (left ++ right) =
      characterOffsets first left ++ characterOffsets (first + byteLength left) right := by
  induction left generalizing first with
  | nil => rfl
  | cons c left ih =>
      rw [List.cons_append, characterOffsets, ih, characterOffsets, byteLength_cons, Nat.add_assoc,
        List.cons_append]

theorem length_characterOffsets (first : Nat) (cs : List Char) :
    (characterOffsets first cs).length = cs.length := by
  induction cs generalizing first with
  | nil => rfl
  | cons c cs ih => rw [characterOffsets, List.length_cons, ih, List.length_cons]

/-- Characters begin inside their text. -/
theorem bounds_of_mem_characterOffsets {first offset : Nat} {cs : List Char}
    (hMem : offset ∈ characterOffsets first cs) :
    first ≤ offset ∧ offset < first + byteLength cs := by
  induction cs generalizing first with
  | nil => cases hMem
  | cons c cs ih =>
      have hSize := Char.utf8Size_pos c
      rw [byteLength_cons]
      cases List.mem_cons.1 hMem with
      | inl hHere => omega
      | inr hLater =>
          have hBounds := ih hLater
          omega

/-- A character begins where the text before it ends. -/
theorem mem_characterOffsets_iff {first offset : Nat} {cs : List Char} :
    offset ∈ characterOffsets first cs ↔
      ∃ before c rest, before ++ c :: rest = cs ∧ first + byteLength before = offset := by
  constructor
  · intro hMem
    induction cs generalizing first with
    | nil => cases hMem
    | cons c cs ih =>
        cases List.mem_cons.1 hMem with
        | inl hHere => exact ⟨[], c, cs, rfl, hHere.symm⟩
        | inr hLater =>
            obtain ⟨before, d, rest, hText, hBytes⟩ := ih hLater
            refine ⟨c :: before, d, rest, congrArg _ hText, ?_⟩
            rw [byteLength_cons, ← Nat.add_assoc]
            exact hBytes
  · rintro ⟨before, c, rest, rfl, rfl⟩
    rw [characterOffsets_append]
    exact List.mem_append_right _ List.mem_cons_self

/-- **A boundary cuts a text in two.** -/
theorem isBoundary_iff {offset : Nat} {cs : List Char} :
    IsBoundary offset cs ↔ ∃ before rest, before ++ rest = cs ∧ byteLength before = offset := by
  constructor
  · intro hBoundary
    cases hBoundary with
    | inl hMem =>
        obtain ⟨before, c, rest, hText, hBytes⟩ := mem_characterOffsets_iff.1 hMem
        rw [Nat.zero_add] at hBytes
        exact ⟨before, c :: rest, hText, hBytes⟩
    | inr hEnd => exact ⟨cs, [], List.append_nil cs, hEnd.symm⟩
  · rintro ⟨before, rest, hText, hBytes⟩
    cases rest with
    | nil =>
        rw [List.append_nil] at hText
        exact .inr (hText ▸ hBytes.symm)
    | cons c rest =>
        exact .inl (mem_characterOffsets_iff.2 ⟨before, c, rest, hText, by rw [hBytes, Nat.zero_add]⟩)

/-- **The characters before a boundary** are those of the text that ends there. -/
theorem charactersBefore_eq (before rest : List Char) :
    charactersBefore (byteLength before) (before ++ rest) = before.length := by
  have hFirst : (characterOffsets 0 before).countP (· < byteLength before) = before.length := by
    rw [← length_characterOffsets 0 before, List.countP_eq_length]
    intro offset hMem
    have hBounds := bounds_of_mem_characterOffsets hMem
    exact decide_eq_true (by omega)
  have hRest : (characterOffsets (0 + byteLength before) rest).countP (· < byteLength before) =
      0 := by
    rw [List.countP_eq_zero]
    intro offset hMem
    have hBounds := bounds_of_mem_characterOffsets hMem
    rw [decide_eq_true_eq]
    omega
  rw [charactersBefore, characterOffsets_append, List.countP_append, hFirst, hRest, Nat.add_zero]

/-! ## What can be cut out -/

/-- **A text can be cut out between two boundaries** in their order, and nowhere else. -/
theorem exists_slice?_iff {start stop : Nat} {cs : List Char} :
    (∃ inside, slice? start stop cs = some inside) ↔
      start ≤ stop ∧ IsBoundary start cs ∧ IsBoundary stop cs := by
  simp only [slice?_eq_some_iff, isBoundary_iff]
  constructor
  · rintro ⟨inside, before, rest, hText, rfl, rfl⟩
    refine ⟨?_, ⟨before, inside ++ rest, ?_, rfl⟩, ⟨before ++ inside, rest, hText, rfl⟩⟩
    · rw [byteLength_append]
      exact Nat.le_add_right _ _
    · rw [← List.append_assoc]
      exact hText
  · rintro ⟨hOrder, ⟨before, tail, hFirst, rfl⟩, ⟨longer, rest, hSecond, rfl⟩⟩
    rcases List.append_eq_append_iff.1 (hFirst.trans hSecond.symm) with
      ⟨inside, hLonger, hTail⟩ | ⟨more, hBefore, hRest⟩
    · exact ⟨inside, before, rest, by rw [← hLonger, hSecond], rfl, by rw [hLonger]⟩
    · -- Then both offsets are the same, and nothing is between them.
      have hNone : more = [] := by
        rw [hBefore, byteLength_append] at hOrder
        exact byteLength_eq_zero_iff.1 (by omega)
      subst hNone
      rw [List.append_nil] at hBefore
      refine ⟨[], before, rest, ?_, rfl, ?_⟩
      · rw [List.append_nil, hBefore, hSecond]
      · rw [List.append_nil, hBefore]

/-! ## Exact ranges -/

namespace CharacterRange

/-- The characters of a text with the numbers of a range. -/
def characters (range : CharacterRange) (cs : List Char) : List Char :=
  (cs.drop range.start).take (range.stop - range.start)

/-- A range of characters that counts what two byte offsets stand for, and holds the bytes between
them. -/
structure Exact (range : CharacterRange) (start stop : Nat) (cs : List Char) : Prop where
  start_eq : range.start = charactersBefore start cs
  stop_eq : range.stop = charactersBefore stop cs
  bytes : utf8 (range.characters cs) = ((utf8 cs).drop start).take (stop - start)

theorem ofBytes_append (before inside rest : List Char) :
    ofBytes (byteLength before) (byteLength (before ++ inside)) (before ++ inside ++ rest) =
      ⟨before.length, before.length + inside.length⟩ := by
  have hBefore : takeBytes? (byteLength before) (before ++ inside ++ rest) = some before :=
    takeBytes?_eq_some_iff.2 ⟨inside ++ rest, by rw [List.append_assoc], rfl⟩
  have hInside : slice? (byteLength before) (byteLength (before ++ inside))
      (before ++ inside ++ rest) = some inside :=
    slice?_eq_some_iff.2 ⟨before, rest, rfl, rfl, rfl⟩
  rw [ofBytes, hBefore, hInside]
  rfl

/-- **Where a text can be cut out, the range of characters is exact.** -/
theorem exact_ofBytes {start stop : Nat} {cs inside : List Char}
    (hSlice : slice? start stop cs = some inside) : Exact (ofBytes start stop cs) start stop cs := by
  obtain ⟨before, rest, rfl, rfl, rfl⟩ := slice?_eq_some_iff.1 hSlice
  have hRange := ofBytes_append before inside rest
  constructor
  case start_eq =>
      rw [hRange, List.append_assoc, charactersBefore_eq]
  case stop_eq =>
      rw [hRange, charactersBefore_eq, List.length_append]
  case bytes =>
      have hCharacters : (⟨before.length, before.length + inside.length⟩ : CharacterRange).characters
          (before ++ inside ++ rest) = inside := by
        simp [characters]
      have hBytes : byteLength (before ++ inside) - byteLength before = (utf8 inside).length := by
        rw [length_utf8, byteLength_append]
        omega
      rw [hRange, hCharacters, hBytes, utf8_append, utf8_append, ← length_utf8 before,
        List.append_assoc, List.drop_left, List.take_left]

end CharacterRange

end Text

/-- **Byte spans become character ranges**, exactly where that is possible and inside the source
everywhere else. Between two boundaries in their order the range counts the characters before each
of them and holds the bytes between them; and so does the range that an excerpt marks for any error
of a scan of its source. -/
theorem characterRange_exact (source : String) :
    (∀ start stop, (Text.CharacterRange.ofBytes start stop source.toList).start ≤
        (Text.CharacterRange.ofBytes start stop source.toList).stop ∧
      (Text.CharacterRange.ofBytes start stop source.toList).stop ≤ source.toList.length) ∧
    (∀ start stop, start ≤ stop → Text.IsBoundary start source.toList →
      Text.IsBoundary stop source.toList →
      (Text.CharacterRange.ofBytes start stop source.toList).Exact start stop source.toList) ∧
    ∀ (path : String), ∀ e ∈ (scan source).errors,
      (Excerpt.ofError path source.toList e).label.Exact e.span.start e.span.stop
        source.toList := by
  refine ⟨?_, ?_, ?_⟩
  · intro start stop
    exact ⟨Text.CharacterRange.ofBytes_start_le_stop start stop source.toList,
      Text.CharacterRange.ofBytes_stop_le_length start stop source.toList⟩
  · intro start stop hOrder hStart hStop
    obtain ⟨inside, hSlice⟩ := Text.exists_slice?_iff.2 ⟨hOrder, hStart, hStop⟩
    exact Text.CharacterRange.exact_ofBytes hSlice
  · intro path e hMem
    obtain ⟨text, hSlice, -⟩ := (covers_scan source).slice _ (Scan.error_mem_marks hMem)
    exact Text.CharacterRange.exact_ofBytes hSlice

/-- Two letters of two bytes each and a sign of one: the span of the second letter and the sign,
and the error of the sign. -/
theorem characterRange_exact_letters :
    (2 ≤ 5 ∧ Text.IsBoundary 2 "éé@".toList ∧ Text.IsBoundary 5 "éé@".toList ∧
      (⟨1, 3⟩ : Text.CharacterRange).Exact 2 5 "éé@".toList) ∧
      (⟨.unexpectedCharacter '@', ⟨4, 5, 1⟩⟩ : LexicalError) ∈ (scan "éé@").errors ∧
      (⟨2, 3⟩ : Text.CharacterRange).Exact 4 5 "éé@".toList := by
  have hStart : Text.IsBoundary 2 "éé@".toList := by decide
  have hStop : Text.IsBoundary 5 "éé@".toList := by decide
  have hMem : (⟨.unexpectedCharacter '@', ⟨4, 5, 1⟩⟩ : LexicalError) ∈ (scan "éé@").errors := by
    decide +kernel
  obtain ⟨-, hBoundaries, hErrors⟩ := characterRange_exact "éé@"
  exact ⟨⟨by decide, hStart, hStop, hBoundaries 2 5 (by decide) hStart hStop⟩, hMem,
    hErrors "a.lox" _ hMem⟩

/-- A start inside a character counts as the beginning, a stop past the end as no length. -/
example : Text.CharacterRange.ofBytes 3 5 "éé@".toList = ⟨0, 0⟩ ∧
    Text.CharacterRange.ofBytes 4 9 "éé@".toList = ⟨2, 2⟩ := by decide

end LoxLexer
