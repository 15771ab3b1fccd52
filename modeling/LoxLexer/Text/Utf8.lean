/-!
# Texts, their UTF-8 bytes, and cutting at byte offsets

A text is a list of characters. Offsets into a text count the bytes of its UTF-8 form, so an
offset is usable only if it falls on a boundary between two characters.

`byteLength` adds over concatenation (`byteLength_append`) and is the number of bytes of `utf8`
(`length_utf8`). `splitBytes?` cuts a text at an offset: it succeeds exactly at the boundaries,
and the two parts it returns make up the text again (`splitBytes?_eq_some_iff`). `slice?` is the
text between two offsets (`slice?_eq_some_iff`).
-/

namespace LoxLexer.Text

/-- The number of bytes that a text takes in UTF-8. -/
def byteLength (cs : List Char) : Nat :=
  cs.foldl (fun n c => n + c.utf8Size) 0

/-- The UTF-8 form of a text. -/
def utf8 (cs : List Char) : List UInt8 :=
  cs.flatMap String.utf8EncodeChar

private theorem foldl_utf8Size (cs : List Char) :
    ∀ n, cs.foldl (fun n c => n + c.utf8Size) n = n + byteLength cs := by
  induction cs with
  | nil => intro n; rfl
  | cons c cs ih =>
      intro n
      simp only [byteLength, List.foldl_cons]
      rw [ih (n + c.utf8Size), ih (0 + c.utf8Size)]
      omega

@[simp] theorem byteLength_nil : byteLength [] = 0 := rfl

@[simp] theorem byteLength_cons (c : Char) (cs : List Char) :
    byteLength (c :: cs) = c.utf8Size + byteLength cs := by
  show cs.foldl _ (0 + c.utf8Size) = _
  rw [foldl_utf8Size, Nat.zero_add]

@[simp] theorem byteLength_append (left right : List Char) :
    byteLength (left ++ right) = byteLength left + byteLength right := by
  induction left with
  | nil => simp
  | cons c left ih => simp [ih, Nat.add_assoc]

theorem utf8_append (left right : List Char) : utf8 (left ++ right) = utf8 left ++ utf8 right :=
  List.flatMap_append

theorem length_utf8 (cs : List Char) : (utf8 cs).length = byteLength cs := by
  induction cs with
  | nil => rfl
  | cons c cs ih =>
      have hTail : (cs.flatMap String.utf8EncodeChar).length = byteLength cs := ih
      simp [utf8, hTail]

/-- Only the empty text has no bytes. -/
theorem byteLength_eq_zero_iff {cs : List Char} : byteLength cs = 0 ↔ cs = [] := by
  cases cs with
  | nil => simp
  | cons c cs =>
      have := Char.utf8Size_pos c
      simp
      omega

/-- Cuts a text after its first `offset` bytes; `none` if that is past the end or inside a
character. -/
def splitBytes? (offset : Nat) : List Char → Option (List Char × List Char)
  | [] => if offset = 0 then some ([], []) else none
  | c :: cs =>
      if offset = 0 then some ([], c :: cs)
      else if c.utf8Size ≤ offset then
        (splitBytes? (offset - c.utf8Size) cs).map fun parts => (c :: parts.1, parts.2)
      else none

/-- **Cutting is exact**: the parts at an offset are those whose first has that many bytes. -/
theorem splitBytes?_eq_some_iff {offset : Nat} {cs before rest : List Char} :
    splitBytes? offset cs = some (before, rest) ↔
      before ++ rest = cs ∧ byteLength before = offset := by
  induction cs generalizing offset before rest with
  | nil =>
      simp only [splitBytes?, List.append_eq_nil_iff]
      constructor
      · intro h
        split at h <;> simp_all
      · rintro ⟨⟨rfl, rfl⟩, rfl⟩
        simp
  | cons c cs ih =>
      have hSize := Char.utf8Size_pos c
      simp only [splitBytes?]
      split
      case isTrue hZero =>
          subst hZero
          simp only [Option.some.injEq, Prod.mk.injEq, byteLength_eq_zero_iff]
          constructor
          · rintro ⟨rfl, rfl⟩
            simp
          · rintro ⟨hParts, rfl⟩
            simpa using hParts.symm
      case isFalse hPositive =>
          split
          case isTrue hFits =>
              simp only [Option.map_eq_some_iff, Prod.exists, Prod.mk.injEq, ih]
              constructor
              · rintro ⟨front, back, ⟨rfl, hLength⟩, rfl, rfl⟩
                refine ⟨by simp, ?_⟩
                simp only [byteLength_cons]
                omega
              · rintro ⟨hParts, hLength⟩
                cases before with
                | nil => simp at hLength; omega
                | cons d front =>
                    simp only [List.cons_append, List.cons.injEq] at hParts
                    obtain ⟨rfl, rfl⟩ := hParts
                    simp only [byteLength_cons] at hLength
                    exact ⟨front, rest, ⟨rfl, by omega⟩, rfl, rfl⟩
          case isFalse hInside =>
              simp only [reduceCtorEq, false_iff, not_and]
              intro hParts hLength
              cases before with
              | nil => simp at hLength; omega
              | cons d front =>
                  simp only [List.cons_append, List.cons.injEq] at hParts
                  obtain ⟨rfl, rfl⟩ := hParts
                  simp only [byteLength_cons] at hLength
                  omega

/-- A text is cut in one way only before a given number of bytes. -/
theorem append_inj_of_byteLength {left right left' right' : List Char}
    (hText : left ++ right = left' ++ right') (hBytes : byteLength left = byteLength left') :
    left = left' ∧ right = right' := by
  have hFirst := splitBytes?_eq_some_iff.2 ⟨hText, hBytes⟩
  have hSecond : splitBytes? (byteLength left') (left' ++ right') = some (left', right') :=
    splitBytes?_eq_some_iff.2 ⟨rfl, rfl⟩
  rw [hFirst, Option.some.injEq, Prod.mk.injEq] at hSecond
  exact hSecond

/-- The text before a byte offset. -/
def takeBytes? (offset : Nat) (cs : List Char) : Option (List Char) :=
  (splitBytes? offset cs).map (·.1)

theorem takeBytes?_eq_some_iff {offset : Nat} {cs before : List Char} :
    takeBytes? offset cs = some before ↔
      ∃ rest, before ++ rest = cs ∧ byteLength before = offset := by
  simp [takeBytes?, splitBytes?_eq_some_iff]

/-- The text from a byte offset on. -/
def dropBytes? (offset : Nat) (cs : List Char) : Option (List Char) :=
  (splitBytes? offset cs).map (·.2)

/-- The text between two byte offsets; `none` if they are out of order, past the end or inside a
character. -/
def slice? (start stop : Nat) (cs : List Char) : Option (List Char) :=
  if start ≤ stop then (dropBytes? start cs).bind (takeBytes? (stop - start)) else none

/-- **Slices are exact**: the text between two offsets ends at the second one, and what stands
before it ends at the first. -/
theorem slice?_eq_some_iff {start stop : Nat} {cs inside : List Char} :
    slice? start stop cs = some inside ↔
      ∃ before rest, before ++ inside ++ rest = cs ∧ byteLength before = start ∧
        byteLength (before ++ inside) = stop := by
  constructor
  · intro hSlice
    unfold slice? at hSlice
    split at hSlice
    case isTrue hOrder =>
        obtain ⟨tail, hTail, hInside⟩ := Option.bind_eq_some_iff.1 hSlice
        obtain ⟨⟨before, tail'⟩, hCut, rfl⟩ := Option.map_eq_some_iff.1 hTail
        obtain ⟨⟨inside', rest⟩, hCut', rfl⟩ := Option.map_eq_some_iff.1 hInside
        obtain ⟨rfl, hStart⟩ := splitBytes?_eq_some_iff.1 hCut
        obtain ⟨hParts, hLength⟩ := splitBytes?_eq_some_iff.1 hCut'
        dsimp only at hParts hLength ⊢
        refine ⟨before, rest, ?_, hStart, ?_⟩
        · rw [List.append_assoc, hParts]
        · rw [byteLength_append]
          omega
    case isFalse => cases hSlice
  · rintro ⟨before, rest, rfl, rfl, rfl⟩
    have hCut : splitBytes? (byteLength before) (before ++ inside ++ rest) =
        some (before, inside ++ rest) := splitBytes?_eq_some_iff.2 ⟨by simp, rfl⟩
    have hCut' : splitBytes? (byteLength (before ++ inside) - byteLength before) (inside ++ rest) =
        some (inside, rest) := splitBytes?_eq_some_iff.2 ⟨rfl, by simp⟩
    rw [slice?, if_pos (by simp), dropBytes?, hCut, Option.map_some, Option.bind_some, takeBytes?,
      hCut', Option.map_some]

end LoxLexer.Text
