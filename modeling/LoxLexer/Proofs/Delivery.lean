import LoxLexer.Report

/-!
# Reports to a receiver with little room

A report is handed over error by error, and the text of an error again in pieces: a number, a word,
an escape sequence, a character. A receiver that takes only so many bytes gets the beginning of the
whole that there is room for, and the delivery fails if and only if that is not all of it. Then the
room ends inside the text of one error, perhaps inside a character; the errors before it are told
in full, and of the rest of its text and of the errors behind it nothing arrives, whatever they are
(`Report.Delivered`).

How the texts are divided does not matter, because what is taken depends on nothing but all bytes in
their order (`Delivery.ofTexts_eq_of_flatten`). So this holds of any way in which the pieces of an
error are written, as long as they are written in their order and the first failure ends it
(`deliver_within_room`).
-/

namespace LoxLexer

namespace Delivery

/-- **What becomes of texts** is decided by the room and by all their bytes in a row. -/
theorem ofTexts_eq (room : Nat) (texts : List (List UInt8)) :
    ofTexts room texts = ⟨texts.flatten.take room, decide (texts.flatten.length ≤ room)⟩ := by
  rw [← written_ofTexts, ← complete_ofTexts]

/-- **How texts are divided does not matter.** -/
theorem ofTexts_eq_of_flatten {texts pieces : List (List UInt8)}
    (hSame : pieces.flatten = texts.flatten) (room : Nat) :
    ofTexts room pieces = ofTexts room texts := by
  rw [ofTexts_eq, ofTexts_eq, hSame]

theorem complete_eq_false_iff {room : Nat} {texts : List (List UInt8)} :
    (ofTexts room texts).complete = false ↔ room < texts.flatten.length := by
  rw [complete_ofTexts, decide_eq_false_iff_not, Nat.not_le]

/-- **Where the room ends**: in one of the texts, which is taken in part. Those before it are taken
in full. -/
theorem exists_cut {room : Nat} {texts : List (List UInt8)}
    (hFull : (ofTexts room texts).complete = false) :
    ∃ earlier text later taken lost, texts = earlier ++ text :: later ∧ taken ++ lost = text ∧
      lost ≠ [] ∧ (ofTexts room texts).written = earlier.flatten ++ taken := by
  induction texts generalizing room with
  | nil => cases hFull
  | cons text rest ih =>
      by_cases hFits : text.length ≤ room
      · rw [ofTexts, if_pos hFits] at hFull ⊢
        obtain ⟨earlier, cut, later, taken, lost, hTexts, hCut, hLost, hWritten⟩ := ih hFull
        refine ⟨text :: earlier, cut, later, taken, lost, congrArg _ hTexts, hCut, hLost, ?_⟩
        rw [List.flatten_cons, List.append_assoc, ← hWritten]
      · rw [ofTexts, if_neg hFits]
        refine ⟨[], text, rest, text.take room, text.drop room, rfl,
          List.take_append_drop room text, ?_, rfl⟩
        rw [Ne, List.drop_eq_nil_iff]
        exact hFits

/-- **After a failure nothing arrives**, whatever would follow. -/
theorem ofTexts_append_of_full {room : Nat} {texts : List (List UInt8)}
    (hFull : (ofTexts room texts).complete = false) (more : List (List UInt8)) :
    ofTexts room (texts ++ more) = ofTexts room texts := by
  have hRoom := complete_eq_false_iff.1 hFull
  have hLonger : room < (texts ++ more).flatten.length := by
    rw [List.flatten_append, List.length_append]
    omega
  have hTaken : (texts ++ more).flatten.take room = texts.flatten.take room := by
    rw [List.flatten_append, List.take_append_of_le_length (Nat.le_of_lt hRoom)]
  rw [ofTexts_eq, ofTexts_eq, hTaken, decide_eq_false (Nat.not_le.2 hLonger),
    decide_eq_false (Nat.not_le.2 hRoom)]

end Delivery

namespace Report

/-- Texts divided into pieces are the same bytes in a row. -/
theorem flatten_flatMap_pieces {r : Report} {pieces : LexicalError → List (List UInt8)}
    (hPieces : ∀ e, (pieces e).flatten = Text.utf8 (r.error e)) (errors : List LexicalError) :
    (errors.flatMap pieces).flatten = (errors.map fun e => Text.utf8 (r.error e)).flatten := by
  induction errors with
  | nil => rfl
  | cons e rest ih =>
      rw [List.flatMap_cons, List.flatten_append, hPieces, ih, List.map_cons, List.flatten_cons]

/-- The bytes of a report are those of its errors in a row. -/
theorem utf8_text (r : Report) (errors : List LexicalError) :
    Text.utf8 (r.text errors) = (errors.map fun e => Text.utf8 (r.error e)).flatten := by
  rw [← List.flatMap_def]
  exact List.flatMap_assoc

/-- What a delivery to a receiver with so much room tells of a report. -/
structure Delivered (r : Report) (errors : List LexicalError) (room : Nat) (d : Delivery) :
    Prop where
  /-- The whole report is made of the reports of the single errors, in their order. -/
  whole : Text.utf8 (r.text errors) = errors.flatMap fun e => Text.utf8 (r.text [e])
  written : d.written = (Text.utf8 (r.text errors)).take room
  length_written : d.written.length = min room (Text.utf8 (r.text errors)).length
  fails_iff : d.complete = false ↔ room < (Text.utf8 (r.text errors)).length
  /-- The text of one error is taken in part, and nothing behind that. -/
  cut : d.complete = false → ∃ earlier e later taken lost, errors = earlier ++ e :: later ∧
    taken ++ lost = Text.utf8 (r.error e) ∧ lost ≠ [] ∧
    d.written = Text.utf8 (r.text earlier) ++ taken
  /-- More errors would not change what has failed. -/
  final : d.complete = false → ∀ more, r.deliver room (errors ++ more) = d

theorem exists_cut_deliver {r : Report} {room : Nat} {errors : List LexicalError}
    (hFull : (r.deliver room errors).complete = false) :
    ∃ earlier e later taken lost, errors = earlier ++ e :: later ∧
      taken ++ lost = Text.utf8 (r.error e) ∧ lost ≠ [] ∧
      (r.deliver room errors).written = Text.utf8 (r.text earlier) ++ taken := by
  obtain ⟨earlierTexts, text, laterTexts, taken, lost, hTexts, hText, hLost, hWritten⟩ :=
    Delivery.exists_cut hFull
  obtain ⟨earlier, rest, hErrors, hEarlier, hRest⟩ := List.map_eq_append_iff.1 hTexts
  obtain ⟨e, later, hSplit, hHere, -⟩ := List.map_eq_cons_iff.1 hRest
  refine ⟨earlier, e, later, taken, lost, by rw [hErrors, hSplit], hText.trans hHere.symm, hLost, ?_⟩
  rw [utf8_text, hEarlier]
  exact hWritten

theorem delivered (r : Report) (errors : List LexicalError) (room : Nat) :
    r.Delivered errors room (r.deliver room errors) where
  whole := by
    have hSingle (e : LexicalError) : Text.utf8 (r.text [e]) = Text.utf8 (r.error e) := by
      rw [utf8_text, List.map_singleton, List.flatten_singleton]
    simp only [hSingle]
    rw [utf8_text, ← List.flatMap_def]
  written := by
    rw [utf8_text]
    exact Delivery.written_ofTexts room _
  length_written := by
    rw [utf8_text, ← List.length_take]
    exact congrArg List.length (Delivery.written_ofTexts room _)
  fails_iff := by
    rw [utf8_text]
    exact Delivery.complete_eq_false_iff
  cut := exists_cut_deliver
  final hFull more := by
    rw [deliver, List.map_append]
    exact Delivery.ofTexts_append_of_full hFull _

end Report

/-- **A receiver with little room gets a beginning of the report**, as long as there is room for,
and the delivery fails if and only if that is not all. This is so for errors of any kind and at any
place, and however the text of each error is divided into pieces that are written one after
another. -/
theorem deliver_within_room (r : Report) (errors : List LexicalError) (room : Nat) :
    r.Delivered errors room (r.deliver room errors) ∧
      ∀ pieces : LexicalError → List (List UInt8),
        (∀ e, (pieces e).flatten = Text.utf8 (r.error e)) →
          Delivery.ofTexts room (errors.flatMap pieces) = r.deliver room errors := by
  refine ⟨r.delivered errors room, ?_⟩
  intro pieces hPieces
  exact Delivery.ofTexts_eq_of_flatten (Report.flatten_flatMap_pieces hPieces errors) room

/-- The plain report of two refused characters, with room up to the middle of the two bytes of the
first one: 38 bytes stand before it, and it is written character by character. -/
theorem deliver_within_room_letter :
    let r : Report := ⟨"a.lox", "é@", .plain, false⟩
    let errors : List LexicalError :=
      [⟨.unexpectedCharacter 'é', ⟨0, 2, 1⟩⟩, ⟨.unexpectedCharacter '@', ⟨2, 3, 1⟩⟩]
    let characters : LexicalError → List (List UInt8) :=
      fun e => (r.error e).map fun c => Text.utf8 [c]
    (∀ e, (characters e).flatten = Text.utf8 (r.error e)) ∧
      (r.deliver 39 errors).complete = false ∧
      r.Delivered errors 39 (r.deliver 39 errors) ∧
      Delivery.ofTexts 39 (errors.flatMap characters) = r.deliver 39 errors := by
  intro r errors characters
  have hCharacters (e : LexicalError) : (characters e).flatten = Text.utf8 (r.error e) := by
    simp [characters, Text.utf8, List.flatMap_def]
  exact ⟨hCharacters, by decide +kernel, (deliver_within_room r errors 39).1,
    (deliver_within_room r errors 39).2 characters hCharacters⟩

/-- Of the letter in the middle only the first byte arrives. -/
example :
    (Report.deliver ⟨"a.lox", "é@", .plain, false⟩ 39
      [⟨.unexpectedCharacter 'é', ⟨0, 2, 1⟩⟩, ⟨.unexpectedCharacter '@', ⟨2, 3, 1⟩⟩]).written =
        Text.utf8 "[line 1] Error: Unexpected character: ".toList ++ [0xC3] := by
  decide +kernel

end LoxLexer
