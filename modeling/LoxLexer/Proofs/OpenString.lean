import LoxLexer.Proofs.Lookahead
import LoxLexer.Proofs.Modes

/-!
# Closing an open string

A string that is never closed takes the rest of its source, and is an error. A quote behind the
source closes it. What stands before the string is settled by the quote that opens it, so its
segments stay as they are, and the open string becomes a closed one (`segments_append_quote`).

So the two scans have the same tokens before the string and the same errors before that of the
string. In place of this error there is a token for the same text and the closing quote, and the
end moves by one byte and stays on its line (`scan_append_quote`). The line of the error is that of
the end of the source, the line of the token that of its first quote.
-/

namespace LoxLexer

/-- **The scan of a source whose last segment is known**: what that is placed as comes last, and the
end of the source behind it. -/
theorem scan_of_segments_concat {source : String} {front : List Segment} {s : Segment}
    (hSegments : Segment.segments source.toList = front ++ [s]) :
    scan source =
      ⟨(Placed.ofSegments .origin front).filterMap Placed.token? ++
          ((Placed.token? ⟨s, Position.origin.advance (front.flatMap Segment.text)⟩).toList ++
            [Token.endOfFile (Position.origin.advance source.toList)]),
        (Placed.ofSegments .origin front).filterMap Placed.error? ++
          (Placed.error? ⟨s, Position.origin.advance (front.flatMap Segment.text)⟩).toList⟩ := by
  have hText := Segment.flatMap_text_segments source.toList
  rw [hSegments, List.flatMap_append, List.flatMap_singleton] at hText
  rw [scan_eq_ofSegments, hSegments, Scan.ofSegments_append, Scan.append,
    Scan.dropLast_tokens_ofSegments, Scan.ofSegments_cons, ← hText, Position.advance_append]
  simp [Scan.ofSegments, Placed.ofSegments]

/-- **The closing quote** makes a string of the open one that a source ends with. -/
theorem segments_append_quote {source : String} {front : List Segment} {body : List Char}
    (hSegments : Segment.segments source.toList = front ++ [.unterminated ('"' :: body)]) :
    Segment.segments (source ++ "\"").toList =
      front ++ [.lexeme .string ('"' :: body ++ ['"'])] := by
  have hChain := Segment.chain_segments source.toList
  rw [hSegments] at hChain
  have hLast : (Segment.unterminated ('"' :: body)).WellFormed := hChain.of_append.1.wellFormed
  cases hLast with
  | unterminated hOpen =>
      have hSettled : Segment.Settled
          ([Segment.unterminated ('"' :: body)].flatMap Segment.text) :=
        Segment.settled_of_mem (c := '"') List.mem_cons_self (by decide)
      have hString : (Segment.lexeme .string ('"' :: body ++ ['"'])).Complete [] :=
        (Segment.WellFormed.lexeme (.string hOpen)).complete_nil
      have hText : [Segment.unterminated ('"' :: body)].flatMap Segment.text ++ "\"".toList =
          (Segment.lexeme .string ('"' :: body ++ ['"'])).text ++ [] := by
        simp [Segment.text]
      rw [Segment.segments_string_append hSegments hSettled, hText,
        Segment.segments_text_append hString, Segment.segments_nil]

/-- The error of an open string is on the last line of its source. -/
theorem Placed.error?_unterminated (before body : List Char) :
    Placed.error? ⟨.unterminated ('"' :: body), Position.origin.advance before⟩ =
      some ⟨.unterminatedString, ⟨Text.byteLength before, Text.byteLength (before ++ '"' :: body),
        lineAfter (before ++ '"' :: body)⟩⟩ :=
  Placed.error?_fault rfl before

/-- The token of a closed string is on the line of its first quote. -/
theorem Placed.token?_string (before : List Char) {body : List Char} (hClosed : '"' ∉ body) :
    Placed.token? ⟨.lexeme .string ('"' :: body ++ ['"']), Position.origin.advance before⟩ =
      some ⟨.string, "\"" ++ String.ofList body ++ "\"", some (.string (String.ofList body)),
        ⟨Text.byteLength before, Text.byteLength (before ++ '"' :: body) + 1,
          1 + before.count '\n'⟩⟩ := by
  have hBytes : Text.byteLength (before ++ ('"' :: body ++ ['"'])) =
      Text.byteLength (before ++ '"' :: body) + 1 := by
    rw [← List.append_assoc, Text.byteLength_append _ ['"']]
    rfl
  have hText : String.ofList ('"' :: body ++ ['"']) = "\"" ++ String.ofList body ++ "\"" := by
    apply String.ext
    simp
  rw [Placed.token?_lexeme (.string hClosed), hBytes, hText]
  rfl

/-- **A quote repairs an open string** and nothing else. Without it the source has the error, which
begins at the quote that opens the string and ends with the source; with it there is a token
instead, whose value is the text behind the first quote as it stands. All tokens and errors before
it are the same, and the end is one byte further on, on the same line. -/
theorem scan_append_quote (source : String) {e : LexicalError}
    (hMem : e ∈ (scan source).errors) (hFault : e.fault = .unterminatedString) :
    ∃ (before body : String) (tokens : List Token) (errors : List LexicalError) (line : Nat),
      before ++ "\"" ++ body = source ∧
      e = ⟨.unterminatedString,
        ⟨Text.byteLength before.toList, Text.byteLength source.toList, line⟩⟩ ∧
      scan source =
        ⟨tokens ++ [Token.endOfFile ⟨Text.byteLength source.toList, line⟩], errors ++ [e]⟩ ∧
      scan (source ++ "\"") =
        ⟨tokens ++
            [⟨.string, "\"" ++ body ++ "\"", some (.string body),
                ⟨Text.byteLength before.toList, Text.byteLength source.toList + 1,
                  1 + before.toList.count '\n'⟩⟩,
              Token.endOfFile ⟨Text.byteLength source.toList + 1, line⟩],
          errors⟩ := by
  obtain ⟨front, text, hSegments, hError⟩ := exists_segments_of_unterminated hMem hFault
  have hChain := Segment.chain_segments source.toList
  have hText := Segment.flatMap_text_segments source.toList
  rw [hSegments] at hChain hText
  have hLast : (Segment.unterminated text).WellFormed := hChain.of_append.1.wellFormed
  cases hLast with
  | @unterminated body hOpen =>
      rw [List.flatMap_append, List.flatMap_singleton] at hText
      have hSource : front.flatMap Segment.text ++ '"' :: body = source.toList := hText
      have hScan := scan_of_segments_concat hSegments
      have hClosed := scan_of_segments_concat (segments_append_quote hSegments)
      rw [Placed.error?_unterminated, hSource] at hScan hError
      rw [Placed.token?_string _ hOpen, hSource] at hClosed
      have hEnd : Position.origin.advance (source ++ "\"").toList =
          ⟨Text.byteLength source.toList + 1, lineAfter source.toList⟩ := by
        rw [String.toList_append, origin_advance, Text.byteLength_append]
        exact congrArg _ (lineAfter_append_singleton (by decide))
      rw [hEnd] at hClosed
      obtain rfl := Option.some.inj hError
      refine ⟨String.ofList (front.flatMap Segment.text), String.ofList body,
        (Placed.ofSegments .origin front).filterMap Placed.token?,
        (Placed.ofSegments .origin front).filterMap Placed.error?,
        lineAfter source.toList, ?_, ?_, ?_, ?_⟩
      · apply String.ext
        simp [← hSource]
      · rw [String.toList_ofList]
      · rw [hScan, origin_advance source.toList]
        rfl
      · have hNoError (p : Position) :
            Placed.error? ⟨.lexeme .string ('"' :: body ++ ['"']), p⟩ = none := rfl
        rw [hClosed, hNoError, String.toList_ofList]
        exact congrArg _ (List.append_nil _)

/-- Behind an unexpected character, an open string with a letter of two bytes, a line feed and what
would be a comment elsewhere. -/
theorem scan_append_quote_lines :
    (⟨.unterminatedString, ⟨2, 9, 2⟩⟩ : LexicalError) ∈ (scan "@ \"é\n//x").errors ∧
      ∃ tokens errors,
        scan "@ \"é\n//x" =
          ⟨tokens ++ [Token.endOfFile ⟨9, 2⟩], errors ++ [⟨.unterminatedString, ⟨2, 9, 2⟩⟩]⟩ ∧
        scan ("@ \"é\n//x" ++ "\"") =
          ⟨tokens ++ [⟨.string, "\"" ++ "é\n//x" ++ "\"", some (.string "é\n//x"), ⟨2, 10, 1⟩⟩,
            Token.endOfFile ⟨10, 2⟩], errors⟩ := by
  have hMem : (⟨.unterminatedString, ⟨2, 9, 2⟩⟩ : LexicalError) ∈ (scan "@ \"é\n//x").errors := by
    decide +kernel
  obtain ⟨before, body, tokens, errors, line, hText, hPlace, hScan, hClosed⟩ :=
    scan_append_quote "@ \"é\n//x" hMem rfl
  injection hPlace with _ hSpan
  injection hSpan with hStart hStop hLine
  have hParts : before.toList ++ ('"' :: body.toList) =
      ['@', ' '] ++ ['"', 'é', '\n', '/', '/', 'x'] := by
    have hLists := congrArg String.toList hText
    simpa using hLists
  obtain ⟨hBefore, hRest⟩ := Text.append_inj_of_byteLength hParts hStart.symm
  obtain rfl : before = "@ " := String.ext hBefore
  obtain rfl : body = "é\n//x" := String.ext (List.cons.inj hRest).2
  subst hLine
  exact ⟨hMem, tokens, errors, hScan, hClosed⟩

end LoxLexer
