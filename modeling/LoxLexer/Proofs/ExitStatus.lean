import LoxLexer.CommandLine
import LoxLexer.Proofs.Utf8Sequences

/-!
# The exit status

What a script holds decides how the program ends. Bytes that are no UTF-8 cannot be read, and the
status is 1; any other bytes are one text, and the status is 65 or 0 as the text has lexical errors
or not (`exit_status`). The listing on the standard output is made of the text alone, so it is the
same for both styles and for all names of the file, and the error output is empty exactly if there
are no errors, because a report of an error is never empty in either style.

Where the bytes come from is left open. The program hands the file word on as it was written and
goes on with what is brought (`Outcome.ofWordsM_of_parse`), whatever path the word is and however
the path is followed.
-/

namespace LoxLexer

theorem Excerpt.renderAll_drawing_ne_nil (x : Excerpt) (color : Bool) :
    Piece.renderAll color x.drawing ≠ [] := by
  have hTitle : Piece.renderAll color x.title ≠ [] := by
    cases color
    all_goals exact List.cons_ne_nil _ _
  rw [drawing, Piece.renderAll_append, Piece.renderAll_append, Piece.renderAll_append]
  exact List.append_ne_nil_of_left_ne_nil (List.append_ne_nil_of_left_ne_nil
    (List.append_ne_nil_of_left_ne_nil hTitle _) _) _

theorem Report.error_ne_nil (r : Report) (e : LexicalError) : r.error e ≠ [] := by
  unfold error
  split
  · exact List.append_ne_nil_of_right_ne_nil _ (List.cons_ne_nil _ _)
  · exact Excerpt.renderAll_drawing_ne_nil _ _

/-- A report is empty exactly if there is nothing to report. -/
theorem Report.text_eq_nil_iff (r : Report) (errors : List LexicalError) :
    r.text errors = [] ↔ errors = [] := by
  cases errors with
  | nil => exact iff_of_true rfl rfl
  | cons e errors =>
      have hSome : r.text (e :: errors) ≠ [] := by
        rw [text, List.flatMap_cons]
        exact List.append_ne_nil_of_left_ne_nil (r.error_ne_nil e) _
      exact iff_of_false hSome (List.cons_ne_nil e errors)

theorem Run.report_eq_empty_iff (path source : String) (style : Style) :
    (ofSource path source style).report = "" ↔ (scan source).hasError = false := by
  have hEmpty : (ofSource path source style).report = "" ↔
      Report.text ⟨path, source, style, true⟩ (scan source).errors = [] := String.ofList_inj
  rw [hEmpty, Report.text_eq_nil_iff, Scan.hasError]
  simp

namespace Outcome

/-! ## The two outcomes of a script -/

/-- Once the command line is accepted, all that is left to do is to read the file and to answer. -/
theorem ofWordsM_of_parse {m : Type → Type} [Monad m]
    (read : String → m (Except ReadError ByteArray)) {words : List String} {request : Request}
    (hParse : Request.parse words = .ok request) :
    ofWordsM read words =
      read request.file >>= fun content => pure (ofRequest request content) := by
  rw [ofWordsM, hParse]

theorem ofRequest_of_utf8 (request : Request) {bytes : ByteArray} {source : String}
    (hSource : Text.utf8 source.toList = bytes.data.toList) :
    ofRequest request (.ok bytes) =
      ofRun (Run.ofSource request.file source request.style) := by
  simp only [ofRequest, Except.bind, Script.decode_eq_ok_iff.2 hSource]

theorem ofRequest_of_not_wellFormedBytes (request : Request) {bytes : ByteArray}
    (hBytes : ¬Text.WellFormedBytes bytes.data.toList) :
    ofRequest request (.ok bytes) = ofReadError request.file .notUtf8 := by
  simp only [ofRequest, Except.bind, Script.decode_of_not_wellFormedBytes hBytes]

/-- The status and the listing depend on the bytes of the script alone. -/
theorem ofRequest_agree (request other : Request) (bytes : ByteArray) :
    (ofRequest request (.ok bytes)).status = (ofRequest other (.ok bytes)).status ∧
      (ofRequest request (.ok bytes)).stdout = (ofRequest other (.ok bytes)).stdout := by
  by_cases hBytes : Text.WellFormedBytes bytes.data.toList
  · obtain ⟨cs, hText⟩ := Text.wellFormedBytes_iff.1 hBytes
    rw [← String.toList_ofList (l := cs)] at hText
    rw [ofRequest_of_utf8 request hText, ofRequest_of_utf8 other hText]
    exact ⟨rfl, rfl⟩
  · rw [ofRequest_of_not_wellFormedBytes request hBytes,
      ofRequest_of_not_wellFormedBytes other hBytes]
    exact ⟨rfl, rfl⟩

end Outcome

/-- **The exit status classifies every script.** For an accepted command line the file is read,
whatever its path, and the outcome is made of what it holds. Bytes encode a text exactly if they are
well formed as UTF-8. If they encode none, the status is 1 and nothing is listed. Otherwise they
encode a single text; the status is 65 or 0 as that has lexical errors or not, the error output is
empty only in the second case, and the output lists all tokens of the text, the end among them.
Another command line, in another style or with another name for the same bytes, gives the same
status and listing. -/
theorem exit_status {m : Type → Type} [Monad m] (read : String → m (Except ReadError ByteArray))
    {words : List String} {request : Request} (hParse : Request.parse words = .ok request) :
    (Outcome.ofWordsM read words =
        read request.file >>= fun content => pure (Outcome.ofRequest request content)) ∧
    ∀ bytes : ByteArray,
      ((∃ cs, Text.utf8 cs = bytes.data.toList) ↔ Text.WellFormedBytes bytes.data.toList) ∧
      ((¬∃ cs, Text.utf8 cs = bytes.data.toList) →
        (Outcome.ofRequest request (.ok bytes)).status = 1 ∧
          (Outcome.ofRequest request (.ok bytes)).stdout = "") ∧
      (∀ source : String, Text.utf8 source.toList = bytes.data.toList →
        (∀ cs, Text.utf8 cs = bytes.data.toList → cs = source.toList) ∧
          (Outcome.ofRequest request (.ok bytes)).status =
            (if (scan source).hasError then 65 else 0) ∧
          ((Outcome.ofRequest request (.ok bytes)).stderr = "" ↔
            (scan source).hasError = false) ∧
          (Outcome.ofRequest request (.ok bytes)).stdout =
            String.ofList ((scan source).tokens.flatMap fun t => t.text ++ ['\n'])) ∧
      ∀ (words' : List String) (request' : Request), Request.parse words' = .ok request' →
        (Outcome.ofRequest request' (.ok bytes)).status =
            (Outcome.ofRequest request (.ok bytes)).status ∧
          (Outcome.ofRequest request' (.ok bytes)).stdout =
            (Outcome.ofRequest request (.ok bytes)).stdout := by
  refine ⟨Outcome.ofWordsM_of_parse read hParse, ?_⟩
  intro bytes
  refine ⟨Text.wellFormedBytes_iff.symm, ?_, ?_, ?_⟩
  · intro hNone
    rw [Outcome.ofRequest_of_not_wellFormedBytes request (mt Text.wellFormedBytes_iff.1 hNone)]
    exact ⟨rfl, rfl⟩
  · intro source hSource
    rw [Outcome.ofRequest_of_utf8 request hSource]
    refine ⟨fun cs hText => Text.utf8_injective (hText.trans hSource.symm), ?_,
      Run.report_eq_empty_iff request.file source request.style, rfl⟩
    show (if (!(scan source).hasError) = true then 0 else 65) = _
    cases (scan source).hasError
    · rfl
    · rfl
  · intro words' request' _
    exact Outcome.ofRequest_agree request' request bytes

/-- A script that is the encoding of a surrogate, which is no character, under an absolute path, and
one with an open string behind a character of two bytes, in the directory above. The second has the
same status and the same listing in both styles. -/
theorem exit_status_surrogate :
    let surrogate : ByteArray := [0xed, 0xa0, 0x80].toByteArray
    let letter : ByteArray := [0xc3, 0xa9, 0x22].toByteArray
    let read : String → Id (Except ReadError ByteArray) := fun path =>
      if path = "/tmp/a.lox" then pure (.ok surrogate)
      else if path = "../b.lox" then pure (.ok letter)
      else pure (.error .missing)
    let first := Outcome.ofWordsM read ["tokenize", "/tmp/a.lox"]
    let second := Outcome.ofWordsM read ["tokenize", "../b.lox"]
    let third := Outcome.ofWordsM read ["tokenize", "--diagnostics=pretty", "--", "../b.lox"]
    (Request.parse ["tokenize", "/tmp/a.lox"] = .ok ⟨"/tmp/a.lox", .plain⟩ ∧
        first.run.status = 1 ∧ first.run.stdout = "" ∧
        first.run.stderr = "Error: script `/tmp/a.lox`\n\nCaused by:\n    " ++
          "stream did not contain valid UTF-8\n") ∧
      (Request.parse ["tokenize", "../b.lox"] = .ok ⟨"../b.lox", .plain⟩ ∧
        second.run.status = 65 ∧ second.run.stdout = "EOF  null\n" ∧
        second.run.stderr =
          "[line 1] Error: Unexpected character: é\n[line 1] Error: Unterminated string.\n") ∧
      Request.parse ["tokenize", "--diagnostics=pretty", "--", "../b.lox"] =
          .ok ⟨"../b.lox", .pretty⟩ ∧
        third.run.status = 65 ∧ third.run.stdout = "EOF  null\n" ∧ third.run.stderr ≠ "" := by
  intro surrogate letter read first second third
  have hFirst : Request.parse ["tokenize", "/tmp/a.lox"] = .ok ⟨"/tmp/a.lox", .plain⟩ := by rfl
  have hSecond : Request.parse ["tokenize", "../b.lox"] = .ok ⟨"../b.lox", .plain⟩ := by rfl
  have hThird : Request.parse ["tokenize", "--diagnostics=pretty", "--", "../b.lox"] =
      .ok ⟨"../b.lox", .pretty⟩ := by rfl
  have hNotText : ¬Text.WellFormedBytes surrogate.data.toList :=
    Text.not_wellFormedBytes_surrogate (by decide) [0x80]
  have hText : Text.utf8 "é\"".toList = letter.data.toList := by decide +kernel
  have hErrors : (scan "é\"").hasError = true := by decide +kernel
  have hTokens : String.ofList ((scan "é\"").tokens.flatMap fun t => t.text ++ ['\n']) =
      "EOF  null\n" := by decide +kernel
  refine ⟨⟨hFirst, ?_⟩, ⟨hSecond, ?_⟩, hThird, ?_⟩
  · obtain ⟨hRead, hOutcome⟩ := exit_status read hFirst
    obtain ⟨hEncodes, hNone, -⟩ := hOutcome surrogate
    obtain ⟨hStatus, hListing⟩ := hNone (mt hEncodes.1 hNotText)
    have hFile : first.run = Outcome.ofRequest ⟨"/tmp/a.lox", .plain⟩ (.ok surrogate) := hRead
    rw [hFile]
    refine ⟨hStatus, hListing, ?_⟩
    rw [Outcome.ofRequest_of_not_wellFormedBytes _ hNotText]
    rfl
  · obtain ⟨hRead, hOutcome⟩ := exit_status read hSecond
    obtain ⟨-, -, hSome, -⟩ := hOutcome letter
    obtain ⟨-, hStatus, -, hListing⟩ := hSome "é\"" hText
    have hFile : second.run = Outcome.ofRequest ⟨"../b.lox", .plain⟩ (.ok letter) := hRead
    rw [hFile]
    refine ⟨by rw [hStatus, hErrors]; rfl, hListing.trans hTokens, ?_⟩
    rw [Outcome.ofRequest_of_utf8 _ hText]
    decide +kernel
  · obtain ⟨hRead, hOutcome⟩ := exit_status read hThird
    obtain ⟨-, -, hSome, -⟩ := hOutcome letter
    obtain ⟨-, hStatus, hReport, hListing⟩ := hSome "é\"" hText
    have hFile : third.run = Outcome.ofRequest ⟨"../b.lox", .pretty⟩ (.ok letter) := hRead
    rw [hFile]
    refine ⟨by rw [hStatus, hErrors]; rfl, hListing.trans hTokens, ?_⟩
    rw [Ne, hReport, hErrors]
    decide

end LoxLexer
