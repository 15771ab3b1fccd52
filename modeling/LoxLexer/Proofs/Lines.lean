import LoxLexer.Proofs.Lookahead

/-!
# Lines one after another

A line feed ends every segment but an open string. So if no string is open at the end of a source,
what follows on the next line is scanned as if it stood alone, apart from its place, and what the
source itself amounts to stays the same (`scan_lineFeed`). The source may end in a comment, behind
`12.` or behind a lone `!`: none of them looks past the end of its line.
-/

namespace LoxLexer

namespace Segment

/-- A segment that stops at the end of a source stops there also if a line feed comes next. -/
theorem StopsBefore.lineFeed {s : Segment} {rest : List Char} (hStops : s.StopsBefore rest)
    (hClosed : ∀ text, s ≠ .unterminated text) (more : List Char) :
    s.StopsBefore (rest ++ '\n' :: more) := by
  by_cases hSettled : Settled rest
  · exact (stopsBefore_append_iff hSettled s _).2 hStops
  by_cases hEnd : rest = []
  · subst hEnd
    cases s with
    | blank _ => trivial
    | unexpected _ => trivial
    | comment _ => exact fun c hHead => (Option.some.inj hHead).symm
    | lexeme kind text => exact Kind.stopsBefore_blank (by simp) more
    | unterminated text => exact absurd rfl (hClosed text)
  · -- A number may be followed by a point, but then by no digit.
    obtain rfl : rest = ['.'] := by
      by_contra hOther
      exact hSettled ⟨hEnd, hOther⟩
    have hBreak : Settled ['.', '\n'] := settled_of_two_le_length (by simp)
    refine (stopsBefore_append_iff hBreak s more).2 ?_
    cases s with
    | blank _ => trivial
    | unexpected _ => trivial
    | comment _ => exact hStops
    | unterminated text => exact absurd rfl (hClosed text)
    | lexeme kind text =>
        cases kind
        case number => simp [StopsBefore, Kind.StopsBefore, show ¬Digit '.' by decide,
          show ¬Digit '\n' by decide]
        all_goals exact hStops

/-- A chain without an open string goes on behind a line feed. -/
theorem Chain.append_lineFeed {ss ts : List Segment} (hFirst : Chain ss)
    (hClosed : ∀ s ∈ ss, ∀ text, s ≠ .unterminated text) (hSecond : Chain ts) :
    Chain (ss ++ .blank '\n' :: ts) := by
  induction ss with
  | nil => exact ⟨⟨.blank (by simp), trivial⟩, hSecond⟩
  | cons s ss ih =>
      have hStops := hFirst.1.stops.lineFeed (hClosed s List.mem_cons_self) (ts.flatMap text)
      refine ⟨⟨hFirst.1.wellFormed, ?_⟩,
        ih hFirst.2 fun t hMem => hClosed t (List.mem_cons_of_mem s hMem)⟩
      show s.StopsBefore ((ss ++ .blank '\n' :: ts).flatMap text)
      rw [List.flatMap_append]
      exact hStops

end Segment

theorem ne_unterminated_of_scan {source : String}
    (hClosed : ∀ e ∈ (scan source).errors, e.fault ≠ .unterminatedString) :
    ∀ s ∈ Segment.segments source.toList, ∀ text, s ≠ .unterminated text := by
  rintro s hMem text rfl
  have hFault : Fault.unterminatedString ∈
      (Segment.segments source.toList).filterMap Segment.fault? :=
    List.mem_filterMap.2 ⟨_, hMem, rfl⟩
  rw [← (describes_scan source).map_errors] at hFault
  obtain ⟨e, hError, hUnterminated⟩ := List.mem_map.1 hFault
  exact hClosed e hError hUnterminated

/-- A blank at the end of a row adds nothing but its place. -/
theorem Scan.append_blank (p : Position) (ss : List Segment) (c : Char) (second : Scan) :
    (Scan.ofSegments p (ss ++ [.blank c])).append second =
      (Scan.ofSegments p ss).append second := by
  rw [Scan.append, Scan.append, Scan.dropLast_tokens_ofSegments, Scan.dropLast_tokens_ofSegments]
  simp [Scan.ofSegments, Placed.ofSegments_append, Placed.ofSegments, Placed.token?,
    Placed.error?]

/-- **Lines one after another**: if no string is open at the end of `a`, the scan of `a`, a line
feed and `b` is the scan of `a` without its end, and then the scan of `b` moved behind the line
feed. -/
theorem scan_lineFeed (a b : String)
    (hClosed : ∀ e ∈ (scan a).errors, e.fault ≠ .unterminatedString) :
    scan (a ++ "\n" ++ b) =
      (scan a).append
        ((scan b).shift (Text.byteLength a.toList + 1) (1 + a.toList.count '\n')) := by
  have hChain := (Segment.chain_segments a.toList).append_lineFeed
    (ne_unterminated_of_scan hClosed) (Segment.chain_segments b.toList)
  have hText : (Segment.segments a.toList ++ .blank '\n' :: Segment.segments b.toList).flatMap
      Segment.text = (a ++ "\n" ++ b).toList := by
    rw [List.flatMap_append, List.flatMap_cons, Segment.flatMap_text_segments,
      Segment.flatMap_text_segments]
    simp [Segment.text]
  have hLine : (Segment.segments a.toList ++ [Segment.blank '\n']).flatMap Segment.text =
      a.toList ++ ['\n'] := by
    rw [List.flatMap_append, Segment.flatMap_text_segments]
    rfl
  have hBytes : Text.byteLength (a.toList ++ ['\n']) = Text.byteLength a.toList + 1 := by
    rw [Text.byteLength_append]
    rfl
  have hLines : (a.toList ++ ['\n']).count '\n' = 1 + a.toList.count '\n' := by
    rw [List.count_append, Nat.add_comm]
    rfl
  rw [scan_eq_ofSegments, Segment.segments_eq_iff.2 ⟨hText, hChain⟩, List.append_cons,
    Scan.ofSegments_append, hLine, Position.origin_advance_eq_shift, Scan.ofSegments_shift, hBytes,
    hLines, Scan.append_blank, ← scan_eq_ofSegments, ← scan_eq_ofSegments]

/-- A letter that begins nothing and a lone `!`, and on the next line `=` and an open string. -/
theorem scan_bang_lineFeed :
    (∀ e ∈ (scan "é !").errors, e.fault ≠ .unterminatedString) ∧
      scan ("é !" ++ "\n" ++ "= \"x") =
        (scan "é !").append ((scan "= \"x").shift 5 1) := by
  have hClosed : ∀ e ∈ (scan "é !").errors, e.fault ≠ .unterminatedString := by decide +kernel
  exact ⟨hClosed, scan_lineFeed "é !" "= \"x" hClosed⟩

end LoxLexer
