import LoxLexer.Proofs.Placement

/-!
# Scanning again from a boundary

A segment looks at the text behind it only to see whether it has to stop. With less text there it
stops all the more (`Segment.Complete.of_append`), and so the segments before a place between two
segments are those of the text before that place, as the segments behind it are those of the text
behind it. The source can be cut there: the scan of the first part without its end, and then the
scan of the second part moved behind the first, is the scan of the source
(`scan_eq_append_of_segments`).

Every token and every error begins and ends between segments, and the end of the source is behind
the last of them (`exists_segments_of_boundary`). So a scan can be taken up again wherever one of
its spans begins or ends, with no more than the number of bytes and line feeds before that place
(`scan_restart`).
-/

namespace LoxLexer

namespace Segment

/-- **A segment that stops before a text** stops before any beginning of it. -/
theorem Complete.of_append {s : Segment} {rest more : List Char}
    (hComplete : s.Complete (rest ++ more)) : s.Complete rest := by
  cases rest with
  | nil => exact hComplete.wellFormed.complete_nil
  | cons c rest =>
      obtain ⟨hWellFormed, hStops⟩ := hComplete
      refine ⟨hWellFormed, ?_⟩
      cases s with
      | blank _ => trivial
      | unexpected _ => trivial
      | comment _ => exact hStops
      | unterminated _ => cases hStops
      | lexeme kind text =>
          cases kind
          case number =>
              -- The digit that would go on with a number is in the longer text as well.
              obtain ⟨hDigit, hFraction⟩ := hStops
              refine ⟨hDigit, ?_⟩
              intro hNoPoint d ds hRest
              apply hFraction hNoPoint d (ds ++ more)
              rw [hRest, List.cons_append, List.cons_append]
          all_goals exact hStops

/-- The first part of a chain is a chain. -/
theorem Chain.of_append_left {front back : List Segment} (hChain : Chain (front ++ back)) :
    Chain front := by
  induction front with
  | nil => trivial
  | cons s front ih =>
      have hComplete : s.Complete ((front ++ back).flatMap text) := hChain.1
      rw [List.flatMap_append] at hComplete
      exact ⟨hComplete.of_append, ih hChain.2⟩

end Segment

/-- **A source that is cut between two segments** is scanned as its two parts in a row. -/
theorem scan_eq_append_of_segments {source : String} {front back : List Segment}
    (hSegments : Segment.segments source.toList = front ++ back) :
    scan source =
      (scan (String.ofList (front.flatMap Segment.text))).append
        ((scan (String.ofList (back.flatMap Segment.text))).shift
          (Text.byteLength (front.flatMap Segment.text))
          ((front.flatMap Segment.text).count '\n')) := by
  have hChain := Segment.chain_segments source.toList
  rw [hSegments] at hChain
  have hFront : scan (String.ofList (front.flatMap Segment.text)) =
      Scan.ofSegments .origin front := by
    rw [scan_eq_ofSegments, String.toList_ofList,
      Segment.segments_flatMap_text hChain.of_append_left]
  have hBack : scan (String.ofList (back.flatMap Segment.text)) =
      Scan.ofSegments .origin back := by
    rw [scan_eq_ofSegments, String.toList_ofList, Segment.segments_flatMap_text hChain.of_append]
  rw [hFront, hBack, scan_eq_ofSegments, hSegments, Scan.ofSegments_append,
    Position.origin_advance_eq_shift, Scan.ofSegments_shift]

/-! ## Boundaries -/

/-- The offsets at which a token or an error of a scan begins or ends. -/
def Scan.Boundary (s : Scan) (offset : Nat) : Prop :=
  (∃ t ∈ s.tokens, offset = t.span.start ∨ offset = t.span.stop) ∨
    ∃ e ∈ s.errors, offset = e.span.start ∨ offset = e.span.stop

/-- The segments before the beginning, or before the end, of a placed one. -/
theorem Placed.exists_split {ss : List Segment} {q : Placed} (hMem : q ∈ ofSegments .origin ss)
    {offset : Nat} (hPlace : offset = q.start.offset ∨ offset = q.stop.offset) :
    ∃ front back, ss = front ++ back ∧ Text.byteLength (front.flatMap Segment.text) = offset := by
  obtain ⟨front, back, hRow, hStart⟩ := mem_ofSegments_iff.1 hMem
  have hBytes (text : List Char) : (Position.origin.advance text).offset = Text.byteLength text :=
    Nat.zero_add _
  cases hPlace with
  | inl hBegins =>
      rw [hStart, hBytes] at hBegins
      exact ⟨front, q.segment :: back, hRow, hBegins.symm⟩
  | inr hEnds =>
      have hText : (front ++ [q.segment]).flatMap Segment.text =
          front.flatMap Segment.text ++ q.segment.text := by
        rw [List.flatMap_append, List.flatMap_singleton]
      rw [stop, hStart, ← Position.advance_append, ← hText, hBytes] at hEnds
      rw [List.append_cons] at hRow
      exact ⟨front ++ [q.segment], back, hRow, hEnds.symm⟩

/-- **A boundary is between segments**: the text of those before it leads to it. -/
theorem exists_segments_of_boundary {source : String} {offset : Nat}
    (hBoundary : (scan source).Boundary offset) :
    ∃ front back, Segment.segments source.toList = front ++ back ∧
      Text.byteLength (front.flatMap Segment.text) = offset := by
  cases hBoundary with
  | inl hToken =>
      obtain ⟨t, hMem, hPlace⟩ := hToken
      cases List.mem_append.1 hMem with
      | inl hMade =>
          obtain ⟨q, hPlaced, hToken⟩ := List.mem_filterMap.1 hMade
          obtain ⟨-, hStart, hStop⟩ := Placed.segment_of_token? hToken
          rw [hStart, hStop] at hPlace
          exact Placed.exists_split hPlaced hPlace
      | inr hEnd =>
          rw [List.mem_singleton.1 hEnd] at hPlace
          have hOffset : offset = 0 + Text.byteLength source.toList := or_self_iff.1 hPlace
          refine ⟨Segment.segments source.toList, [], (List.append_nil _).symm, ?_⟩
          rw [Segment.flatMap_text_segments, hOffset, Nat.zero_add]
  | inr hError =>
      obtain ⟨e, hMem, hPlace⟩ := hError
      obtain ⟨q, hPlaced, hError⟩ := List.mem_filterMap.1 hMem
      obtain ⟨-, hStart, hStop⟩ := Placed.fault_of_error? hError
      rw [hStart, hStop] at hPlace
      exact Placed.exists_split hPlaced hPlace

/-- **A scan can be taken up again at any boundary.** The source falls into the text before the
boundary and the text behind it, and its scan is that of the first without its end, and then that
of the second, moved by the bytes and the line feeds of the first. -/
theorem scan_restart (source : String) {offset : Nat}
    (hBoundary : (scan source).Boundary offset) :
    ∃ before rest : String, before ++ rest = source ∧ Text.byteLength before.toList = offset ∧
      scan source = (scan before).append ((scan rest).shift offset (before.toList.count '\n')) := by
  obtain ⟨front, back, hSegments, rfl⟩ := exists_segments_of_boundary hBoundary
  have hText := Segment.flatMap_text_segments source.toList
  rw [hSegments, List.flatMap_append] at hText
  refine ⟨String.ofList (front.flatMap Segment.text), String.ofList (back.flatMap Segment.text),
    ?_, ?_, ?_⟩
  · rw [← String.ofList_append, hText, String.ofList_toList]
  · rw [String.toList_ofList]
  · rw [String.toList_ofList]
    exact scan_eq_append_of_segments hSegments

/-- Between a number and the point behind it, on the second line of a source that begins with a
letter of two bytes. -/
theorem scan_restart_point :
    (scan "é!\n12.x").Boundary 6 ∧
      scan "é!\n12.x" = (scan "é!\n12").append ((scan ".x").shift 6 1) := by
  have hBoundary : (scan "é!\n12.x").Boundary 6 := by
    refine .inl ⟨⟨.dot, ".", none, ⟨6, 7, 2⟩⟩, ?_, .inl rfl⟩
    decide +kernel
  obtain ⟨before, rest, hText, hBytes, hScan⟩ := scan_restart "é!\n12.x" hBoundary
  have hParts : before.toList ++ rest.toList = ['é', '!', '\n', '1', '2'] ++ ['.', 'x'] := by
    rw [← String.toList_append, hText]
    rfl
  obtain ⟨hBefore, hRest⟩ := Text.append_inj_of_byteLength hParts (by rw [hBytes]; decide)
  obtain rfl : before = "é!\n12" := String.ext hBefore
  obtain rfl : rest = ".x" := String.ext hRest
  exact ⟨hBoundary, hScan⟩

/-- Inside a token a scan cannot be taken up again. -/
example : scan "!=" ≠ (scan "!").append ((scan "=").shift 1 0) := by decide +kernel

end LoxLexer
