import LoxLexer.Proofs.Placement
import Mathlib.Data.List.Basic

/-!
# What text behind a source can change

Where a segment ends is decided by what follows it, and of that by two characters at most. One
character is enough unless it is a point: a point ends a number if no digit follows it. So a rest
that is neither empty nor a single point (`Segment.Settled`) tells whether a segment stops there,
and no text behind it matters (`Segment.stopsBefore_append_iff`).

It follows that what is read before a settled rest is read in the same way when more text is
appended (`Segment.segments_append`). A token with two characters behind it stays what it is, and
so does every unexpected character, because it is itself a rest that settles what is before it
(`scan_append_settled`).
-/

namespace LoxLexer

namespace Segment

/-- A rest that tells, whatever is appended to it, whether a segment stops before it. -/
structure Settled (rest : List Char) : Prop where
  ne_nil : rest ≠ []
  ne_point : rest ≠ ['.']

theorem settled_of_two_le_length {rest : List Char} (hLength : 2 ≤ rest.length) : Settled rest := by
  constructor
  · rintro rfl
    simp at hLength
  · rintro rfl
    simp at hLength

theorem settled_of_mem {rest : List Char} {c : Char} (hMem : c ∈ rest) (hPoint : c ≠ '.') :
    Settled rest := by
  constructor
  · exact List.ne_nil_of_mem hMem
  · rintro rfl
    exact hPoint (List.mem_singleton.1 hMem)

theorem Settled.append_left {rest : List Char} (hSettled : Settled rest) (before : List Char) :
    Settled (before ++ rest) := by
  refine ⟨List.append_ne_nil_of_right_ne_nil before hSettled.ne_nil, ?_⟩
  intro hPoint
  rcases List.append_eq_singleton_iff.1 hPoint with ⟨-, hRest⟩ | ⟨-, hRest⟩
  · exact hSettled.ne_point hRest
  · exact hSettled.ne_nil hRest

/-- A number is the one kind that looks at two characters. -/
private theorem stopsBefore_number_append_iff {text rest : List Char} (hSettled : Settled rest)
    (more : List Char) :
    Kind.number.StopsBefore text (rest ++ more) ↔ Kind.number.StopsBefore text rest := by
  obtain ⟨c, tail, rfl⟩ := List.exists_cons_of_ne_nil hSettled.ne_nil
  cases tail with
  | nil =>
      have hPoint : c ≠ '.' := fun hEq => hSettled.ne_point (by rw [hEq])
      simp [Kind.StopsBefore, hPoint]
  | cons d tail => simp [Kind.StopsBefore]

/-- **A settled rest decides**: whether a segment stops before it does not depend on the text
behind it. -/
theorem stopsBefore_append_iff {rest : List Char} (hSettled : Settled rest) (s : Segment)
    (more : List Char) : s.StopsBefore (rest ++ more) ↔ s.StopsBefore rest := by
  have hHead : (rest ++ more).head? = rest.head? := by
    obtain ⟨c, tail, rfl⟩ := List.exists_cons_of_ne_nil hSettled.ne_nil
    rfl
  cases s with
  | blank _ => exact Iff.rfl
  | unexpected _ => exact Iff.rfl
  | comment _ => simp only [StopsBefore, hHead]
  | unterminated _ => simp [StopsBefore, hSettled.ne_nil]
  | lexeme kind text =>
      cases kind
      case number => exact stopsBefore_number_append_iff hSettled more
      all_goals simp only [StopsBefore, Kind.StopsBefore, hHead]

theorem Complete.append {s : Segment} {rest : List Char} (hComplete : s.Complete rest)
    (hSettled : Settled rest) (more : List Char) : s.Complete (rest ++ more) :=
  ⟨hComplete.wellFormed, (stopsBefore_append_iff hSettled s more).2 hComplete.stops⟩

/-- **What is read before a settled rest** is read in the same way if text is appended. -/
theorem segments_append {front back : List Segment} (hChain : Chain (front ++ back))
    (hSettled : Settled (back.flatMap text)) (more : List Char) :
    segments ((front ++ back).flatMap text ++ more) =
      front ++ segments (back.flatMap text ++ more) := by
  induction front with
  | nil => rfl
  | cons s front ih =>
      have hComplete : s.Complete ((front ++ back).flatMap text) := hChain.1
      have hSettledRest : Settled ((front ++ back).flatMap text) := by
        rw [List.flatMap_append]
        exact hSettled.append_left _
      rw [List.cons_append, List.flatMap_cons, List.append_assoc,
        segments_text_append (hComplete.append hSettledRest more), ih hChain.2, List.cons_append]

/-- The segments of a source before a settled rest stay its first segments. -/
theorem segments_string_append {a : String} {front back : List Segment}
    (hSegments : segments a.toList = front ++ back) (hSettled : Settled (back.flatMap text))
    (b : String) :
    segments (a ++ b).toList = front ++ segments (back.flatMap text ++ b.toList) := by
  have hChain := chain_segments a.toList
  have hText := flatMap_text_segments a.toList
  rw [hSegments] at hChain hText
  rw [String.toList_append, ← hText]
  exact segments_append hChain hSettled b.toList

end Segment

/-! ## Tokens -/

/-- A token of a source is made of a segment, behind those that make the tokens before it. -/
theorem exists_segment_of_token {source : String} {i : Nat} {t : Token}
    (hToken : (scan source).tokens[i]? = some t) (hKind : t.kind ≠ .endOfFile) :
    ∃ front s back, Segment.segments source.toList = front ++ s :: back ∧
      ((Placed.ofSegments .origin front).filterMap Placed.token?).length = i ∧
      Placed.token? ⟨s, Position.origin.advance (front.flatMap Segment.text)⟩ = some t := by
  apply Placed.getElem?_filterMap_eq_some_iff.1
  rw [scan_eq_ofSegments, Scan.ofSegments, List.getElem?_append] at hToken
  split at hToken
  case isTrue => exact hToken
  case isFalse =>
      -- The only token behind those of the segments is the end.
      obtain rfl := List.mem_singleton.1 (List.mem_of_getElem? hToken)
      exact absurd rfl hKind

/-- A token that is made of one of the segments of a source is at its place among the tokens. -/
theorem getElem?_tokens_of_segment {source : String} {front back : List Segment} {s : Segment}
    {t : Token} (hSegments : Segment.segments source.toList = front ++ s :: back)
    (hToken : Placed.token? ⟨s, Position.origin.advance (front.flatMap Segment.text)⟩ = some t) :
    (scan source).tokens[((Placed.ofSegments .origin front).filterMap Placed.token?).length]? =
      some t := by
  have hMade := Placed.getElem?_filterMap_eq_some_iff.2
    ⟨front, s, back, hSegments, rfl, hToken⟩
  obtain ⟨hIndex, -⟩ := List.getElem?_eq_some_iff.1 hMade
  rw [scan_eq_ofSegments, Scan.ofSegments, List.getElem?_append_left hIndex]
  exact hMade

/-! ## Errors -/

/-- Whether a fault is that of a character which begins nothing. -/
def Fault.isUnexpected : Fault → Bool
  | unexpectedCharacter _ => true
  | unterminatedString => false

/-- The error of an unexpected character. -/
def Placed.unexpected? (q : Placed) : Option LexicalError :=
  q.error?.filter fun e => e.fault.isUnexpected

theorem Placed.segment_of_unexpected? {q : Placed} {e : LexicalError}
    (hError : q.unexpected? = some e) : ∃ c, q.segment = .unexpected c := by
  unfold unexpected? error? at hError
  split at hError
  case h_1 c hSegment => exact ⟨c, hSegment⟩
  case h_2 => cases hError
  case h_3 => cases hError

theorem Placed.unexpected?_eq_error? {q : Placed} (hClosed : ∀ text, q.segment ≠ .unterminated text) :
    q.unexpected? = q.error? := by
  unfold unexpected? error?
  split
  case h_1 => rfl
  case h_2 text hSegment => exact absurd hSegment (hClosed text)
  case h_3 => rfl

theorem filter_errors_scan (source : String) :
    (scan source).errors.filter (fun e => e.fault.isUnexpected) =
      (Placed.ofSegments .origin (Segment.segments source.toList)).filterMap
        Placed.unexpected? := by
  rw [scan_eq_ofSegments]
  exact List.filter_filterMap

namespace Segment

/-- An unexpected character settles what is before it. -/
theorem WellFormed.settled {c : Char} (hWellFormed : (Segment.unexpected c).WellFormed)
    (rest : List Char) : Settled (c :: rest) := by
  refine settled_of_mem List.mem_cons_self ?_
  cases hWellFormed with
  | unexpected _ hNone =>
      rintro rfl
      exact hNone .dot rfl

end Segment

/-! ## What stays -/

/-- **A token that two characters follow stays** if text is appended. -/
theorem getElem?_tokens_append {a : String} {i : Nat} {t : Token} {before rest : List Char}
    (hToken : (scan a).tokens[i]? = some t) (hKind : t.kind ≠ .endOfFile)
    (hParts : before ++ rest = a.toList) (hStop : Text.byteLength before = t.span.stop)
    (hTwo : 2 ≤ rest.length) (b : String) : (scan (a ++ b)).tokens[i]? = some t := by
  obtain ⟨front, s, back, hSegments, rfl, hMade⟩ := exists_segment_of_token hToken hKind
  rw [List.append_cons] at hSegments
  have hText := Segment.flatMap_text_segments a.toList
  rw [hSegments, List.flatMap_append, ← hParts] at hText
  have hBytes : Text.byteLength ((front ++ [s]).flatMap Segment.text) = Text.byteLength before := by
    rw [hStop, (Placed.segment_of_token? hMade).2.2, Placed.stop, ← Position.advance_append,
      List.flatMap_append, List.flatMap_singleton]
    exact (Nat.zero_add _).symm
  have hRest := (Text.append_inj_of_byteLength hText hBytes).2
  have hSettled : Segment.Settled (back.flatMap Segment.text) :=
    Segment.settled_of_two_le_length (hRest ▸ hTwo)
  have hLonger := Segment.segments_string_append hSegments hSettled b
  rw [← List.append_cons] at hLonger
  exact getElem?_tokens_of_segment hLonger hMade

/-- **The unexpected characters stay**, in their order and before any other error. -/
theorem unexpected_errors_prefix (a b : String) :
    (scan a).errors.filter (fun e => e.fault.isUnexpected) <+: (scan (a ++ b)).errors := by
  rw [filter_errors_scan, List.prefix_iff_getElem?]
  intro i hIndex
  obtain ⟨front, s, back, hSegments, hFront, hMade⟩ :=
    Placed.getElem?_filterMap_eq_some_iff.1 (List.getElem?_eq_getElem hIndex)
  obtain ⟨c, rfl⟩ := Placed.segment_of_unexpected? hMade
  have hChain := Segment.chain_segments a.toList
  rw [hSegments] at hChain
  have hUnexpected : (Segment.unexpected c).WellFormed := hChain.of_append.1.wellFormed
  have hLonger := Segment.segments_string_append hSegments (hUnexpected.settled _) b
  rw [List.flatMap_cons, List.append_assoc,
    Segment.segments_text_append ⟨hUnexpected, trivial⟩] at hLonger
  -- No string is open before an unexpected character, so no other error comes in between.
  have hErrors : (Placed.ofSegments .origin front).filterMap Placed.unexpected? =
      (Placed.ofSegments .origin front).filterMap Placed.error? := by
    apply List.filterMap_congr
    intro q hMem
    obtain ⟨before, after, rfl, -⟩ := Placed.mem_ofSegments_iff.1 hMem
    exact Placed.unexpected?_eq_error? (hChain.ne_unterminated q.segment (by simp))
  rw [scan_eq_ofSegments]
  apply Placed.getElem?_filterMap_eq_some_iff.2
  refine ⟨front, .unexpected c, _, hLonger, ?_, ?_⟩
  · rw [← hErrors, hFront]
  · rw [← Placed.unexpected?_eq_error? (by simp), hMade]

/-- **Bounded lookahead.** Text behind a source changes no token that two characters follow in it,
and no error of an unexpected character: these stay the first errors. -/
theorem scan_append_settled (a b : String) :
    (∀ (i : Nat) (t : Token) (before rest : List Char), (scan a).tokens[i]? = some t →
        t.kind ≠ .endOfFile → before ++ rest = a.toList →
        Text.byteLength before = t.span.stop → 2 ≤ rest.length →
        (scan (a ++ b)).tokens[i]? = some t) ∧
      (scan a).errors.filter (fun e => e.fault.isUnexpected) <+: (scan (a ++ b)).errors := by
  refine ⟨?_, unexpected_errors_prefix a b⟩
  intro i t before rest hToken hKind hParts hStop hTwo
  exact getElem?_tokens_append hToken hKind hParts hStop hTwo b

/-- A digit that a point and a letter follow. -/
theorem scan_append_digit :
    (scan "1.x$").tokens[0]? = some ⟨.number, "1", some (.number (.nearest ⟨1, 0⟩)), ⟨0, 1, 1⟩⟩ ∧
      ['1'] ++ ['.', 'x', '$'] = "1.x$".toList ∧
      (scan ("1.x$" ++ "5")).tokens[0]? =
        some ⟨.number, "1", some (.number (.nearest ⟨1, 0⟩)), ⟨0, 1, 1⟩⟩ ∧
      (scan "1.x$").errors.filter (fun e => e.fault.isUnexpected) <+:
        (scan ("1.x$" ++ "5")).errors := by
  have hToken : (scan "1.x$").tokens[0]? =
      some ⟨.number, "1", some (.number (.nearest ⟨1, 0⟩)), ⟨0, 1, 1⟩⟩ := by decide +kernel
  obtain ⟨hTokens, hErrors⟩ := scan_append_settled "1.x$" "5"
  exact ⟨hToken, rfl,
    hTokens 0 _ ['1'] ['.', 'x', '$'] hToken (by simp) rfl (by decide) (by simp), hErrors⟩

/-- One character behind a token is not enough: a digit may follow a point. -/
example : (scan "1.").tokens[0]? ≠ (scan ("1." ++ "5")).tokens[0]? := by decide +kernel

end LoxLexer
