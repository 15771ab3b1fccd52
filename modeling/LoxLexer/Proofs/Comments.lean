import LoxLexer.Proofs.Lines
import LoxLexer.Proofs.Modes
import Mathlib.Data.List.Forall2

/-!
# Comments say nothing

A comment is put into a source between a text `p` and a line feed, and then its text is changed.
The tokens and errors of the source stay what they are, on their lines, and those behind the comment
move by the difference in bytes (`scan_comment_text`). This needs that no string is open at the end
of `p`, and nothing else: `p` may end in a comment, which then goes on, or in a slash, which then
begins the comment itself.

All these cases are one. Two slashes lead from every mode but that of a string to the mode of a
comment, so the last segment of `p` and the two slashes is a comment, wherever it began
(`exists_segments_slashes`). It has two characters at least, and so the segments before it are
settled; what is put behind the slashes belongs to it up to the line feed.
-/

namespace LoxLexer

/-! ## Where the comment begins -/

/-- Two slashes begin a comment, or stay in one, unless a string is open. -/
theorem Mode.next_slash_slash {m : Mode} (hClosed : m ≠ .string) :
    (m.next '/').next '/' = .comment := by
  cases m
  case string => exact absurd rfl hClosed
  all_goals rfl

theorem after_ne_string {source : String}
    (hClosed : ∀ e ∈ (scan source).errors, e.fault ≠ .unterminatedString) :
    Mode.after source.toList ≠ .string := by
  rw [Ne, after_eq_string_iff]
  rintro ⟨text, hLast⟩
  exact ne_unterminated_of_scan hClosed _ (List.mem_of_getLast? hLast) text rfl

/-- **The comment that two slashes begin**, or that they go on with, is the last segment. -/
theorem exists_segments_slashes {p : String}
    (hClosed : ∀ e ∈ (scan p).errors, e.fault ≠ .unterminatedString) :
    ∃ front line, '\n' ∉ line ∧
      Segment.segments (p ++ "//").toList = front ++ [.comment ('/' :: '/' :: line)] := by
  -- The mode behind a source is that of its last segment.
  have hMode : (Segment.segments (p ++ "//").toList).getLast?.elim .code Segment.mode =
      .comment := by
    rw [← (Segment.chain_segments _).foldl_text (fun _ _ => rfl), Segment.flatMap_text_segments,
      String.toList_append, List.foldl_append]
    exact Mode.next_slash_slash (after_ne_string hClosed)
  cases hLast : (Segment.segments (p ++ "//").toList).getLast? with
  | none =>
      rw [hLast] at hMode
      cases hMode
  | some s =>
      rw [hLast] at hMode
      obtain ⟨text, rfl⟩ := mode_eq_comment_iff.1 hMode
      obtain ⟨front, hSegments⟩ := List.getLast?_eq_some_iff.1 hLast
      have hChain := Segment.chain_segments (p ++ "//").toList
      rw [hSegments] at hChain
      have hComment : (Segment.comment text).WellFormed := hChain.of_append.1.wellFormed
      cases hComment with
      | @comment line hLine => exact ⟨front, line, hLine, hSegments⟩

/-- The segments of a source in which a comment is put: what is before the comment does not depend
on its text, and ends before the two slashes do. -/
theorem exists_segments_comment {p : String}
    (hClosed : ∀ e ∈ (scan p).errors, e.fault ≠ .unterminatedString) :
    ∃ front line, Text.byteLength (front.flatMap Segment.text) ≤ Text.byteLength p.toList ∧
      ∀ b c : String, '\n' ∉ c.toList →
        Segment.segments (p ++ "//" ++ c ++ "\n" ++ b).toList =
          front ++ .comment (line ++ c.toList) :: .blank '\n' :: Segment.segments b.toList := by
  obtain ⟨front, line, hLine, hSegments⟩ := exists_segments_slashes hClosed
  have hText := Segment.flatMap_text_segments (p ++ "//").toList
  have hChain := Segment.chain_segments (p ++ "//").toList
  rw [hSegments] at hText hChain
  refine ⟨front, '/' :: '/' :: line, ?_, ?_⟩
  · have hBytes := congrArg Text.byteLength hText
    have hSlash : '/'.utf8Size = 1 := by decide
    have hSlashes : Text.byteLength "//".toList = 2 := by decide
    simp only [List.flatMap_append, List.flatMap_singleton, Segment.text, String.toList_append,
      Text.byteLength_append, Text.byteLength_cons, hSlash, hSlashes] at hBytes
    omega
  · intro b c hNewLine
    have hSettled : Segment.Settled ([Segment.comment ('/' :: '/' :: line)].flatMap Segment.text) :=
      Segment.settled_of_two_le_length (by simp [Segment.text])
    have hComment : (Segment.comment ('/' :: '/' :: line ++ c.toList)).Complete
        ('\n' :: b.toList) := by
      refine ⟨.comment ?_, fun _ hHead => (Option.some.inj hHead).symm⟩
      simp [hLine, hNewLine]
    have hFeed : (Segment.blank '\n').Complete b.toList := ⟨.blank (by simp), trivial⟩
    have hMore := Segment.segments_append hChain hSettled (c.toList ++ '\n' :: b.toList)
    rw [hText] at hMore
    calc Segment.segments (p ++ "//" ++ c ++ "\n" ++ b).toList
        = Segment.segments ((p ++ "//").toList ++ (c.toList ++ '\n' :: b.toList)) := by simp
      _ = front ++ Segment.segments
            (('/' :: '/' :: line ++ c.toList) ++ '\n' :: b.toList) := by
          rw [hMore]
          simp [Segment.text]
      _ = front ++ .comment ('/' :: '/' :: line ++ c.toList) ::
            Segment.segments ('\n' :: b.toList) :=
          congrArg _ (Segment.segments_text_append hComment)
      _ = front ++ .comment ('/' :: '/' :: line ++ c.toList) :: .blank '\n' ::
            Segment.segments b.toList := by
          rw [show '\n' :: b.toList = (Segment.blank '\n').text ++ b.toList from rfl,
            Segment.segments_text_append hFeed]

/-! ## Scans that differ behind a place -/

/-- Spans of two sources that are equal up to an offset and between which `old` bytes of the first
source are replaced by `new` bytes there: a span that ends before is the same, and any other is
moved by the difference. -/
structure Span.Slides (offset old new : Nat) (s t : Span) : Prop where
  line : t.line = s.line
  before_iff : t.stop ≤ offset ↔ s.stop ≤ offset
  before : s.stop ≤ offset → t = s
  behind : offset < s.stop → t.start + old = s.start + new ∧ t.stop + old = s.stop + new

/-- Scans with the same tokens and errors, on the same lines, whose spans differ behind a place. -/
structure Scan.Slides (offset old new : Nat) (first second : Scan) : Prop where
  tokens : List.Forall₂ (fun t u : Token => u.kind = t.kind ∧ u.lexeme = t.lexeme ∧
    u.literal = t.literal ∧ t.span.Slides offset old new u.span) first.tokens second.tokens
  errors : List.Forall₂ (fun e f : LexicalError => f.fault = e.fault ∧
    e.span.Slides offset old new f.span) first.errors second.errors

theorem Span.slides_refl {offset : Nat} {s : Span} (hBefore : s.stop ≤ offset) (old new : Nat) :
    s.Slides offset old new s where
  line := rfl
  before_iff := Iff.rfl
  before _ := rfl
  behind hBehind := absurd hBefore (Nat.not_le.2 hBehind)

theorem Span.slides_shift {offset bytes : Nat} (hBehind : offset < bytes) (old new lines : Nat)
    (s : Span) :
    (s.shift (bytes + old) lines).Slides offset old new (s.shift (bytes + new) lines) where
  line := rfl
  before_iff := by
    show s.stop + (bytes + new) ≤ offset ↔ s.stop + (bytes + old) ≤ offset
    omega
  before hBefore := by
    have hStop : s.stop + (bytes + old) ≤ offset := hBefore
    omega
  behind _ := by
    show s.start + (bytes + new) + old = s.start + (bytes + old) + new ∧
      s.stop + (bytes + new) + old = s.stop + (bytes + old) + new
    omega

/-- **A scan behind another** slides if it is moved further, and the first one stays. -/
theorem Scan.slides_append {offset bytes old new lines : Nat} {first second : Scan}
    (hTokens : ∀ t ∈ first.tokens.dropLast, t.span.stop ≤ offset)
    (hErrors : ∀ e ∈ first.errors, e.span.stop ≤ offset) (hBehind : offset < bytes) :
    Scan.Slides offset old new (first.append (second.shift (bytes + old) lines))
      (first.append (second.shift (bytes + new) lines)) where
  tokens := by
    refine List.rel_append ?_ ?_
    · exact List.forall₂_same.2 fun t hMem =>
        ⟨rfl, rfl, rfl, Span.slides_refl (hTokens t hMem) old new⟩
    · refine List.forall₂_map_left_iff.2 (List.forall₂_map_right_iff.2 ?_)
      exact List.forall₂_same.2 fun t _ =>
        ⟨rfl, rfl, rfl, Span.slides_shift hBehind old new lines t.span⟩
  errors := by
    refine List.rel_append ?_ ?_
    · exact List.forall₂_same.2 fun e hMem => ⟨rfl, Span.slides_refl (hErrors e hMem) old new⟩
    · refine List.forall₂_map_left_iff.2 (List.forall₂_map_right_iff.2 ?_)
      exact List.forall₂_same.2 fun e _ => ⟨rfl, Span.slides_shift hBehind old new lines e.span⟩

/-- The scan of a source in which a comment is put: what is before the comment, and the scan of what
is behind it, moved to its place. -/
theorem exists_scan_comment {p : String}
    (hClosed : ∀ e ∈ (scan p).errors, e.fault ≠ .unterminatedString) :
    ∃ front, Text.byteLength (front.flatMap Segment.text) ≤ Text.byteLength p.toList ∧
      ∀ b c : String, '\n' ∉ c.toList →
        scan (p ++ "//" ++ c ++ "\n" ++ b) = (Scan.ofSegments .origin front).append
          ((scan b).shift (Text.byteLength p.toList + 3 + Text.byteLength c.toList)
            (p.toList.count '\n' + 1)) := by
  obtain ⟨front, line, hBytes, hSegments⟩ := exists_segments_comment hClosed
  refine ⟨front, hBytes, ?_⟩
  intro b c hNewLine
  have hText := Segment.flatMap_text_segments (p ++ "//" ++ c ++ "\n" ++ b).toList
  rw [hSegments b c hNewLine, List.flatMap_append, List.flatMap_cons, List.flatMap_cons,
    Segment.flatMap_text_segments, ← List.append_assoc, ← List.append_assoc,
    String.toList_append] at hText
  have hBefore := List.append_cancel_right hText
  have hPlace : Position.origin.advance (p ++ "//" ++ c ++ "\n").toList =
      Position.origin.shift (Text.byteLength p.toList + 3 + Text.byteLength c.toList)
        (p.toList.count '\n' + 1) := by
    have hSlash : '/'.utf8Size = 1 := by decide
    have hFeed : '\n'.utf8Size = 1 := by decide
    have hSlashes : "//".toList = ['/', '/'] := rfl
    have hLine : "\n".toList = ['\n'] := rfl
    simp only [Position.origin_advance_eq_shift, String.toList_append, hSlashes, hLine,
      Text.byteLength_append, Text.byteLength_cons, Text.byteLength_nil, hSlash, hFeed,
      List.count_append, List.count_eq_zero.2 hNewLine]
    congr 1
    omega
  rw [scan_eq_ofSegments, hSegments b c hNewLine, Scan.ofSegments_append,
    Scan.ofSegments_cons_comment, Scan.ofSegments_cons_blank, ← Position.advance_append,
    ← Position.advance_append, ← List.append_assoc]
  show (Scan.ofSegments .origin front).append (Scan.ofSegments (Position.origin.advance
    (front.flatMap Segment.text ++ (Segment.comment (line ++ c.toList)).text ++
      (Segment.blank '\n').text)) _) = _
  rw [hBefore, hPlace, Scan.ofSegments_shift, ← scan_eq_ofSegments]

/-- **Comment text is never interpreted.** If no string is open at the end of `p`, sources that
differ in the text of a comment behind `p` have the same tokens and errors on the same lines. The
spans that end in `p` are the same, and all others move by the difference in bytes. -/
theorem scan_comment_text (p b c d : String)
    (hClosed : ∀ e ∈ (scan p).errors, e.fault ≠ .unterminatedString)
    (hFirst : '\n' ∉ c.toList) (hSecond : '\n' ∉ d.toList) :
    Scan.Slides (Text.byteLength p.toList) (Text.byteLength c.toList) (Text.byteLength d.toList)
      (scan (p ++ "//" ++ c ++ "\n" ++ b)) (scan (p ++ "//" ++ d ++ "\n" ++ b)) := by
  obtain ⟨front, hBytes, hScan⟩ := exists_scan_comment hClosed
  rw [hScan b c hFirst, hScan b d hSecond]
  apply Scan.slides_append
  · intro t hMem
    rw [Scan.dropLast_tokens_ofSegments] at hMem
    obtain ⟨q, hPlaced, hToken⟩ := List.mem_filterMap.1 hMem
    rw [(Placed.segment_of_token? hToken).2.2]
    exact (Placed.stop_le hPlaced).trans hBytes
  · intro e hMem
    obtain ⟨q, hPlaced, hError⟩ := List.mem_filterMap.1 hMem
    rw [(Placed.fault_of_error? hError).2.2]
    exact (Placed.stop_le hPlaced).trans hBytes
  · omega

/-- A slash that becomes part of the comment, a quote and a letter of two bytes in the comment, and
an open string on the next line. -/
theorem scan_slash_comment :
    (∀ e ∈ (scan "x /").errors, e.fault ≠ .unterminatedString) ∧ '\n' ∉ "\"é".toList ∧
      '\n' ∉ "".toList ∧
      Scan.Slides 3 3 0 (scan ("x /" ++ "//" ++ "\"é" ++ "\n" ++ "\"y"))
        (scan ("x /" ++ "//" ++ "" ++ "\n" ++ "\"y")) := by
  have hClosed : ∀ e ∈ (scan "x /").errors, e.fault ≠ .unterminatedString := by decide +kernel
  have hFirst : '\n' ∉ "\"é".toList := by decide
  have hSecond : '\n' ∉ "".toList := by decide
  exact ⟨hClosed, hFirst, hSecond, scan_comment_text "x /" "\"y" "\"é" "" hClosed hFirst hSecond⟩

end LoxLexer
