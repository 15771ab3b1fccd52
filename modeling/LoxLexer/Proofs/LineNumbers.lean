import LoxLexer.Proofs.Marks

/-!
# Line numbers

The line of a token, and of an unexpected character, is one more than the number of line feeds in
the source before it, whether they stand in strings, in comments or between lexemes. An open string
takes the rest of the source, and is noticed only at its end, so its line counts all line feeds of
the source. `Mark.NumberedBy` says which text is counted, and `scan_line_numbers` that each line
number is right.

Two lists of one scan are numbered from different positions, tokens from where their segments begin
and errors from where they end. Both kinds of positions follow the order of the segments
(`Placed.pairwise_behind`), so that neither list ever goes back to an earlier line.
-/

namespace LoxLexer

/-- The text of a source whose line feeds the line of a mark counts. -/
inductive Mark.NumberedBy (cs : List Char) : Mark → List Char → Prop where
  | token {t : Token} {before : List Char}
      (hBefore : Text.takeBytes? t.span.start cs = some before) : NumberedBy cs (.token t) before
  | unexpected {e : LexicalError} {c : Char} {before : List Char}
      (hFault : e.fault = .unexpectedCharacter c)
      (hBefore : Text.takeBytes? e.span.start cs = some before) : NumberedBy cs (.error e) before
  | unterminated {e : LexicalError} (hFault : e.fault = .unterminatedString) :
      NumberedBy cs (.error e) cs

theorem Mark.NumberedBy.unique {cs first second : List Char} {m : Mark}
    (hFirst : m.NumberedBy cs first) (hSecond : m.NumberedBy cs second) : first = second := by
  cases hFirst with
  | token hBefore =>
      cases hSecond with
      | token hBefore' => exact Option.some.inj (hBefore.symm.trans hBefore')
  | unexpected hFault hBefore =>
      cases hSecond with
      | unexpected _ hBefore' => exact Option.some.inj (hBefore.symm.trans hBefore')
      | unterminated hFault' => cases hFault.symm.trans hFault'
  | unterminated hFault =>
      cases hSecond with
      | unexpected hFault' _ => cases hFault.symm.trans hFault'
      | unterminated _ => rfl

/-- Texts lead to the same line if they have the same line feeds, whatever else is in them. -/
theorem lineAfter_eq_iff {first second : List Char} :
    lineAfter first = lineAfter second ↔
      first.filter (· = '\n') = second.filter (· = '\n') := by
  have hFeeds (cs : List Char) :
      cs.filter (· = '\n') = List.replicate (cs.count '\n') '\n' := List.filter_eq _
  rw [hFeeds, hFeeds, List.replicate_inj, lineAfter, lineAfter, Nat.add_left_cancel_iff]
  exact (and_iff_left (.inr rfl)).symm

/-! ## Where lines are counted -/

/-- The place behind some segments, as an offset into the source. -/
private theorem takeBytes?_start {cs : List Char} {front back : List Segment}
    (hText : (front ++ back).flatMap Segment.text = cs) :
    Text.takeBytes? (Position.origin.advance (front.flatMap Segment.text)).offset cs =
      some (front.flatMap Segment.text) := by
  rw [List.flatMap_append] at hText
  exact Text.takeBytes?_eq_some_iff.2 ⟨_, hText, (Nat.zero_add _).symm⟩

/-- **A mark that is made of a segment** has the line that its text leads to. -/
theorem exists_numberedBy_of_mark? {front back : List Segment} {s : Segment} {m : Mark}
    (hChain : Segment.Chain (front ++ s :: back))
    (hMark : Placed.mark? ⟨s, Position.origin.advance (front.flatMap Segment.text)⟩ = some m) :
    ∃ before, m.NumberedBy ((front ++ s :: back).flatMap Segment.text) before ∧
      m.span.line = lineAfter before := by
  have hBefore := takeBytes?_start (rfl : (front ++ s :: back).flatMap Segment.text = _)
  have hWellFormed : s.WellFormed := hChain.of_append.1.wellFormed
  cases hWellFormed with
  | blank _ => cases hMark
  | comment _ => cases hMark
  | lexeme _ =>
      cases hMark
      exact ⟨_, .token hBefore, rfl⟩
  | @unexpected c hBlank _ =>
      cases hMark
      have hLine : c ≠ '\n' := ne_lineFeed_of_not_blank hBlank
      refine ⟨_, .unexpected rfl hBefore, ?_⟩
      show ((Position.origin.advance _).advance [c]).line = _
      rw [← Position.advance_append, origin_advance]
      exact lineAfter_append_singleton hLine
  | @unterminated body _ =>
      cases hMark
      -- Nothing is behind an open string, so its end is the end of the source.
      obtain rfl := hChain.unterminated_last
      refine ⟨_, .unterminated rfl, ?_⟩
      show ((Position.origin.advance _).advance ('"' :: body)).line = _
      rw [← Position.advance_append, origin_advance, List.flatMap_append, List.flatMap_singleton]
      rfl

theorem exists_numberedBy {source : String} {m : Mark} (hMem : m ∈ (scan source).marks) :
    ∃ before, m.NumberedBy source.toList before ∧ m.span.line = lineAfter before := by
  rw [scan_marks, List.mem_append] at hMem
  rcases hMem with hMade | hEnd
  · obtain ⟨⟨s, p⟩, hPlaced, hMark⟩ := List.mem_filterMap.1 hMade
    obtain ⟨front, back, hSegments, hStart⟩ := Placed.mem_ofSegments_iff.1 hPlaced
    cases hStart
    have hChain := Segment.chain_segments source.toList
    have hText := Segment.flatMap_text_segments source.toList
    rw [hSegments] at hChain hText
    rw [← hText]
    exact exists_numberedBy_of_mark? hChain hMark
  · obtain rfl := List.mem_singleton.1 hEnd
    rw [origin_advance]
    refine ⟨source.toList, .token ?_, rfl⟩
    exact Text.takeBytes?_eq_some_iff.2 ⟨[], List.append_nil _, rfl⟩

/-! ## Lines never decrease -/

theorem Placed.line_of_token? {q : Placed} {t : Token} (hToken : q.token? = some t) :
    t.span.line = q.start.line := by
  unfold token? at hToken
  split at hToken
  case h_1 => cases hToken; rfl
  case h_2 => cases hToken

theorem Placed.line_of_error? {q : Placed} {e : LexicalError} (hError : q.error? = some e) :
    e.span.line = q.stop.line := by
  unfold error? at hError
  split at hError
  case h_1 => cases hError; rfl
  case h_2 => cases hError; rfl
  case h_3 => cases hError

theorem Position.line_le_advance (p : Position) (text : List Char) :
    p.line ≤ (p.advance text).line := Nat.le_add_right _ _

theorem pairwise_line_errors (source : String) :
    (scan source).errors.Pairwise fun e f => e.span.line ≤ f.span.line := by
  refine List.Pairwise.filterMap _ ?_ (Placed.pairwise_behind .origin _)
  rintro q r ⟨between, hStart⟩ e hFirst f hSecond
  calc e.span.line = q.stop.line := Placed.line_of_error? hFirst
    _ ≤ r.start.line := by rw [hStart]; exact q.stop.line_le_advance between
    _ ≤ r.stop.line := r.start.line_le_advance r.segment.text
    _ = f.span.line := (Placed.line_of_error? hSecond).symm

theorem pairwise_line_tokens (source : String) :
    (scan source).tokens.Pairwise fun t u => t.span.line ≤ u.span.line := by
  refine List.pairwise_append.2 ⟨?_, List.pairwise_singleton _ _, ?_⟩
  · refine List.Pairwise.filterMap _ ?_ (Placed.pairwise_behind .origin _)
    rintro q r ⟨between, hStart⟩ t hFirst u hSecond
    calc t.span.line = q.start.line := Placed.line_of_token? hFirst
      _ ≤ q.stop.line := q.start.line_le_advance q.segment.text
      _ ≤ r.start.line := by rw [hStart]; exact q.stop.line_le_advance between
      _ = u.span.line := (Placed.line_of_token? hSecond).symm
  · intro t hMade u hEnd
    obtain rfl := List.mem_singleton.1 hEnd
    obtain ⟨q, hPlaced, hToken⟩ := List.mem_filterMap.1 hMade
    obtain ⟨between, hEnd⟩ := Placed.advance_eq_of_mem hPlaced
    rw [Segment.flatMap_text_segments] at hEnd
    calc t.span.line = q.start.line := Placed.line_of_token? hToken
      _ ≤ q.stop.line := q.start.line_le_advance q.segment.text
      _ ≤ (q.stop.advance between).line := q.stop.line_le_advance between
      _ = (Position.origin.advance source.toList).line := by rw [hEnd]

/-- **Every line number is right.** The line of a token or an unexpected character is one more than
the number of line feeds before it, that of an open string one more than the number of line feeds
in the source. So lines never decrease among the tokens, nor among the errors, and two marks, of
one source or of two, are on the same line exactly if the texts that are counted for them have the
same line feeds: no other character changes a line. -/
theorem scan_line_numbers (source : String) :
    (∀ m ∈ (scan source).marks,
        ∃ before, m.NumberedBy source.toList before ∧ m.span.line = 1 + before.count '\n') ∧
      ((scan source).tokens.Pairwise fun t u => t.span.line ≤ u.span.line) ∧
      ((scan source).errors.Pairwise fun e f => e.span.line ≤ f.span.line) ∧
      ∀ (other : String), ∀ m ∈ (scan source).marks, ∀ n ∈ (scan other).marks,
        ∀ before before', m.NumberedBy source.toList before →
          n.NumberedBy other.toList before' →
          (m.span.line = n.span.line ↔
            before.filter (· = '\n') = before'.filter (· = '\n')) := by
  refine ⟨fun m hMem => exists_numberedBy hMem, pairwise_line_tokens source,
    pairwise_line_errors source, ?_⟩
  intro other m hMem n hMem' before before' hBefore hBefore'
  obtain ⟨first, hFirst, hLine⟩ := exists_numberedBy hMem
  obtain ⟨second, hSecond, hLine'⟩ := exists_numberedBy hMem'
  rw [hLine, hLine', hFirst.unique hBefore, hSecond.unique hBefore']
  exact lineAfter_eq_iff

/-- A carriage return and a line separator do not end a line, a line feed in a string does. -/
example : (scan "a\r\u2028\"\n\" b\n\"").tokens.map (fun t => t.span.line) = [1, 1, 2, 3] ∧
    (scan "a\r\u2028\"\n\" b\n\"").errors.map (fun e => e.span.line) = [1, 3] := by decide +kernel

end LoxLexer
