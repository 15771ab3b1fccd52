import LoxLexer.Proofs.Marks

/-!
# The spans tile the source

The tokens and errors of a scan, in one row, cover the source from its beginning to its end. Each
stands for the text at its span, and between them there is nothing but trivia: blanks, and comments
that end with their line or with the source (`Trivia`). So every byte of a source lies in one token,
in one error, or in one gap (`Tiling.each_byte`).

The row is built from the right: a mark is put in front of the marks behind it, and blanks and
comments are put in front of the first gap (`Covers.prepend`). A comment may be put there because
what it stops before is a line feed, which no mark begins with, so that the line feed belongs to
the gap as well.
-/

namespace LoxLexer

/-! ## Gaps and tiles -/

/-- A gap in front of the rest of a source: blanks, and comments. A comment ends before a line feed
in the gap, or with the source. -/
inductive Trivia : List Char → List Char → Prop where
  | nil {rest : List Char} : Trivia [] rest
  | blank {c : Char} {gap rest : List Char} (hBlank : c ∈ [' ', '\t', '\r', '\n'])
      (hGap : Trivia gap rest) : Trivia (c :: gap) rest
  | comment {line gap rest : List Char} (hLine : '\n' ∉ line) (hGap : Trivia ('\n' :: gap) rest) :
      Trivia ('/' :: '/' :: line ++ '\n' :: gap) rest
  | lastComment {line : List Char} (hLine : '\n' ∉ line) : Trivia ('/' :: '/' :: line) []

/-- A part of a source: a mark, or what is left between two of them. -/
inductive Tile where
  | gap (start stop : Nat)
  | mark (m : Mark)
deriving DecidableEq, Repr

namespace Tile

def start : Tile → Nat
  | gap start _ => start
  | mark m => m.span.start

def stop : Tile → Nat
  | gap _ stop => stop
  | mark m => m.span.stop

def Holds (tile : Tile) (offset : Nat) : Prop := tile.start ≤ offset ∧ offset < tile.stop

/-- Marks, each behind the gap that begins where the mark before it ends, or at `offset`. -/
def row (offset : Nat) : List Mark → List Tile
  | [] => []
  | m :: ms => gap offset m.span.start :: mark m :: row m.span.stop ms

end Tile

namespace Mark

/-- Whether a mark stands for a text, as far as it tells. -/
def Shows : Mark → List Char → Prop
  | token t, text => t.lexeme.toList = text
  | error e, text => ∀ c, e.fault = .unexpectedCharacter c → text = [c]

/-- Whether a mark is the end of the source. -/
def IsEnd : Mark → Prop
  | token t => t.kind = .endOfFile
  | error _ => False

end Mark

/-! ## Marks that cover a text -/

/-- The marks of a text that is read after another one, with the gaps between them. -/
inductive Covers : List Char → List Char → List Mark → Prop where
  | last {before gap : List Char} (hGap : Trivia gap []) :
      Covers before gap [.token (Token.endOfFile (Position.origin.advance (before ++ gap)))]
  | cons {before gap text rest : List Char} {m : Mark} {ms : List Mark}
      (hGap : Trivia gap (text ++ rest)) (hSome : text ≠ []) (hLine : text.head? ≠ some '\n')
      (hShows : m.Shows text) (hKind : ¬m.IsEnd)
      (hStart : m.span.start = Text.byteLength (before ++ gap))
      (hStop : m.span.stop = Text.byteLength (before ++ gap ++ text))
      (hRest : Covers (before ++ gap ++ text) rest ms) :
      Covers before (gap ++ (text ++ rest)) (m :: ms)

/-- **Trivia in front of a text** belongs to the gap before its first mark. -/
theorem Covers.prepend {before extra rest : List Char} {ms : List Mark}
    (hCovers : Covers (before ++ extra) rest ms)
    (hExtra : ∀ gap tail, gap ++ tail = rest → tail.head? ≠ some '\n' → Trivia gap tail →
      Trivia (extra ++ gap) tail) : Covers before (extra ++ rest) ms := by
  cases hCovers with
  | last hGap =>
      rw [List.append_assoc]
      exact .last (hExtra rest [] (List.append_nil rest) (by simp) hGap)
  | @cons _ gap text rest m ms hGap hSome hLine hShows hKind hStart hStop hRest =>
      have hTail : (text ++ rest).head? ≠ some '\n' := by
        obtain ⟨c, cs, rfl⟩ := List.exists_cons_of_ne_nil hSome
        exact hLine
      rw [List.append_assoc before] at hStart hStop hRest
      rw [← List.append_assoc]
      exact .cons (hExtra gap _ rfl hTail hGap) hSome hLine hShows hKind hStart hStop hRest

/-- A mark in front of marks, with no gap before it. -/
theorem Covers.mark {before text rest : List Char} {m : Mark} {ms : List Mark} (hSome : text ≠ [])
    (hLine : text.head? ≠ some '\n') (hShows : m.Shows text) (hKind : ¬m.IsEnd)
    (hStart : m.span.start = Text.byteLength before)
    (hStop : m.span.stop = Text.byteLength (before ++ text))
    (hRest : Covers (before ++ text) rest ms) : Covers before (text ++ rest) (m :: ms) := by
  rw [← List.append_nil before] at hStart hStop hRest
  exact .cons .nil hSome hLine hShows hKind hStart hStop hRest

/-- No lexeme begins with a line feed, nor does an unexpected character. -/
theorem not_begins_lineFeed (kind : Kind) : ¬kind.Begins '\n' := by
  cases kind
  all_goals decide

theorem Kind.Spells.head?_ne_lineFeed {kind : Kind} {text : List Char}
    (hSpells : kind.Spells text) : text.head? ≠ some '\n' := by
  obtain ⟨c, cs, rfl, hBegins⟩ := hSpells.exists_begins
  intro hHead
  cases hHead
  exact not_begins_lineFeed kind hBegins

/-- **A comment in front of a line feed**, or at the end, is trivia. -/
private theorem trivia_comment {line gap tail rest : List Char} (hLine : '\n' ∉ line)
    (hStops : ∀ c ∈ rest.head?, c = '\n') (hParts : gap ++ tail = rest)
    (hTail : tail.head? ≠ some '\n') (hGap : Trivia gap tail) :
    Trivia ('/' :: '/' :: line ++ gap) tail := by
  subst hParts
  cases gap with
  | nil =>
      cases tail with
      | nil =>
          rw [List.append_nil]
          exact .lastComment hLine
      | cons c tail =>
          obtain rfl := hStops c rfl
          exact absurd rfl hTail
  | cons c gap =>
      obtain rfl := hStops c rfl
      exact .comment hLine hGap

/-- **The segments of a source cover it with their marks.** -/
theorem covers_ofSegments {ss : List Segment} (hChain : Segment.Chain ss) :
    ∀ before : List Char,
      Covers before (ss.flatMap Segment.text)
        ((Placed.ofSegments (Position.origin.advance before) ss).filterMap Placed.mark? ++
          [.token (Token.endOfFile
            (Position.origin.advance (before ++ ss.flatMap Segment.text)))]) := by
  induction ss with
  | nil =>
      intro before
      exact .last .nil
  | cons s ss ih =>
      intro before
      obtain ⟨⟨hWellFormed, hStops⟩, hChainRest⟩ := hChain
      have hRest := ih hChainRest (before ++ s.text)
      have hStop : Placed.stop ⟨s, Position.origin.advance before⟩ =
          Position.origin.advance (before ++ s.text) := (Position.advance_append _ _ _).symm
      have hBytes (text : List Char) :
          (Position.origin.advance text).offset = Text.byteLength text := Nat.zero_add _
      rw [Placed.ofSegments, List.filterMap_cons, List.flatMap_cons, ← Position.advance_append,
        ← List.append_assoc]
      simp only [Placed.mark?, Placed.token?, Placed.error?, hStop]
      cases hWellFormed with
      | blank hBlank => exact hRest.prepend fun gap tail _ _ hGap => .blank hBlank hGap
      | comment hLine =>
          exact hRest.prepend fun gap tail hParts hTail hGap =>
            trivia_comment hLine hStops hParts hTail hGap
      | @lexeme kind text hSpells =>
          refine .mark (Segment.WellFormed.lexeme hSpells).text_ne_nil hSpells.head?_ne_lineFeed
            (String.toList_ofList) ?_ (hBytes _) (hBytes _) hRest
          rintro rfl
          exact Kind.not_spells_endOfFile hSpells
      | @unexpected c hBlank _ =>
          have hLine : c ≠ '\n' := ne_lineFeed_of_not_blank hBlank
          refine .mark (List.cons_ne_nil c []) (by simpa [Segment.text] using hLine) ?_ id
            (hBytes _) (hBytes _) hRest
          intro d hFault
          cases hFault
          rfl
      | @unterminated body _ =>
          refine .mark (List.cons_ne_nil _ body) (by simp [Segment.text]) ?_ id (hBytes _)
            (hBytes _) hRest
          intro c hFault
          cases hFault

theorem covers_scan (source : String) : Covers [] source.toList (scan source).marks := by
  have hCovers := covers_ofSegments (Segment.chain_segments source.toList) []
  rw [Segment.flatMap_text_segments] at hCovers
  rw [scan_marks]
  exact hCovers

/-! ## What covering marks are like -/

namespace Covers

variable {before rest : List Char} {ms : List Mark}

/-- The text at the span of a mark is what the mark shows. -/
theorem slice (hCovers : Covers before rest ms) : ∀ m ∈ ms, ∃ text,
    Text.slice? m.span.start m.span.stop (before ++ rest) = some text ∧ m.Shows text := by
  induction hCovers with
  | @last before gap _ =>
      intro m hMem
      obtain rfl := List.mem_singleton.1 hMem
      refine ⟨[], Text.slice?_eq_some_iff.2 ⟨before ++ gap, [], by simp, ?_, ?_⟩, rfl⟩
      · exact (Nat.zero_add _).symm
      · rw [List.append_nil]
        exact (Nat.zero_add _).symm
  | @cons before gap text rest m ms _ _ _ hShows _ hStart hStop _ ih =>
      refine List.forall_mem_cons.2 ⟨⟨text, ?_, hShows⟩, ?_⟩
      · exact Text.slice?_eq_some_iff.2 ⟨before ++ gap, rest, by simp, hStart.symm, hStop.symm⟩
      · simpa only [List.append_assoc] using ih

/-- Only the end of the source is empty. -/
theorem isEmpty_iff_isEnd (hCovers : Covers before rest ms) :
    ∀ m ∈ ms, m.span.start = m.span.stop ↔ m.IsEnd := by
  induction hCovers with
  | last _ => exact List.forall_mem_singleton.2 (iff_of_true rfl rfl)
  | @cons before gap text rest m ms _ hSome _ _ hKind hStart hStop _ ih =>
      refine List.forall_mem_cons.2 ⟨iff_of_false ?_ hKind, ih⟩
      have hBytes : Text.byteLength text ≠ 0 := mt Text.byteLength_eq_zero_iff.1 hSome
      rw [hStart, hStop, Text.byteLength_append _ text]
      omega

theorem start_le (hCovers : Covers before rest ms) :
    ∀ m ∈ ms, Text.byteLength before ≤ m.span.start := by
  induction hCovers with
  | @last before gap _ =>
      refine List.forall_mem_singleton.2 ?_
      show Text.byteLength before ≤ 0 + Text.byteLength (before ++ gap)
      rw [Text.byteLength_append]
      omega
  | @cons before gap text rest m ms _ _ _ _ _ hStart _ _ ih =>
      simp only [Text.byteLength_append] at hStart ih
      refine List.forall_mem_cons.2 ⟨by omega, ?_⟩
      intro n hMem
      have hLater := ih n hMem
      omega

/-- **Marks do not overlap**, and each begins behind those before it. -/
theorem ordered (hCovers : Covers before rest ms) :
    ms.Pairwise fun m n => m.span.start < n.span.start ∧ m.span.stop ≤ n.span.start := by
  induction hCovers with
  | last _ => exact List.pairwise_singleton _ _
  | @cons before gap text rest m ms _ hSome _ _ _ hStart hStop hRest ih =>
      refine List.pairwise_cons.2 ⟨?_, ih⟩
      intro n hMem
      have hLater := hRest.start_le n hMem
      have hBytes : Text.byteLength text ≠ 0 := mt Text.byteLength_eq_zero_iff.1 hSome
      rw [Text.byteLength_append _ text] at hLater hStop
      omega

/-- The end of the source is the last mark, and the only one of its kind. -/
theorem exists_end (hCovers : Covers before rest ms) :
    ∃ marks line, ms = marks ++ [.token (Token.endOfFile ⟨Text.byteLength (before ++ rest), line⟩)] ∧
      ∀ m ∈ marks, ¬m.IsEnd := by
  induction hCovers with
  | @last before gap _ =>
      refine ⟨[], lineAfter (before ++ gap), ?_, by simp⟩
      rw [origin_advance]
      rfl
  | @cons before gap text rest m ms _ _ _ _ hKind _ _ _ ih =>
      obtain ⟨marks, line, hMarks, hOther⟩ := ih
      refine ⟨m :: marks, line, ?_, List.forall_mem_cons.2 ⟨hKind, hOther⟩⟩
      rw [hMarks]
      simp only [List.append_assoc, List.cons_append]

/-- **What is left between marks is trivia.** -/
theorem gaps (hCovers : Covers before rest ms) :
    ∀ start stop, .gap start stop ∈ Tile.row (Text.byteLength before) ms →
      ∃ front gap back, front ++ gap ++ back = before ++ rest ∧ Text.byteLength front = start ∧
        Text.byteLength (front ++ gap) = stop ∧ Trivia gap back := by
  induction hCovers with
  | @last before gap hGap =>
      intro start stop hMem
      simp only [Tile.row, List.mem_cons, List.not_mem_nil, or_false, reduceCtorEq,
        Tile.gap.injEq] at hMem
      obtain ⟨rfl, rfl⟩ := hMem
      exact ⟨before, gap, [], List.append_nil _, rfl, (Nat.zero_add _).symm, hGap⟩
  | @cons before gap text rest m ms hGap _ _ _ _ hStart hStop _ ih =>
      intro start stop hMem
      simp only [Tile.row, List.mem_cons, reduceCtorEq, Tile.gap.injEq, false_or] at hMem
      rcases hMem with ⟨rfl, rfl⟩ | hLater
      · exact ⟨before, gap, text ++ rest, by simp, rfl, hStart.symm, hGap⟩
      · rw [hStop] at hLater
        obtain ⟨front, inner, back, hText, hPlace⟩ := ih start stop hLater
        exact ⟨front, inner, back, by simpa only [List.append_assoc] using hText, hPlace⟩

theorem start_le_of_mem_row (hCovers : Covers before rest ms) :
    ∀ tile ∈ Tile.row (Text.byteLength before) ms, Text.byteLength before ≤ tile.start := by
  induction hCovers with
  | @last before gap hGap =>
      have hEnd := (@Covers.last before gap hGap).start_le _ List.mem_cons_self
      exact List.forall_mem_cons.2 ⟨Nat.le_refl _, List.forall_mem_singleton.2 hEnd⟩
  | @cons before gap text rest m ms _ _ _ _ _ hStart hStop _ ih =>
      rw [← hStop] at ih
      simp only [Text.byteLength_append] at hStart hStop
      refine List.forall_mem_cons.2 ⟨Nat.le_refl _, List.forall_mem_cons.2 ⟨?_, ?_⟩⟩
      · show Text.byteLength before ≤ m.span.start
        omega
      · intro tile hMem
        have hLater := ih tile hMem
        omega

/-- **Every byte is held by one tile.** -/
theorem existsUnique_tile (hCovers : Covers before rest ms) :
    ∀ i, Text.byteLength before ≤ i → i < Text.byteLength (before ++ rest) →
      ∃! tile, tile ∈ Tile.row (Text.byteLength before) ms ∧ tile.Holds i := by
  induction hCovers with
  | @last before gap hGap =>
      intro i hLow hHigh
      have hHolds : i < 0 + Text.byteLength (before ++ gap) := by omega
      refine ⟨.gap _ _, ⟨List.mem_cons_self, hLow, hHolds⟩, ?_⟩
      rintro tile ⟨hMem, hStart, hStop⟩
      rcases List.mem_cons.1 hMem with rfl | hMem
      · rfl
      · -- The end of the source holds no byte.
        rw [List.mem_singleton.1 hMem] at hStart hStop
        exact absurd (hStart.trans_lt hStop) (Nat.lt_irrefl _)
  | @cons before gap text rest m ms _ _ _ _ _ hStart hStop hRest ih =>
      intro i hLow hHigh
      have hRow := hRest.start_le_of_mem_row
      rw [← hStop] at hRow ih
      have hOrder : m.span.start ≤ m.span.stop := by
        rw [hStart, hStop, Text.byteLength_append _ text]
        omega
      by_cases hGap : i < m.span.start
      · refine ⟨.gap _ _, ⟨List.mem_cons_self, hLow, hGap⟩, ?_⟩
        rintro tile ⟨hMem, hHolds⟩
        rcases List.mem_cons.1 hMem with rfl | hMem
        · rfl
        · have hBehind : m.span.start ≤ tile.start := by
            rcases List.mem_cons.1 hMem with rfl | hLater
            · exact Nat.le_refl _
            · exact hOrder.trans (hRow tile hLater)
          exact absurd (hBehind.trans hHolds.1) (Nat.not_le.2 hGap)
      by_cases hMark : i < m.span.stop
      · refine ⟨.mark m, ⟨List.mem_cons_of_mem _ List.mem_cons_self, Nat.not_lt.1 hGap, hMark⟩, ?_⟩
        rintro tile ⟨hMem, hHolds⟩
        rcases List.mem_cons.1 hMem with rfl | hMem
        · exact absurd hHolds.2 hGap
        rcases List.mem_cons.1 hMem with rfl | hLater
        · rfl
        · exact absurd ((hRow tile hLater).trans hHolds.1) (Nat.not_le.2 hMark)
      · have hInside : i < Text.byteLength (before ++ gap ++ text ++ rest) := by
          simpa only [List.append_assoc] using hHigh
        obtain ⟨tile, ⟨hMem, hHolds⟩, hOnly⟩ := ih i (Nat.not_lt.1 hMark) hInside
        refine ⟨tile, ⟨List.mem_cons_of_mem _ (List.mem_cons_of_mem _ hMem), hHolds⟩, ?_⟩
        rintro other ⟨hOther, hOtherHolds⟩
        rcases List.mem_cons.1 hOther with rfl | hOther
        · exact absurd hOtherHolds.2 hGap
        rcases List.mem_cons.1 hOther with rfl | hOther
        · exact absurd hOtherHolds.2 hMark
        · exact hOnly other ⟨hOther, hOtherHolds⟩

end Covers

/-! ## The tiling of a source -/

/-- How the spans of a scan lie in the source. -/
structure Tiling (cs : List Char) (result : Scan) : Prop where
  /-- Both ends of a span are boundaries between characters. -/
  inside : ∀ m ∈ result.marks, m.span.start ≤ m.span.stop ∧ m.span.stop ≤ Text.byteLength cs ∧
    (Text.splitBytes? m.span.start cs).isSome ∧ (Text.splitBytes? m.span.stop cs).isSome
  ordered : result.marks.Pairwise fun m n =>
    m.span.start < n.span.start ∧ m.span.stop ≤ n.span.start
  tokens_ordered : result.tokens.Pairwise fun t u =>
    t.span.start < u.span.start ∧ t.span.stop ≤ u.span.start
  errors_ordered : result.errors.Pairwise fun e f =>
    e.span.start < f.span.start ∧ e.span.stop ≤ f.span.start
  empty_iff : ∀ m ∈ result.marks, m.span.start = m.span.stop ↔ m.IsEnd
  ends : ∃ marks line,
    result.marks = marks ++ [.token (Token.endOfFile ⟨Text.byteLength cs, line⟩)] ∧
      ∀ m ∈ marks, ¬m.IsEnd
  lexeme : ∀ t ∈ result.tokens, Text.slice? t.span.start t.span.stop cs = some t.lexeme.toList
  character : ∀ e ∈ result.errors, ∀ c, e.fault = .unexpectedCharacter c →
    Text.slice? e.span.start e.span.stop cs = some [c]
  gaps : ∀ start stop, .gap start stop ∈ Tile.row 0 result.marks →
    ∃ front gap back, front ++ gap ++ back = cs ∧ Text.byteLength front = start ∧
      Text.byteLength (front ++ gap) = stop ∧ Trivia gap back
  /-- Every byte lies in one token, in one error, or in one gap. -/
  each_byte : ∀ i < Text.byteLength cs, ∃! tile, tile ∈ Tile.row 0 result.marks ∧ tile.Holds i

/-- A text that can be cut out of a source lies between two boundaries inside it. -/
theorem inside_of_slice? {start stop : Nat} {cs text : List Char}
    (hSlice : Text.slice? start stop cs = some text) :
    start ≤ stop ∧ stop ≤ Text.byteLength cs ∧ (Text.splitBytes? start cs).isSome ∧
      (Text.splitBytes? stop cs).isSome := by
  obtain ⟨front, back, rfl, rfl, rfl⟩ := Text.slice?_eq_some_iff.1 hSlice
  have hStart : Text.splitBytes? (Text.byteLength front) (front ++ text ++ back) =
      some (front, text ++ back) := Text.splitBytes?_eq_some_iff.2 ⟨by simp, rfl⟩
  have hStop : Text.splitBytes? (Text.byteLength (front ++ text)) (front ++ text ++ back) =
      some (front ++ text, back) := Text.splitBytes?_eq_some_iff.2 ⟨rfl, rfl⟩
  rw [hStart, hStop]
  simp only [Text.byteLength_append]
  exact ⟨by omega, by omega, rfl, rfl⟩

/-- **The spans of a scan tile its source.** -/
theorem scan_tiles (source : String) : Tiling source.toList (scan source) := by
  have hCovers := covers_scan source
  have hOrdered := hCovers.ordered
  constructor
  case inside =>
      intro m hMem
      obtain ⟨text, hSlice, -⟩ := hCovers.slice m hMem
      exact inside_of_slice? hSlice
  case ordered => exact hOrdered
  case tokens_ordered =>
      rw [← filterMap_token?_marks]
      refine hOrdered.filterMap _ ?_
      intro m n hOrder t hFirst u hSecond
      rw [Mark.eq_of_token? hFirst, Mark.eq_of_token? hSecond] at hOrder
      exact hOrder
  case errors_ordered =>
      rw [← filterMap_error?_marks]
      refine hOrdered.filterMap _ ?_
      intro m n hOrder e hFirst f hSecond
      rw [Mark.eq_of_error? hFirst, Mark.eq_of_error? hSecond] at hOrder
      exact hOrder
  case empty_iff => exact hCovers.isEmpty_iff_isEnd
  case ends => exact hCovers.exists_end
  case lexeme =>
      intro t hMem
      obtain ⟨text, hSlice, hShows⟩ := hCovers.slice _ (Scan.token_mem_marks hMem)
      rw [show t.lexeme.toList = text from hShows]
      exact hSlice
  case character =>
      intro e hMem c hFault
      obtain ⟨text, hSlice, hShows⟩ := hCovers.slice _ (Scan.error_mem_marks hMem)
      rw [← hShows c hFault]
      exact hSlice
  case gaps => exact hCovers.gaps
  case each_byte => exact fun i hInside => hCovers.existsUnique_tile i (Nat.zero_le i) hInside

end LoxLexer
