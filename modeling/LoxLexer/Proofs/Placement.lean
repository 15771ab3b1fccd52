import LoxLexer.Proofs.Description

/-!
# Where segments are placed

A segment is placed behind the text of the segments before it, and that text is all that its
position depends on. So a row of segments that is placed elsewhere gives the same scan with other
spans (`Scan.ofSegments_shift`), and a scan of two rows in a row is the scan of the first without
its end, and then the scan of the second moved behind the text of the first
(`Scan.ofSegments_append`).

Read the other way, a token or an error of a scan comes from one place in the row of segments
(`Placed.getElem?_filterMap_eq_some_iff`), and later places begin where earlier ones have ended
(`Placed.pairwise_behind`, `Placed.pairwise_ofSegments`).
-/

namespace LoxLexer

/-! ## Moving what is placed -/

/-- The position that is so many bytes and lines further on. -/
def Position.shift (bytes lines : Nat) (p : Position) : Position :=
  ⟨p.offset + bytes, p.line + lines⟩

def Span.shift (bytes lines : Nat) (s : Span) : Span :=
  ⟨s.start + bytes, s.stop + bytes, s.line + lines⟩

def Token.shift (bytes lines : Nat) (t : Token) : Token :=
  { t with span := t.span.shift bytes lines }

def LexicalError.shift (bytes lines : Nat) (e : LexicalError) : LexicalError :=
  { e with span := e.span.shift bytes lines }

/-- The scan with every span moved. -/
def Scan.shift (bytes lines : Nat) (s : Scan) : Scan :=
  ⟨s.tokens.map (Token.shift bytes lines), s.errors.map (LexicalError.shift bytes lines)⟩

/-- Two scans in a row: the end of the first one is left out. -/
def Scan.append (first second : Scan) : Scan :=
  ⟨first.tokens.dropLast ++ second.tokens, first.errors ++ second.errors⟩

theorem Position.advance_shift (bytes lines : Nat) (p : Position) (text : List Char) :
    (p.shift bytes lines).advance text = (p.advance text).shift bytes lines := by
  simp only [advance, shift, Position.mk.injEq]
  omega

/-- From the beginning, reading a text and moving over it are the same. -/
theorem Position.origin_advance_eq_shift (text : List Char) :
    origin.advance text = origin.shift (Text.byteLength text) (text.count '\n') := rfl

theorem Placed.stop_shift (bytes lines : Nat) (s : Segment) (p : Position) :
    stop ⟨s, p.shift bytes lines⟩ = (stop ⟨s, p⟩).shift bytes lines :=
  p.advance_shift bytes lines s.text

theorem Placed.token?_shift (bytes lines : Nat) (s : Segment) (p : Position) :
    token? ⟨s, p.shift bytes lines⟩ = (token? ⟨s, p⟩).map (Token.shift bytes lines) := by
  unfold token?
  rw [stop_shift]
  cases s
  all_goals rfl

theorem Placed.error?_shift (bytes lines : Nat) (s : Segment) (p : Position) :
    error? ⟨s, p.shift bytes lines⟩ = (error? ⟨s, p⟩).map (LexicalError.shift bytes lines) := by
  unfold error?
  rw [stop_shift]
  cases s
  all_goals rfl

/-- **A row that is placed elsewhere** gives the same scan with its spans moved. -/
theorem Scan.ofSegments_shift (bytes lines : Nat) (p : Position) (ss : List Segment) :
    Scan.ofSegments (p.shift bytes lines) ss = (Scan.ofSegments p ss).shift bytes lines := by
  induction ss generalizing p with
  | nil => rfl
  | cons s ss ih =>
      rw [Scan.ofSegments_cons, Scan.ofSegments_cons, Position.advance_shift, ih,
        Placed.token?_shift, Placed.error?_shift]
      simp [Scan.shift, Option.toList_map]

/-! ## Rows of segments one after another -/

theorem Placed.ofSegments_append (p : Position) (ss ts : List Segment) :
    ofSegments p (ss ++ ts) =
      ofSegments p ss ++ ofSegments (p.advance (ss.flatMap Segment.text)) ts := by
  induction ss generalizing p with
  | nil => simp [ofSegments]
  | cons s ss ih => simp [ofSegments, ih, Position.advance_append]

/-- One more segment adds what is made of it. -/
theorem Placed.filterMap_ofSegments_concat {α : Type} (f : Placed → Option α) (p : Position)
    (ss : List Segment) (s : Segment) :
    (ofSegments p (ss ++ [s])).filterMap f =
      (ofSegments p ss).filterMap f ++ (f ⟨s, p.advance (ss.flatMap Segment.text)⟩).toList := by
  rw [ofSegments_append, List.filterMap_append, ofSegments, ofSegments, List.filterMap_cons]
  cases f ⟨s, p.advance (ss.flatMap Segment.text)⟩
  all_goals rfl

theorem Scan.dropLast_tokens_ofSegments (p : Position) (ss : List Segment) :
    (Scan.ofSegments p ss).tokens.dropLast =
      (Placed.ofSegments p ss).filterMap Placed.token? :=
  List.dropLast_concat

/-- **Rows in a row**: the second one is placed behind the text of the first. -/
theorem Scan.ofSegments_append (p : Position) (ss ts : List Segment) :
    Scan.ofSegments p (ss ++ ts) =
      (Scan.ofSegments p ss).append
        (Scan.ofSegments (p.advance (ss.flatMap Segment.text)) ts) := by
  rw [Scan.append, Scan.dropLast_tokens_ofSegments]
  simp [Scan.ofSegments, Placed.ofSegments_append, Position.advance_append]

/-- A blank adds nothing but its place. -/
theorem Scan.ofSegments_cons_blank (p : Position) (c : Char) (ss : List Segment) :
    Scan.ofSegments p (.blank c :: ss) = Scan.ofSegments (p.advance [c]) ss := by
  rw [Scan.ofSegments_cons]
  rfl

/-- Nor does a comment. -/
theorem Scan.ofSegments_cons_comment (p : Position) (text : List Char) (ss : List Segment) :
    Scan.ofSegments p (.comment text :: ss) = Scan.ofSegments (p.advance text) ss := by
  rw [Scan.ofSegments_cons]
  rfl

/-- A segment in front of a text adds what it is placed as. -/
theorem Scan.ofSegments_segments_append (p : Position) {s : Segment} {rest : List Char}
    (hComplete : s.Complete rest) :
    Scan.ofSegments p (Segment.segments (s.text ++ rest)) =
      ⟨(Placed.token? ⟨s, p⟩).toList ++
          (Scan.ofSegments (p.advance s.text) (Segment.segments rest)).tokens,
        (Placed.error? ⟨s, p⟩).toList ++
          (Scan.ofSegments (p.advance s.text) (Segment.segments rest)).errors⟩ := by
  rw [Segment.segments_text_append hComplete, Scan.ofSegments_cons]

theorem Scan.ofSegments_segments_blank (p : Position) {c : Char}
    (hBlank : c ∈ [' ', '\t', '\r', '\n']) (rest : List Char) :
    Scan.ofSegments p (Segment.segments (c :: rest)) =
      Scan.ofSegments (p.advance [c]) (Segment.segments rest) :=
  Scan.ofSegments_segments_append p (s := .blank c) ⟨.blank hBlank, trivial⟩

/-! ## Where things come from -/

namespace Placed

theorem segment_of_token? {q : Placed} {t : Token} (hToken : q.token? = some t) :
    q.segment = .lexeme t.kind t.lexeme.toList ∧ t.span.start = q.start.offset ∧
      t.span.stop = q.stop.offset := by
  unfold token? at hToken
  split at hToken
  case h_1 kind text hSegment =>
      cases hToken
      simp [hSegment]
  case h_2 => cases hToken

theorem fault_of_error? {q : Placed} {e : LexicalError} (hError : q.error? = some e) :
    q.segment.fault? = some e.fault ∧ e.span.start = q.start.offset ∧
      e.span.stop = q.stop.offset := by
  unfold error? at hError
  split at hError
  case h_1 c hSegment =>
      cases hError
      simp [hSegment, Segment.fault?]
  case h_2 text hSegment =>
      cases hError
      simp [hSegment, Segment.fault?]
  case h_3 => cases hError

/-- What a lexeme behind a text is placed as. -/
theorem token?_lexeme {kind : Kind} {text : List Char} {literal : Option Literal}
    (hCarries : kind.Carries text literal) (before : List Char) :
    token? ⟨.lexeme kind text, Position.origin.advance before⟩ =
      some ⟨kind, String.ofList text, literal, ⟨Text.byteLength before,
        Text.byteLength (before ++ text), lineAfter before⟩⟩ := by
  rw [token?, stop_origin_advance, origin_advance]
  simp only [ofLexeme?_of_carries hCarries]
  rfl

/-- What a faulty piece behind a text is placed as. -/
theorem error?_fault {s : Segment} {fault : Fault} (hFault : s.fault? = some fault)
    (before : List Char) :
    error? ⟨s, Position.origin.advance before⟩ =
      some ⟨fault, ⟨Text.byteLength before, Text.byteLength (before ++ s.text),
        lineAfter (before ++ s.text)⟩⟩ := by
  rw [error?, stop_origin_advance, origin_advance]
  cases s
  all_goals cases hFault
  all_goals rfl

/-- A placed segment gives a token, an error, or neither. -/
theorem length_filterMap_le (p : Position) (ss : List Segment) :
    ((ofSegments p ss).filterMap token?).length + ((ofSegments p ss).filterMap error?).length ≤
      ss.length := by
  induction ss generalizing p with
  | nil => exact Nat.le_refl 0
  | cons s ss ih =>
      have hRest := ih (p.advance s.text)
      rw [ofSegments]
      cases s
      all_goals simp only [List.filterMap_cons, token?, error?, List.length_cons]
      all_goals omega

private theorem exists_of_getElem?_filterMap {α : Type} {f : Placed → Option α} {p : Position}
    {ss : List Segment} {i : Nat} {x : α}
    (hPlace : ((ofSegments p ss).filterMap f)[i]? = some x) :
    ∃ front s back, ss = front ++ s :: back ∧ ((ofSegments p front).filterMap f).length = i ∧
      f ⟨s, p.advance (front.flatMap Segment.text)⟩ = some x := by
  induction ss generalizing p i with
  | nil => simp [ofSegments] at hPlace
  | cons s ss ih =>
      rw [ofSegments] at hPlace
      cases hFirst : f ⟨s, p⟩ with
      | none =>
          rw [List.filterMap_cons_none hFirst] at hPlace
          obtain ⟨front, t, back, rfl, hIndex, hMade⟩ := ih hPlace
          refine ⟨s :: front, t, back, rfl, ?_, ?_⟩
          · rw [ofSegments, List.filterMap_cons_none hFirst, hIndex]
          · rwa [List.flatMap_cons, Position.advance_append]
      | some y =>
          rw [List.filterMap_cons_some hFirst] at hPlace
          cases i with
          | zero =>
              obtain rfl : y = x := by simpa using hPlace
              exact ⟨[], s, ss, rfl, rfl, by simpa using hFirst⟩
          | succ i =>
              rw [List.getElem?_cons_succ] at hPlace
              obtain ⟨front, t, back, rfl, hIndex, hMade⟩ := ih hPlace
              refine ⟨s :: front, t, back, rfl, ?_, ?_⟩
              · rw [ofSegments, List.filterMap_cons_some hFirst, List.length_cons, hIndex]
              · rwa [List.flatMap_cons, Position.advance_append]

/-- **What the `i`-th thing is made of** that is made of placed segments: a segment, the text
before which tells the place, and the segments before which make `i` things. -/
theorem getElem?_filterMap_eq_some_iff {α : Type} {f : Placed → Option α} {p : Position}
    {ss : List Segment} {i : Nat} {x : α} :
    ((ofSegments p ss).filterMap f)[i]? = some x ↔
      ∃ front s back, ss = front ++ s :: back ∧ ((ofSegments p front).filterMap f).length = i ∧
        f ⟨s, p.advance (front.flatMap Segment.text)⟩ = some x := by
  constructor
  · exact exists_of_getElem?_filterMap
  · rintro ⟨front, s, back, rfl, rfl, hMade⟩
    rw [ofSegments_append, List.filterMap_append, ofSegments, List.filterMap_cons_some hMade]
    simp

/-- Placed segments are those of the row, each behind the text of the ones before it. -/
theorem mem_ofSegments_iff {q : Placed} {p : Position} {ss : List Segment} :
    q ∈ ofSegments p ss ↔
      ∃ front back, ss = front ++ q.segment :: back ∧
        q.start = p.advance (front.flatMap Segment.text) := by
  constructor
  · intro hMem
    obtain ⟨i, hIndex⟩ := List.getElem?_of_mem hMem
    rw [← List.filterMap_some (l := ofSegments p ss)] at hIndex
    obtain ⟨front, s, back, rfl, -, hPlaced⟩ := getElem?_filterMap_eq_some_iff.1 hIndex
    cases hPlaced
    exact ⟨front, back, rfl, rfl⟩
  · rintro ⟨front, back, rfl, hStart⟩
    rw [ofSegments_append, ofSegments, ← hStart]
    exact List.mem_append_right _ List.mem_cons_self

/-- The end of a row is behind every segment of it, with some text read in between. -/
theorem advance_eq_of_mem {q : Placed} {p : Position} {ss : List Segment}
    (hMem : q ∈ ofSegments p ss) :
    ∃ between, p.advance (ss.flatMap Segment.text) = q.stop.advance between := by
  obtain ⟨front, back, rfl, hStart⟩ := mem_ofSegments_iff.1 hMem
  refine ⟨back.flatMap Segment.text, ?_⟩
  rw [stop, hStart, List.flatMap_append, List.flatMap_cons, Position.advance_append,
    Position.advance_append]

/-- A segment ends before the row that it is in. -/
theorem stop_le {q : Placed} {ss : List Segment} (hMem : q ∈ ofSegments .origin ss) :
    q.stop.offset ≤ Text.byteLength (ss.flatMap Segment.text) := by
  obtain ⟨between, hEnd⟩ := advance_eq_of_mem hMem
  rw [origin_advance] at hEnd
  rw [show Text.byteLength (ss.flatMap Segment.text) = (q.stop.advance between).offset from
    congrArg Position.offset hEnd]
  exact Nat.le_add_right _ _

/-- A later place is that of an earlier one's end, with some text read in between. -/
theorem pairwise_behind (p : Position) (ss : List Segment) :
    (ofSegments p ss).Pairwise fun q r => ∃ between, r.start = q.stop.advance between := by
  induction ss generalizing p with
  | nil => exact List.Pairwise.nil
  | cons s ss ih =>
      refine List.pairwise_cons.2 ⟨?_, ih _⟩
      intro r hMem
      obtain ⟨front, back, -, hStart⟩ := mem_ofSegments_iff.1 hMem
      exact ⟨front.flatMap Segment.text, hStart⟩

/-- **Places do not overlap**: a later one begins behind an earlier one. -/
theorem pairwise_ofSegments {ss : List Segment} (hSome : ∀ s ∈ ss, s.text ≠ []) (p : Position) :
    (ofSegments p ss).Pairwise fun q r =>
      q.start.offset < r.start.offset ∧ q.stop.offset ≤ r.start.offset := by
  refine (pairwise_behind p ss).imp_of_mem ?_
  rintro q r hMem - ⟨between, hStart⟩
  obtain ⟨front, back, rfl, -⟩ := mem_ofSegments_iff.1 hMem
  have hBytes : Text.byteLength q.segment.text ≠ 0 :=
    mt Text.byteLength_eq_zero_iff.1 (hSome q.segment (by simp))
  rw [hStart]
  show q.start.offset < q.start.offset + Text.byteLength q.segment.text + Text.byteLength _ ∧
    q.start.offset + Text.byteLength q.segment.text ≤
      q.start.offset + Text.byteLength q.segment.text + Text.byteLength _
  omega

end Placed

end LoxLexer
