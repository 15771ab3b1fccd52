import LoxLexer.Proofs.Placement

/-!
# Tokens and errors in one row

A scan tells its tokens and its errors apart, each in the order of the source. Merged by where they
begin they are one row of marks (`Scan.marks`), and this row is that of the segments which are
neither blanks nor comments, with the end of the source behind them (`Scan.marks_ofSegments`). The
reason is that segments never overlap: whichever list the next mark is in, it begins before all
that is left in both.
-/

namespace LoxLexer

/-- A token or an error of a scan. -/
inductive Mark where
  | token (t : Token)
  | error (e : LexicalError)
deriving DecidableEq, Repr

namespace Mark

def span : Mark → Span
  | token t => t.span
  | error e => e.span

def token? : Mark → Option Token
  | token t => some t
  | error _ => none

def error? : Mark → Option LexicalError
  | token _ => none
  | error e => some e

theorem eq_of_token? {m : Mark} {t : Token} (hToken : m.token? = some t) : m = token t := by
  cases m with
  | token _ => exact congrArg token (Option.some.inj hToken)
  | error _ => cases hToken

theorem eq_of_error? {m : Mark} {e : LexicalError} (hError : m.error? = some e) : m = error e := by
  cases m with
  | token _ => cases hError
  | error _ => exact congrArg error (Option.some.inj hError)

/-- Whether the first of two marks begins no later than the second. -/
def startsBy (m n : Mark) : Bool := m.span.start ≤ n.span.start

end Mark

/-- The tokens and errors of a scan, merged by where they begin. -/
def Scan.marks (s : Scan) : List Mark :=
  (s.tokens.map Mark.token).merge (s.errors.map Mark.error) Mark.startsBy

/-- What a scan makes of a placed segment. -/
def Placed.mark? (q : Placed) : Option Mark :=
  match q.segment with
  | .lexeme _ _ => q.token?.map Mark.token
  | _ => q.error?.map Mark.error

/-! ## Merging -/

section Merging

variable {α : Type} {before : α → α → Bool}

theorem cons_merge_of_first {x : α} {xs ys : List α} (hFirst : ∀ y ∈ ys, before x y = true) :
    (x :: xs).merge ys before = x :: xs.merge ys before := by
  cases ys with
  | nil => rw [List.merge_right, List.merge_right]
  | cons y ys => exact List.cons_merge_cons_pos before xs ys (hFirst y List.mem_cons_self)

theorem merge_cons_of_first {y : α} {xs ys : List α} (hFirst : ∀ x ∈ xs, ¬before x y = true) :
    xs.merge (y :: ys) before = y :: xs.merge ys before := by
  cases xs with
  | nil => rw [List.nil_merge, List.nil_merge]
  | cons x xs => exact List.cons_merge_cons_neg before xs ys (hFirst x List.mem_cons_self)

end Merging

/-! ## Marks of segments -/

theorem Scan.start_le_of_mem_tokens {p : Position} {ss : List Segment} {t : Token}
    (hMem : t ∈ (Scan.ofSegments p ss).tokens) : p.offset ≤ t.span.start := by
  rcases List.mem_append.1 hMem with hMade | hEnd
  · obtain ⟨q, hPlaced, hToken⟩ := List.mem_filterMap.1 hMade
    obtain ⟨front, back, -, hStart⟩ := Placed.mem_ofSegments_iff.1 hPlaced
    rw [(Placed.segment_of_token? hToken).2.1, hStart]
    exact Nat.le_add_right _ _
  · rw [List.mem_singleton.1 hEnd]
    exact Nat.le_add_right _ _

theorem Scan.start_le_of_mem_errors {p : Position} {ss : List Segment} {e : LexicalError}
    (hMem : e ∈ (Scan.ofSegments p ss).errors) : p.offset ≤ e.span.start := by
  obtain ⟨q, hPlaced, hError⟩ := List.mem_filterMap.1 hMem
  obtain ⟨front, back, -, hStart⟩ := Placed.mem_ofSegments_iff.1 hPlaced
  rw [(Placed.fault_of_error? hError).2.1, hStart]
  exact Nat.le_add_right _ _

/-- What comes behind a segment begins behind its place. -/
private theorem offset_lt_advance {p : Position} {text : List Char} (hSome : text ≠ []) :
    p.offset < (p.advance text).offset := by
  have hBytes : Text.byteLength text ≠ 0 := mt Text.byteLength_eq_zero_iff.1 hSome
  show p.offset < p.offset + Text.byteLength text
  omega

private theorem marks_cons_token {p : Position} {ss : List Segment} {t : Token}
    (hStart : t.span.start ≤ p.offset) :
    Scan.marks ⟨t :: (Scan.ofSegments p ss).tokens, (Scan.ofSegments p ss).errors⟩ =
      .token t :: (Scan.ofSegments p ss).marks := by
  apply cons_merge_of_first
  intro m hMem
  obtain ⟨e, hError, rfl⟩ := List.mem_map.1 hMem
  have hLater := Scan.start_le_of_mem_errors hError
  exact decide_eq_true (hStart.trans hLater)

private theorem marks_cons_error {p : Position} {ss : List Segment} {e : LexicalError}
    (hStart : e.span.start < p.offset) :
    Scan.marks ⟨(Scan.ofSegments p ss).tokens, e :: (Scan.ofSegments p ss).errors⟩ =
      .error e :: (Scan.ofSegments p ss).marks := by
  apply merge_cons_of_first
  intro m hMem
  obtain ⟨t, hToken, rfl⟩ := List.mem_map.1 hMem
  have hLater := Scan.start_le_of_mem_tokens hToken
  exact fun hFirst => Nat.not_le.2 (hStart.trans_le hLater) (of_decide_eq_true hFirst)

/-- **The marks of a row of segments** are those of its segments in their order, and the end. -/
theorem Scan.marks_ofSegments {ss : List Segment} (hSome : ∀ s ∈ ss, s.text ≠ []) (p : Position) :
    (Scan.ofSegments p ss).marks =
      (Placed.ofSegments p ss).filterMap Placed.mark? ++
        [.token (Token.endOfFile (p.advance (ss.flatMap Segment.text)))] := by
  induction ss generalizing p with
  | nil => exact List.merge_right _
  | cons s ss ih =>
      have hRest := ih (fun t hMem => hSome t (List.mem_cons_of_mem s hMem)) (p.advance s.text)
      have hStart : p.offset < (p.advance s.text).offset :=
        offset_lt_advance (hSome s List.mem_cons_self)
      rw [List.flatMap_cons, Position.advance_append, Placed.ofSegments, List.filterMap_cons,
        Scan.ofSegments_cons]
      cases s with
      | blank _ => exact hRest
      | comment _ => exact hRest
      | lexeme _ _ => exact (marks_cons_token hStart.le).trans (congrArg _ hRest)
      | unexpected _ => exact (marks_cons_error hStart).trans (congrArg _ hRest)
      | unterminated _ => exact (marks_cons_error hStart).trans (congrArg _ hRest)

theorem scan_marks (source : String) :
    (scan source).marks =
      (Placed.ofSegments .origin (Segment.segments source.toList)).filterMap Placed.mark? ++
        [.token (Token.endOfFile (Position.origin.advance source.toList))] := by
  have hSome : ∀ s ∈ Segment.segments source.toList, s.text ≠ [] :=
    fun s hMem => Segment.text_ne_nil_of_mem_segments hMem
  rw [scan_eq_ofSegments, Scan.marks_ofSegments hSome, Segment.flatMap_text_segments]

/-- The tokens among the marks of a source are its tokens. -/
theorem filterMap_token?_marks (source : String) :
    (scan source).marks.filterMap Mark.token? = (scan source).tokens := by
  have hMade (q : Placed) : q.mark?.bind Mark.token? = q.token? := by
    unfold Placed.mark? Placed.token? Placed.error?
    cases q.segment
    all_goals rfl
  rw [scan_marks, List.filterMap_append, List.filterMap_filterMap]
  simp only [hMade, scan]
  rfl

/-- The errors among the marks of a source are its errors. -/
theorem filterMap_error?_marks (source : String) :
    (scan source).marks.filterMap Mark.error? = (scan source).errors := by
  have hMade (q : Placed) : q.mark?.bind Mark.error? = q.error? := by
    unfold Placed.mark? Placed.token? Placed.error?
    cases q.segment
    all_goals rfl
  rw [scan_marks, List.filterMap_append, List.filterMap_filterMap]
  simp only [hMade, scan]
  exact List.append_nil _

theorem Scan.token_mem_marks {s : Scan} {t : Token} (hMem : t ∈ s.tokens) : .token t ∈ s.marks :=
  List.mem_merge.2 (.inl (List.mem_map_of_mem hMem))

theorem Scan.error_mem_marks {s : Scan} {e : LexicalError} (hMem : e ∈ s.errors) :
    .error e ∈ s.marks :=
  List.mem_merge.2 (.inr (List.mem_map_of_mem hMem))

end LoxLexer
