import LoxLexer.Proofs.Description

/-!
# Which lexemes may touch

Lexemes that are written with nothing between them may run into each other: `1` and `2` become
`12`, `=` and `==` become `==` and `=`, and two slashes become a comment that swallows what
follows. `Fuses` lists the ways in which a row of lexemes can begin like that. There are five, and
only one of them looks at three lexemes. A row of lexemes comes back from a scan as it was written
exactly if none of them occurs in it (`scan_touching_iff`).

A scan that gives back the right tokens leaves no room for anything else: the lexemes are as long
as the source, so its segments are the lexemes and nothing more. Hence the lexemes are a chain,
and it remains to see what the chain condition says about the lexemes that follow.
-/

namespace LoxLexer

/-- Rows of lexemes of which the first runs into what follows it. -/
inductive Fuses : List Lexeme → Prop where
  | identifier {a b : Lexeme} {rest : List Lexeme} (hFirst : a.kind = .identifier)
      (hSecond : b.kind = .identifier ∨ b.kind = .number) : Fuses (a :: b :: rest)
  | number {a b : Lexeme} {rest : List Lexeme} (hFirst : a.kind = .number)
      (hSecond : b.kind = .number) : Fuses (a :: b :: rest)
  | fraction {a b c : Lexeme} {rest : List Lexeme} (hFirst : a.kind = .number)
      (hWhole : '.' ∉ a.text) (hSecond : b.kind = .dot) (hThird : c.kind = .number) :
      Fuses (a :: b :: c :: rest)
  | operator {a b : Lexeme} {rest : List Lexeme}
      (hFirst : a.kind ∈ [Kind.bang, Kind.equal, Kind.less, Kind.greater])
      (hSecond : b.kind = .equal ∨ b.kind = .equalEqual) : Fuses (a :: b :: rest)
  | slash {a b : Lexeme} {rest : List Lexeme} (hFirst : a.kind = .slash)
      (hSecond : b.kind = .slash) : Fuses (a :: b :: rest)

/-- Lexemes with nothing between them. -/
def Lexeme.concat (items : List Lexeme) : List Char :=
  items.flatMap Lexeme.text

def lexemeSegments (items : List Lexeme) : List Segment :=
  items.map fun item => .lexeme item.kind item.text

theorem flatMap_text_lexemeSegments (items : List Lexeme) :
    (lexemeSegments items).flatMap Segment.text = Lexeme.concat items := by
  rw [lexemeSegments, List.flatMap_map, Lexeme.concat]
  rfl

/-! ## What follows a lexeme -/

private theorem fuses_iff {a b : Lexeme} {rest : List Lexeme} :
    Fuses (a :: b :: rest) ↔
      (a.kind = .identifier ∧ (b.kind = .identifier ∨ b.kind = .number)) ∨
      (a.kind = .number ∧ (b.kind = .number ∨
        ('.' ∉ a.text ∧ b.kind = .dot ∧ ∃ c ∈ rest.head?, c.kind = .number))) ∨
      (a.kind ∈ [Kind.bang, Kind.equal, Kind.less, Kind.greater] ∧
        (b.kind = .equal ∨ b.kind = .equalEqual)) ∨
      (a.kind = .slash ∧ b.kind = .slash) := by
  constructor
  · intro hFuses
    cases hFuses with
    | identifier hFirst hSecond => exact .inl ⟨hFirst, hSecond⟩
    | number hFirst hSecond => exact .inr (.inl ⟨hFirst, .inl hSecond⟩)
    | fraction hFirst hWhole hSecond hThird =>
        exact .inr (.inl ⟨hFirst, .inr ⟨hWhole, hSecond, _, rfl, hThird⟩⟩)
    | operator hFirst hSecond => exact .inr (.inr (.inl ⟨hFirst, hSecond⟩))
    | slash hFirst hSecond => exact .inr (.inr (.inr ⟨hFirst, hSecond⟩))
  · rintro (⟨hFirst, hSecond⟩ | ⟨hFirst, hSecond | ⟨hWhole, hSecond, c, hHead, hThird⟩⟩ |
      ⟨hFirst, hSecond⟩ | ⟨hFirst, hSecond⟩)
    · exact .identifier hFirst hSecond
    · exact .number hFirst hSecond
    · obtain ⟨after, rfl⟩ := List.head?_eq_some_iff.1 hHead
      exact .fraction hFirst hWhole hSecond hThird
    · exact .operator hFirst hSecond
    · exact .slash hFirst hSecond

theorem concat_cons_begins (b : Lexeme) (rest : List Lexeme) :
    ∃ c cs, Lexeme.concat (b :: rest) = c :: (cs ++ Lexeme.concat rest) ∧ b.kind.Spells (c :: cs) ∧
      b.kind.Begins c := by
  obtain ⟨c, cs, hText, hBegins⟩ := b.spelled.exists_begins
  refine ⟨c, cs, ?_, hText ▸ b.spelled, hBegins⟩
  rw [Lexeme.concat, List.flatMap_cons, hText]
  rfl

/-- A point and a digit follow exactly where a `dot` and a number do. -/
private theorem exists_fraction_iff (b : Lexeme) (rest : List Lexeme) :
    (∃ d cs, Lexeme.concat (b :: rest) = '.' :: d :: cs ∧ Digit d) ↔
      b.kind = .dot ∧ ∃ c ∈ rest.head?, c.kind = .number := by
  obtain ⟨c, cs, hText, hSpells, hBegins⟩ := concat_cons_begins b rest
  have hDot (hKind : b.kind = .dot) : cs = [] := by
    rw [hKind] at hSpells
    cases hSpells with
    | fixed hFixed => exact (List.cons.inj (Option.some.inj hFixed)).2.symm
  rw [hText]
  constructor
  · rintro ⟨d, after, hRest, hDigit⟩
    obtain ⟨hPoint, hAfter⟩ := List.cons.inj hRest
    have hKind := hBegins.dot_iff.1 hPoint
    refine ⟨hKind, ?_⟩
    rw [hDot hKind, List.nil_append] at hAfter
    cases rest with
    | nil => cases hAfter
    | cons x rest =>
        obtain ⟨y, ys, hNext, -, hNextBegins⟩ := concat_cons_begins x rest
        rw [hNext] at hAfter
        obtain ⟨rfl, -⟩ := List.cons.inj hAfter
        exact ⟨x, rfl, hNextBegins.digit_iff.1 hDigit⟩
  · rintro ⟨hKind, x, hHead, hNumber⟩
    obtain ⟨after, rfl⟩ := List.head?_eq_some_iff.1 hHead
    obtain ⟨y, ys, hNext, -, hNextBegins⟩ := concat_cons_begins x after
    refine ⟨y, ys ++ Lexeme.concat after, ?_, hNextBegins.digit_iff.2 hNumber⟩
    rw [hDot hKind, hNext, hBegins.dot_iff.2 hKind, List.nil_append]

private theorem stopsBefore_number_iff (text : List Char) (b : Lexeme) (rest : List Lexeme) :
    Kind.number.StopsBefore text (Lexeme.concat (b :: rest)) ↔
      b.kind ≠ .number ∧
        ('.' ∉ text → ¬(b.kind = .dot ∧ ∃ c ∈ rest.head?, c.kind = .number)) := by
  have hFraction : (∀ d cs, Lexeme.concat (b :: rest) = '.' :: d :: cs → ¬Digit d) ↔
      ¬(b.kind = .dot ∧ ∃ c ∈ rest.head?, c.kind = .number) := by
    rw [← exists_fraction_iff]
    simp only [not_exists, not_and]
  have hHead : (∀ c ∈ (Lexeme.concat (b :: rest)).head?, ¬Digit c) ↔ b.kind ≠ .number := by
    obtain ⟨c, cs, hText, -, hBegins⟩ := concat_cons_begins b rest
    simp [hText, hBegins.digit_iff]
  rw [Kind.StopsBefore, hHead, hFraction]

/-- **A lexeme stops exactly if it does not run into the next ones.** -/
theorem stopsBefore_concat_iff (a : Lexeme) (rest : List Lexeme) :
    a.kind.StopsBefore a.text (Lexeme.concat rest) ↔ ¬Fuses (a :: rest) := by
  cases rest with
  | nil =>
      constructor
      · intro _ hFuses
        cases hFuses
      · intro _
        exact (Segment.WellFormed.lexeme a.spelled).complete_nil.stops
  | cons b rest =>
      rw [fuses_iff]
      cases hKind : a.kind
      case number =>
          rw [stopsBefore_number_iff]
          simp
      all_goals
        obtain ⟨c, cs, hText, -, hBegins⟩ := concat_cons_begins b rest
        simp [Kind.StopsBefore, hText, hBegins.wordCharacter_iff, hBegins.equals_iff,
          hBegins.slash_iff]

/-- The lexemes are a chain of segments exactly if no part of the row runs together. -/
theorem chain_lexemeSegments_iff (items : List Lexeme) :
    Segment.Chain (lexemeSegments items) ↔ ∀ tail, tail <:+ items → ¬Fuses tail := by
  induction items with
  | nil =>
      constructor
      · intro _ tail hSuffix hFuses
        rw [List.suffix_nil.1 hSuffix] at hFuses
        cases hFuses
      · intro _
        trivial
  | cons a rest ih =>
      have hHead : (Segment.lexeme a.kind a.text).Complete
          ((lexemeSegments rest).flatMap Segment.text) ↔ ¬Fuses (a :: rest) := by
        rw [flatMap_text_lexemeSegments, ← stopsBefore_concat_iff]
        exact ⟨fun hComplete => hComplete.stops, fun hStops => ⟨.lexeme a.spelled, hStops⟩⟩
      show (Segment.lexeme a.kind a.text).Complete ((lexemeSegments rest).flatMap Segment.text) ∧
        Segment.Chain (lexemeSegments rest) ↔ _
      rw [hHead, ih]
      constructor
      · intro hBoth tail hSuffix
        rcases List.suffix_cons_iff.1 hSuffix with rfl | hSuffix
        · exact hBoth.1
        · exact hBoth.2 tail hSuffix
      · intro hAll
        refine ⟨hAll _ List.suffix_rfl, ?_⟩
        intro tail hSuffix
        exact hAll tail (hSuffix.trans (List.suffix_cons a rest))

/-! ## No room for anything else -/

/-- The lexemes among segments are no longer than the segments. -/
private theorem length_lexemes_le (ss : List Segment) :
    ((ss.filterMap Segment.lexeme?).flatMap Prod.snd).length ≤
      (ss.flatMap Segment.text).length := by
  induction ss with
  | nil => exact Nat.le_refl _
  | cons s ss ih =>
      rw [List.flatMap_cons, List.length_append]
      cases hLexeme : s.lexeme? with
      | none =>
          rw [List.filterMap_cons_none hLexeme]
          omega
      | some pair =>
          rw [List.filterMap_cons_some hLexeme, List.flatMap_cons, List.length_append,
            Segment.eq_of_lexeme? hLexeme, Segment.text]
          omega

/-- Segments that are no longer than the lexemes among them are those lexemes. -/
private theorem eq_lexemes_of_length_le {ss : List Segment} (hSome : ∀ s ∈ ss, s.text ≠ [])
    (hLength : (ss.flatMap Segment.text).length ≤
      ((ss.filterMap Segment.lexeme?).flatMap Prod.snd).length) :
    ss = (ss.filterMap Segment.lexeme?).map fun pair => .lexeme pair.1 pair.2 := by
  induction ss with
  | nil => rfl
  | cons s ss ih =>
      have hRest := length_lexemes_le ss
      have hFirst := List.length_pos_iff.2 (hSome s List.mem_cons_self)
      rw [List.flatMap_cons, List.length_append] at hLength
      cases hLexeme : s.lexeme? with
      | none =>
          -- The segments behind this one would be shorter than the lexemes among them.
          rw [List.filterMap_cons_none hLexeme] at hLength
          omega
      | some pair =>
          rw [List.filterMap_cons_some hLexeme, List.flatMap_cons, List.length_append,
            Segment.eq_of_lexeme? hLexeme, Segment.text] at hLength
          rw [List.filterMap_cons_some hLexeme, List.map_cons,
            ← ih (fun t hMem => hSome t (List.mem_cons_of_mem s hMem)) (by omega),
            ← Segment.eq_of_lexeme? hLexeme]

/-- **Lexemes that come back are all there is**: if the lexemes among the segments of a text spell
all of it, the segments are those lexemes. -/
theorem segments_concat_of_lexemes {items : List Lexeme}
    (hLexemes : (Segment.segments (Lexeme.concat items)).filterMap Segment.lexeme? =
      items.map fun item => (item.kind, item.text)) :
    Segment.segments (Lexeme.concat items) = lexemeSegments items := by
  have hSome : ∀ s ∈ Segment.segments (Lexeme.concat items), s.text ≠ [] :=
    fun s hMem => Segment.text_ne_nil_of_mem_segments hMem
  have hLength : ((Segment.segments (Lexeme.concat items)).flatMap Segment.text).length ≤
      (((Segment.segments (Lexeme.concat items)).filterMap Segment.lexeme?).flatMap
        Prod.snd).length := by
    rw [Segment.flatMap_text_segments, hLexemes, List.flatMap_map]
    exact Nat.le_refl _
  rw [eq_lexemes_of_length_le hSome hLength, hLexemes, List.map_map]
  rfl

theorem filterMap_lexeme?_lexemeSegments (items : List Lexeme) :
    (lexemeSegments items).filterMap Segment.lexeme? =
      items.map fun item => (item.kind, item.text) := by
  rw [lexemeSegments, List.filterMap_map]
  exact congrFun List.filterMap_eq_map items

theorem filterMap_fault?_lexemeSegments (items : List Lexeme) :
    (lexemeSegments items).filterMap Segment.fault? = [] := by
  rw [lexemeSegments, List.filterMap_map]
  exact List.filterMap_eq_nil_iff.2 fun _ _ => rfl

/-- **Which lexemes may touch.** Lexemes with nothing between them come back from a scan, without
errors and as they were, exactly if no part of the row runs together. -/
theorem scan_touching_iff (items : List Lexeme) :
    ((scan (String.ofList (Lexeme.concat items))).errors = [] ∧
        (scan (String.ofList (Lexeme.concat items))).tokens.map
            (fun t => (t.kind, t.lexeme.toList)) =
          items.map (fun item => (item.kind, item.text)) ++ [(.endOfFile, [])]) ↔
      ∀ tail, tail <:+ items → ¬Fuses tail := by
  have hDescribes := describes_scan (String.ofList (Lexeme.concat items))
  rw [String.toList_ofList] at hDescribes
  rw [← chain_lexemeSegments_iff, hDescribes.map_tokens]
  constructor
  · intro hBack
    have hSegments := segments_concat_of_lexemes (List.append_cancel_right hBack.2)
    exact (Segment.segments_eq_iff.1 hSegments).2
  · intro hChain
    have hSegments := Segment.segments_eq_iff.2 ⟨flatMap_text_lexemeSegments items, hChain⟩
    have hErrors := hDescribes.map_errors
    rw [hSegments, filterMap_fault?_lexemeSegments, List.map_eq_nil_iff] at hErrors
    rw [hSegments, filterMap_lexeme?_lexemeSegments]
    exact ⟨hErrors, rfl⟩

end LoxLexer
