import LoxLexer.Proofs.Description

/-!
# Longest match

A declarative way of taking a source apart: at each place the longest prefix of the rest that
belongs to a class of the grammar, and where no class has a prefix, an open string or a single
unexpected character (`Segmentation`). Nothing here says how such a prefix is found.

A segment that could go on is not the longest one, since it extends to a larger segment that is
also well formed (`Segment.WellFormed.extend`); repeating this leads to the segment that a cut
takes. So a cut takes the longest prefix, the two ways of taking a source apart agree, and the
scan of a source describes its segmentation by longest match (`scan_longest_match`).
-/

namespace LoxLexer

/-- The class of a segment; unexpected characters and open strings have none. -/
def Segment.class? : Segment → Option LexicalClass
  | .blank _ => some .blank
  | .comment _ => some .comment
  | .lexeme kind _ => some (.lexeme kind)
  | .unexpected _ => none
  | .unterminated _ => none

/-- A prefix of a text that is not empty and belongs to a class. -/
structure Matches (cs text : List Char) : Prop where
  isPrefix : text <+: cs
  ne_nil : text ≠ []
  contained : ∃ cls : LexicalClass, cls.Contains text

/-- The longest prefix of a text that belongs to a class. -/
structure LongestMatch (cs text : List Char) : Prop extends Matches cs text where
  longest : ∀ other, Matches cs other → other.length ≤ text.length

/-- One step of taking a text apart: what is taken from it, and what is left. -/
inductive Takes : List Char → Segment → List Char → Prop where
  | longest {cs : List Char} {s : Segment} {cls : LexicalClass} {rest : List Char}
      (hText : s.text ++ rest = cs) (hLongest : LongestMatch cs s.text)
      (hClass : s.class? = some cls) (hContains : cls.Contains s.text) : Takes cs s rest
  | unterminated {cs : List Char} (hNone : ∀ text, ¬Matches ('"' :: cs) text) :
      Takes ('"' :: cs) (.unterminated ('"' :: cs)) []
  | unexpected {c : Char} {cs : List Char} (hNone : ∀ text, ¬Matches (c :: cs) text)
      (hQuote : c ≠ '"') : Takes (c :: cs) (.unexpected c) cs

/-- A text taken apart from the left. -/
inductive Segmentation : List Char → List Segment → Prop where
  | nil : Segmentation [] []
  | cons {cs rest : List Char} {s : Segment} {ss : List Segment} (hTakes : Takes cs s rest)
      (hRest : Segmentation rest ss) : Segmentation cs (s :: ss)

/-! ## Segments that could go on -/

namespace Segment

theorem WellFormed.contains {s : Segment} (hWellFormed : s.WellFormed) {cls : LexicalClass}
    (hClass : s.class? = some cls) : cls.Contains s.text := by
  cases hWellFormed with
  | blank hBlank =>
      cases hClass
      exact .blank hBlank
  | comment hLine =>
      cases hClass
      exact .comment hLine
  | lexeme hSpells =>
      cases hClass
      exact .lexeme hSpells
  | unexpected _ _ => cases hClass
  | unterminated _ => cases hClass

theorem exists_of_contains {cls : LexicalClass} {text : List Char}
    (hContains : cls.Contains text) :
    ∃ s : Segment, s.WellFormed ∧ s.class? = some cls ∧ s.text = text := by
  cases hContains with
  | @lexeme kind _ hSpells => exact ⟨.lexeme kind text, .lexeme hSpells, rfl, rfl⟩
  | comment hLine => exact ⟨.comment _, .comment hLine, rfl, rfl⟩
  | @blank c hBlank => exact ⟨.blank c, .blank hBlank, rfl, rfl⟩

private theorem exists_cons_of_not_head {p : Char → Prop} {rest : List Char}
    (hHead : ¬∀ c ∈ rest.head?, p c) : ∃ c after, rest = c :: after ∧ ¬p c := by
  cases rest with
  | nil => simp at hHead
  | cons c after => exact ⟨c, after, rfl, by simpa using hHead⟩

private theorem numeral_append_digit {text : List Char} (hNumeral : Numeral text) {d : Char}
    (hDigit : Digit d) : Numeral (text ++ [d]) := by
  have hSnoc {cs : List Char} (hDigits : ∀ c ∈ cs, Digit c) : ∀ c ∈ cs ++ [d], Digit c :=
    List.forall_mem_append.2 ⟨hDigits, List.forall_mem_singleton.2 hDigit⟩
  cases hNumeral with
  | integer hSome hDigits => exact .integer (by simp) (hSnoc hDigits)
  | fractional hSome hDigits hSomeAfter hDigitsAfter =>
      rw [List.append_assoc]
      exact .fractional hSome hDigits (by simp) (hSnoc hDigitsAfter)

private theorem numeral_append_point {text : List Char} (hNumeral : Numeral text)
    (hPoint : '.' ∉ text) {d : Char} (hDigit : Digit d) : Numeral (text ++ ['.', d]) := by
  cases hNumeral with
  | integer hSome hDigits =>
      exact .fractional hSome hDigits (by simp) (List.forall_mem_singleton.2 hDigit)
  | fractional => simp at hPoint

/-- The segment `t` takes all that `s` takes, and more of what follows it. -/
structure Extends (s : Segment) (rest : List Char) (t : Segment) (after : List Char) : Prop where
  wellFormed : t.WellFormed
  classified : t.class? ≠ none
  sameText : t.text ++ after = s.text ++ rest
  longer : s.text.length < t.text.length

private theorem exists_extends_paired (alone paired : Kind) {c : Char} {rest : List Char}
    (hPaired : paired.spelling? = some [c, '=']) (hGoesOn : ¬rest.head? ≠ some '=') :
    ∃ t after, (lexeme alone [c]).Extends rest t after := by
  obtain ⟨after, rfl⟩ := List.head?_eq_some_iff.1 (Decidable.of_not_not hGoesOn)
  exact ⟨.lexeme paired [c, '='], after, .lexeme (.fixed hPaired), Option.some_ne_none _, rfl,
    by simp [text]⟩

private theorem exists_extends_fixed {kind : Kind} {text rest : List Char}
    (hText : kind.spelling? = some text) (hGoesOn : ¬kind.StopsBefore text rest) :
    ∃ t after, (lexeme kind text).Extends rest t after := by
  cases kind
  all_goals cases hText
  case slash =>
      obtain ⟨after, rfl⟩ := List.head?_eq_some_iff.1 (Decidable.of_not_not hGoesOn)
      exact ⟨.comment ['/', '/'], after, .comment (by simp), Option.some_ne_none _, rfl,
        by decide⟩
  case bang => exact exists_extends_paired .bang .bangEqual rfl hGoesOn
  case equal => exact exists_extends_paired .equal .equalEqual rfl hGoesOn
  case greater => exact exists_extends_paired .greater .greaterEqual rfl hGoesOn
  case less => exact exists_extends_paired .less .lessEqual rfl hGoesOn
  all_goals exact absurd trivial hGoesOn

private theorem exists_extends_number {digits rest : List Char} (hNumeral : Numeral digits)
    (hGoesOn : ¬Kind.number.StopsBefore digits rest) :
    ∃ t after, (lexeme .number digits).Extends rest t after := by
  by_cases hHead : ∀ c ∈ rest.head?, ¬Digit c
  · have hFraction : ¬('.' ∉ digits → ∀ d after, rest = '.' :: d :: after → ¬Digit d) :=
      fun hStop => hGoesOn ⟨hHead, hStop⟩
    simp only [not_forall, not_not] at hFraction
    obtain ⟨hPoint, d, after, rfl, hDigit⟩ := hFraction
    have hLonger := numeral_append_point hNumeral hPoint hDigit
    exact ⟨.lexeme .number (digits ++ ['.', d]), after, .lexeme (.number hLonger),
      Option.some_ne_none _, by simp [text], by simp [text]⟩
  · obtain ⟨d, after, rfl, hDigit⟩ := exists_cons_of_not_head hHead
    have hLonger := numeral_append_digit hNumeral (Decidable.of_not_not hDigit)
    exact ⟨.lexeme .number (digits ++ [d]), after, .lexeme (.number hLonger),
      Option.some_ne_none _, by simp [text], by simp [text]⟩

private theorem exists_extends_identifier {c : Char} {cs rest : List Char} (hFirst : Letter c)
    (hRest : ∀ d ∈ cs, WordCharacter d)
    (hGoesOn : ¬Kind.identifier.StopsBefore (c :: cs) rest) :
    ∃ t after, (lexeme .identifier (c :: cs)).Extends rest t after := by
  obtain ⟨d, after, rfl, hWord⟩ := exists_cons_of_not_head hGoesOn
  have hLonger : ∀ x ∈ cs ++ [d], WordCharacter x :=
    List.forall_mem_append.2
      ⟨hRest, List.forall_mem_singleton.2 (Decidable.of_not_not hWord)⟩
  exact ⟨.lexeme .identifier (c :: (cs ++ [d])), after, .lexeme (.identifier hFirst hLonger),
    Option.some_ne_none _, by simp [text], by simp [text]⟩

private theorem exists_extends_comment {line rest : List Char} (hLine : '\n' ∉ line)
    (hGoesOn : ¬∀ c ∈ rest.head?, c = '\n') :
    ∃ t after, (comment ('/' :: '/' :: line)).Extends rest t after := by
  obtain ⟨c, after, rfl, hOther⟩ := exists_cons_of_not_head hGoesOn
  have hLonger : '\n' ∉ line ++ [c] := by simpa [hLine] using Ne.symm hOther
  exact ⟨.comment ('/' :: '/' :: (line ++ [c])), after, .comment hLonger, Option.some_ne_none _,
    by simp [text], by simp [text]⟩

/-- **A segment that does not stop is not the longest**: it extends to a larger one. -/
theorem WellFormed.exists_extends {s : Segment} (hWellFormed : s.WellFormed)
    (hClass : s.class? ≠ none) {rest : List Char} (hGoesOn : ¬s.StopsBefore rest) :
    ∃ t after, s.Extends rest t after := by
  cases hWellFormed with
  | blank _ => exact absurd trivial hGoesOn
  | comment hLine => exact exists_extends_comment hLine hGoesOn
  | lexeme hSpells =>
      cases hSpells with
      | fixed hText => exact exists_extends_fixed hText hGoesOn
      | string _ => exact absurd trivial hGoesOn
      | number hNumeral => exact exists_extends_number hNumeral hGoesOn
      | identifier hFirst hRest => exact exists_extends_identifier hFirst hRest hGoesOn
  | unexpected _ _ => exact absurd rfl hClass
  | unterminated _ => exact absurd rfl hClass

/-- **A cut takes no less than any segment** that the text begins with and that belongs to a
class. -/
theorem WellFormed.length_le_cut {s : Segment} (hWellFormed : s.WellFormed)
    (hClass : s.class? ≠ none) {rest : List Char} {c : Char} {cs : List Char}
    (hText : s.text ++ rest = c :: cs) : s.text.length ≤ (cut c cs).1.text.length := by
  by_cases hStops : s.StopsBefore rest
  · rw [cut_eq_of_complete ⟨hWellFormed, hStops⟩ hText]
  · -- The larger segment leaves less behind it, so this ends.
    obtain ⟨t, after, hExtends⟩ := hWellFormed.exists_extends hClass hStops
    have hLonger := hExtends.longer
    have hShorter : after.length < rest.length := by
      have hLength := congrArg List.length hExtends.sameText
      simp only [List.length_append] at hLength
      omega
    have hMore := hExtends.wellFormed.length_le_cut hExtends.classified
      (hExtends.sameText.trans hText)
    omega
termination_by rest.length

end Segment

/-! ## A cut takes the longest prefix -/

/-- **The classes are disjoint**, as a cut of the text tells which of them it belongs to. -/
theorem LexicalClass.Contains.unique {first second : LexicalClass} {text : List Char}
    (hFirst : first.Contains text) (hSecond : second.Contains text) : first = second := by
  obtain ⟨s, hs, hsClass, rfl⟩ := Segment.exists_of_contains hFirst
  obtain ⟨t, ht, htClass, htText⟩ := Segment.exists_of_contains hSecond
  obtain ⟨c, cs, hText⟩ := List.exists_cons_of_ne_nil hs.text_ne_nil
  have hsCut := Segment.cut_eq_of_complete hs.complete_nil (s.text.append_nil.trans hText)
  have htCut := Segment.cut_eq_of_complete ht.complete_nil
    (t.text.append_nil.trans (htText.trans hText))
  cases hsCut.symm.trans htCut
  exact Option.some.inj (hsClass.symm.trans htClass)

theorem LongestMatch.unique {cs first second : List Char} (hFirst : LongestMatch cs first)
    (hSecond : LongestMatch cs second) : first = second := by
  have hLength := Nat.le_antisymm (hSecond.longest _ hFirst.toMatches)
    (hFirst.longest _ hSecond.toMatches)
  have hPrefix := List.prefix_of_prefix_length_le hFirst.isPrefix hSecond.isPrefix hLength.le
  exact hPrefix.eq_of_length hLength

theorem Matches.length_le_cut {c : Char} {cs text : List Char} (hMatches : Matches (c :: cs) text) :
    text.length ≤ (Segment.cut c cs).1.text.length := by
  obtain ⟨⟨rest, hRest⟩, -, cls, hContains⟩ := hMatches
  obtain ⟨s, hWellFormed, hClass, rfl⟩ := Segment.exists_of_contains hContains
  exact hWellFormed.length_le_cut (by simp [hClass]) hRest

private theorem takes_of_class {cs rest : List Char} {s : Segment} (hWellFormed : s.WellFormed)
    (hClass : s.class? ≠ none) (hText : s.text ++ rest = cs)
    (hLongest : ∀ other, Matches cs other → other.length ≤ s.text.length) : Takes cs s rest := by
  obtain ⟨cls, hSome⟩ := Option.ne_none_iff_exists'.1 hClass
  have hContains := hWellFormed.contains hSome
  have hMatches : Matches cs s.text := ⟨⟨rest, hText⟩, hWellFormed.text_ne_nil, cls, hContains⟩
  exact .longest hText ⟨hMatches, hLongest⟩ hSome hContains

private theorem not_matches_unexpected {c : Char} {cs text : List Char}
    (hBlank : c ∉ [' ', '\t', '\r', '\n']) (hNone : ∀ kind : Kind, ¬kind.Begins c) :
    ¬Matches (c :: cs) text := by
  rintro ⟨hPrefix, hSome, cls, hContains⟩
  obtain ⟨d, ds, rfl⟩ := List.exists_cons_of_ne_nil hSome
  obtain ⟨rfl, -⟩ := List.cons_prefix_cons.1 hPrefix
  rcases hContains.begins with hBegins | ⟨kind, hBegins⟩
  · exact hBlank hBegins
  · exact hNone kind hBegins

private theorem not_matches_unterminated {body text : List Char} (hOpen : '"' ∉ body) :
    ¬Matches ('"' :: body) text := by
  rintro ⟨hPrefix, hSome, cls, hContains⟩
  cases hContains with
  | @lexeme kind _ hSpells =>
      obtain ⟨d, ds, rfl, hBegins⟩ := hSpells.exists_begins
      obtain ⟨rfl, hInside⟩ := List.cons_prefix_cons.1 hPrefix
      obtain rfl := hBegins.quote_iff.1 rfl
      have hClosed : '"' ∈ ds := by
        generalize hLexeme : '"' :: ds = lexeme at hSpells
        cases hSpells with
        | fixed hText => cases hText
        | string _ =>
            cases hLexeme
            simp
      exact hOpen (hInside.subset hClosed)
  | comment _ => simp at hPrefix
  | blank hBlank =>
      obtain ⟨rfl, -⟩ := List.cons_prefix_cons.1 hPrefix
      simp at hBlank

theorem takes_cut (c : Char) (cs : List Char) :
    Takes (c :: cs) (Segment.cut c cs).1 (Segment.cut c cs).2 := by
  obtain ⟨hWellFormed, hStops⟩ := Segment.complete_cut c cs
  have hText := Segment.text_cut_append c cs
  have hLongest (other : List Char) (hMatches : Matches (c :: cs) other) :=
    hMatches.length_le_cut
  generalize Segment.cut c cs = taken at *
  obtain ⟨s, rest⟩ := taken
  cases hWellFormed with
  | blank hBlank => exact takes_of_class (.blank hBlank) (Option.some_ne_none _) hText hLongest
  | comment hLine => exact takes_of_class (.comment hLine) (Option.some_ne_none _) hText hLongest
  | lexeme hSpells => exact takes_of_class (.lexeme hSpells) (Option.some_ne_none _) hText hLongest
  | unexpected hBlank hNone =>
      cases hText
      exact .unexpected (fun _ => not_matches_unexpected hBlank hNone) (hNone .string)
  | unterminated hOpen =>
      cases hStops
      simp only [Segment.text, List.append_nil, List.cons.injEq] at hText
      obtain ⟨rfl, rfl⟩ := hText
      exact .unterminated fun _ => not_matches_unterminated hOpen

private theorem eq_of_class?_of_text {s t : Segment} {cls : LexicalClass} (hs : s.class? = some cls)
    (ht : t.class? = some cls) (hText : s.text = t.text) : s = t := by
  cases s
  all_goals cases hs
  all_goals cases t
  all_goals cases ht
  all_goals simpa [Segment.text] using hText

theorem Takes.unique {cs rest rest' : List Char} {s s' : Segment} (hFirst : Takes cs s rest)
    (hSecond : Takes cs s' rest') : s = s' ∧ rest = rest' := by
  cases hFirst with
  | longest hText hLongest hClass hContains =>
      cases hSecond with
      | longest hText' hLongest' hClass' hContains' =>
          have hSame := hLongest.unique hLongest'
          rw [← hSame] at hContains'
          obtain rfl := hContains.unique hContains'
          obtain rfl := eq_of_class?_of_text hClass hClass' hSame
          exact ⟨rfl, List.append_cancel_left (hText.trans hText'.symm)⟩
      | unterminated hNone => exact absurd hLongest.toMatches (hNone _)
      | unexpected hNone _ => exact absurd hLongest.toMatches (hNone _)
  | unterminated hNone =>
      cases hSecond with
      | longest _ hLongest _ _ => exact absurd hLongest.toMatches (hNone _)
      | unterminated _ => exact ⟨rfl, rfl⟩
      | unexpected _ hQuote => exact absurd rfl hQuote
  | unexpected hNone hQuote =>
      cases hSecond with
      | longest _ hLongest _ _ => exact absurd hLongest.toMatches (hNone _)
      | unterminated _ => exact absurd rfl hQuote
      | unexpected _ _ => exact ⟨rfl, rfl⟩

theorem Takes.ne_nil {cs rest : List Char} {s : Segment} (hTakes : Takes cs s rest) : cs ≠ [] := by
  cases hTakes with
  | longest _ hLongest _ _ =>
      rintro rfl
      exact hLongest.ne_nil (List.prefix_nil.1 hLongest.isPrefix)
  | unterminated _ => simp
  | unexpected _ _ => simp

/-- **Segments are taken by longest match**, and in no other way. -/
theorem segmentation_iff {cs : List Char} {ss : List Segment} :
    Segmentation cs ss ↔ Segment.segments cs = ss := by
  constructor
  · intro hSegmentation
    induction hSegmentation with
    | nil => exact Segment.segments_nil
    | @cons cs rest s ss hTakes _ ih =>
        cases cs with
        | nil => exact absurd rfl hTakes.ne_nil
        | cons c cs =>
            obtain ⟨rfl, rfl⟩ := hTakes.unique (takes_cut c cs)
            rw [Segment.segments_cons, ih]
  · rintro rfl
    fun_induction Segment.segments cs with
    | case1 => exact .nil
    | case2 c cs ih => exact .cons (takes_cut c cs) ih

/-- **Scanning is longest match.** The longest prefix of any text that belongs to a class belongs to
one class only, and one step from any text that is not empty is determined; so a source has
exactly one segmentation. It covers the source, and the scan is its description: one token for
each lexeme, one error for each unexpected character and open string, and the end. -/
theorem scan_longest_match (source : String) :
    (∀ cs text, LongestMatch cs text → ∃! cls : LexicalClass, cls.Contains text) ∧
      (∀ cs, cs ≠ [] → ∃! step : Segment × List Char, Takes cs step.1 step.2) ∧
      ∃ ss, Segmentation source.toList ss ∧
        (∀ other, Segmentation source.toList other → other = ss) ∧
        ss.flatMap Segment.text = source.toList ∧
        ∀ result : Scan, result.Describes [] ss ↔ result = scan source := by
  refine ⟨?_, ?_, Segment.segments source.toList, segmentation_iff.2 rfl, ?_,
    Segment.flatMap_text_segments source.toList, ?_⟩
  · intro cs text hLongest
    obtain ⟨cls, hContains⟩ := hLongest.contained
    exact ⟨cls, hContains, fun _ hOther => hOther.unique hContains⟩
  · intro cs hSome
    obtain ⟨c, cs, rfl⟩ := List.exists_cons_of_ne_nil hSome
    refine ⟨Segment.cut c cs, takes_cut c cs, ?_⟩
    rintro ⟨s, rest⟩ hTakes
    obtain ⟨hSegment, hRest⟩ := hTakes.unique (takes_cut c cs)
    exact Prod.ext hSegment hRest
  · intro other hOther
    exact (segmentation_iff.1 hOther).symm
  · intro result
    constructor
    · intro hDescribes
      exact hDescribes.unique (describes_scan source)
    · rintro rfl
      exact describes_scan source

end LoxLexer
