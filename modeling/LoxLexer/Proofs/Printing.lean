import LoxLexer.Proofs.Description
import Mathlib.Data.List.Basic

/-!
# Scanning undoes printing

Lexemes are printed one after another, with a separator after each of them and one in front. A
separator is a row of blanks and of whole comments, each with the line feed that ends it; it may
be empty in front of the first lexeme and behind the last one, and begins with a blank elsewhere.
Whatever the comments say, and whatever the strings hold, the scan of what is printed is the list
of lexemes again, each with its value and the place at which it was printed
(`scan_printed`).

The reason is that a blank stops every lexeme (`Kind.stopsBefore_blank`) and a line feed
stops every comment, so that the segments of lexemes and separators in a row are a chain, and
hence the segments of the printed text.
-/

namespace LoxLexer

/-! ## Separators -/

/-- What may stand between lexemes: a blank, or a comment with the line feed that ends it. -/
inductive Filler where
  | blank (c : Char) (hBlank : c ∈ [' ', '\t', '\r', '\n'])
  | comment (line : List Char) (hLine : '\n' ∉ line)

namespace Filler

def text : Filler → List Char
  | blank c _ => [c]
  | comment line _ => '/' :: '/' :: line ++ ['\n']

/-- The segments of a filler: a comment ends before its line feed, which is a blank. -/
def segments : Filler → List Segment
  | blank c _ => [.blank c]
  | comment line _ => [.comment ('/' :: '/' :: line), .blank '\n']

theorem flatMap_text_segments (f : Filler) : f.segments.flatMap Segment.text = f.text := by
  cases f
  all_goals simp [segments, text, Segment.text]

end Filler

/-- A row of fillers that does not begin with a comment. -/
structure Separator where
  fillers : List Filler
  begins : ∀ f ∈ fillers.head?, ∃ c hBlank, f = .blank c hBlank

namespace Separator

def text (sep : Separator) : List Char :=
  sep.fillers.flatMap Filler.text

def segments (sep : Separator) : List Segment :=
  sep.fillers.flatMap Filler.segments

theorem flatMap_text_segments (sep : Separator) :
    sep.segments.flatMap Segment.text = sep.text := by
  rw [segments, List.flatMap_assoc, text]
  exact List.flatMap_congr fun f _ => f.flatMap_text_segments

/-- A separator that is not empty begins with a blank. -/
theorem exists_blank {sep : Separator} (hSome : sep.fillers ≠ []) :
    ∃ c cs, c ∈ [' ', '\t', '\r', '\n'] ∧ sep.text = c :: cs := by
  obtain ⟨f, fs, hFillers⟩ := List.exists_cons_of_ne_nil hSome
  obtain ⟨c, hBlank, rfl⟩ := sep.begins f (by rw [hFillers]; rfl)
  refine ⟨c, fs.flatMap Filler.text, hBlank, ?_⟩
  rw [text, hFillers]
  rfl

end Separator

/-! ## Printing -/

/-- Whether each separator has something in it that another lexeme follows. -/
def Apart : List (Lexeme × Separator) → Prop
  | [] => True
  | (_, sep) :: rest => (rest ≠ [] → sep.fillers ≠ []) ∧ Apart rest

/-- Lexemes, each followed by its separator. -/
def printEntries : List (Lexeme × Separator) → List Char
  | [] => []
  | (item, sep) :: rest => item.text ++ sep.text ++ printEntries rest

def entrySegments : List (Lexeme × Separator) → List Segment
  | [] => []
  | (item, sep) :: rest => .lexeme item.kind item.text :: (sep.segments ++ entrySegments rest)

/-- The tokens of lexemes that are printed after a text, and the end. -/
inductive ReadBack : List Char → List (Lexeme × Separator) → List Token → Prop where
  | nil {before : List Char} :
      ReadBack before []
        [⟨.endOfFile, "", none,
          ⟨Text.byteLength before, Text.byteLength before, lineAfter before⟩⟩]
  | cons {before : List Char} {item : Lexeme} {sep : Separator} {literal : Option Literal}
      {rest : List (Lexeme × Separator)} {tokens : List Token}
      (hLiteral : item.kind.Carries item.text literal)
      (hRest : ReadBack (before ++ item.text ++ sep.text) rest tokens) :
      ReadBack before ((item, sep) :: rest)
        (⟨item.kind, String.ofList item.text, literal, ⟨Text.byteLength before,
          Text.byteLength (before ++ item.text), lineAfter before⟩⟩ :: tokens)

theorem flatMap_text_entrySegments (entries : List (Lexeme × Separator)) :
    (entrySegments entries).flatMap Segment.text = printEntries entries := by
  induction entries with
  | nil => rfl
  | cons entry rest ih =>
      obtain ⟨item, sep⟩ := entry
      rw [entrySegments, printEntries, List.flatMap_cons, List.flatMap_append,
        Separator.flatMap_text_segments, ih, List.append_assoc]
      rfl

/-! ## What stops where -/

theorem chain_fillers {ss : List Segment} (hChain : Segment.Chain ss) (fillers : List Filler) :
    Segment.Chain (fillers.flatMap Filler.segments ++ ss) := by
  induction fillers with
  | nil => exact hChain
  | cons f fs ih =>
      rw [List.flatMap_cons, List.append_assoc]
      cases f with
      | blank c hBlank => exact ⟨⟨.blank hBlank, trivial⟩, ih⟩
      | comment line hLine =>
          have hFeed : Segment.WellFormed (.blank '\n') := .blank (by simp)
          refine ⟨⟨.comment hLine, ?_⟩, ⟨hFeed, trivial⟩, ih⟩
          intro c hHead
          exact (Option.some.inj hHead).symm

/-- **Separated lexemes are a chain**: each is stopped by the separator behind it. -/
theorem chain_entrySegments {entries : List (Lexeme × Separator)} (hApart : Apart entries) :
    Segment.Chain (entrySegments entries) := by
  induction entries with
  | nil => trivial
  | cons entry rest ih =>
      obtain ⟨item, sep⟩ := entry
      obtain ⟨hSep, hRest⟩ := hApart
      refine ⟨⟨.lexeme item.spelled, ?_⟩, chain_fillers (ih hRest) sep.fillers⟩
      rw [List.flatMap_append, Separator.flatMap_text_segments, flatMap_text_entrySegments]
      by_cases hEmpty : sep.fillers = []
      · -- Only the last separator may be empty, and at the end everything stops.
        have hLast : rest = [] := by
          by_contra hMore
          exact hSep hMore hEmpty
        subst hLast
        rw [Separator.text, hEmpty]
        exact (Segment.WellFormed.lexeme item.spelled).complete_nil.stops
      · obtain ⟨c, cs, hBlank, hText⟩ := Separator.exists_blank hEmpty
        rw [hText]
        exact Kind.stopsBefore_blank hBlank _

/-! ## Reading back -/

theorem describes_fillers {result : Scan} {before : List Char} {fillers : List Filler}
    {ss : List Segment}
    (hDescribes : result.Describes before (fillers.flatMap Filler.segments ++ ss)) :
    result.Describes (before ++ fillers.flatMap Filler.text) ss := by
  induction fillers generalizing before with
  | nil => simpa using hDescribes
  | cons f fs ih =>
      rw [List.flatMap_cons, List.append_assoc] at hDescribes
      rw [List.flatMap_cons, ← List.append_assoc]
      apply ih
      cases f with
      | blank c _ =>
          cases hDescribes with
          | blank hRest => exact hRest
      | comment line _ =>
          cases hDescribes with
          | comment hRest =>
              cases hRest with
              | blank hRest => simpa [Filler.text] using hRest

theorem readBack_of_describes {result : Scan} {before : List Char}
    {entries : List (Lexeme × Separator)}
    (hDescribes : result.Describes before (entrySegments entries)) :
    result.errors = [] ∧ ReadBack before entries result.tokens := by
  induction entries generalizing before result with
  | nil =>
      cases hDescribes with
      | nil => exact ⟨rfl, .nil⟩
  | cons entry rest ih =>
      obtain ⟨item, sep⟩ := entry
      cases hDescribes with
      | lexeme hLiteral hRest =>
          obtain ⟨hErrors, hTokens⟩ := ih (describes_fillers hRest)
          exact ⟨hErrors, .cons hLiteral hTokens⟩

/-- What is read back has the kinds and the texts of the lexemes, in their order. -/
theorem ReadBack.map_tokens {before : List Char} {entries : List (Lexeme × Separator)}
    {tokens : List Token} (hReadBack : ReadBack before entries tokens) :
    tokens.map (fun t => (t.kind, t.lexeme)) =
      entries.map (fun entry => (entry.1.kind, String.ofList entry.1.text)) ++
        [(.endOfFile, "")] := by
  induction hReadBack with
  | nil => rfl
  | cons _ _ ih => simp [ih]

/-- **Scanning undoes printing**: lexemes with separators between them, and with or without
separators at both ends, are scanned without errors to the tokens of the lexemes and the end. -/
theorem scan_printed (lead : Separator) (entries : List (Lexeme × Separator))
    (hApart : Apart entries) :
    (scan (String.ofList (lead.text ++ printEntries entries))).errors = [] ∧
      ReadBack lead.text entries
        (scan (String.ofList (lead.text ++ printEntries entries))).tokens := by
  have hChain : Segment.Chain (lead.segments ++ entrySegments entries) :=
    chain_fillers (chain_entrySegments hApart) lead.fillers
  have hText : (lead.segments ++ entrySegments entries).flatMap Segment.text =
      lead.text ++ printEntries entries := by
    rw [List.flatMap_append, Separator.flatMap_text_segments, flatMap_text_entrySegments]
  have hSegments := Segment.segments_eq_iff.2 ⟨hText, hChain⟩
  have hDescribes := describes_scan (String.ofList (lead.text ++ printEntries entries))
  rw [String.toList_ofList, hSegments] at hDescribes
  exact readBack_of_describes (describes_fillers hDescribes)

/-- A number with a comment behind it, a string over two lines, and a slash. -/
def commentedEntries : List (Lexeme × Separator) :=
  [(⟨.number, ['1', '.', '5'],
        .number (@Numeral.fractional ['1'] ['5'] (by simp) (List.forall_mem_singleton.2 (by decide))
          (by simp) (List.forall_mem_singleton.2 (by decide)))⟩,
      ⟨[.blank ' ' (by simp), .comment ['"'] (by decide)], by simp⟩),
    (⟨.string, ['"', '/', '/', '\n', '"'], @Kind.Spells.string ['/', '/', '\n'] (by decide)⟩,
      ⟨[.blank '\n' (by simp)], by simp⟩),
    (⟨.slash, ['/'], .fixed rfl⟩, ⟨[], by simp⟩)]

theorem scan_commentedEntries :
    Apart commentedEntries ∧
      (scan "1.5 //\"\n\"//\n\"\n/").errors = [] ∧
      (scan "1.5 //\"\n\"//\n\"\n/").tokens.map (fun t => (t.kind, t.lexeme)) =
        [(.number, "1.5"), (.string, "\"//\n\""), (.slash, "/"), (.endOfFile, "")] := by
  have hApart : Apart commentedEntries := by simp [Apart, commentedEntries]
  obtain ⟨hErrors, hTokens⟩ := scan_printed ⟨[], by simp⟩ commentedEntries hApart
  exact ⟨hApart, hErrors, hTokens.map_tokens⟩

end LoxLexer
