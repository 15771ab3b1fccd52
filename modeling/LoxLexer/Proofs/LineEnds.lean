import LoxLexer.Proofs.Placement
import Mathlib.Data.List.Forall2

/-!
# Line ends

A source is converted by putting a carriage return in front of every line feed. The conversion
changes no token and no error but in what it must: lexemes and strings are converted themselves, and
every offset moves by the number of line feeds before it (`scan_withReturns`). Lines stay, since a
carriage return ends none.

A carriage return is met in four contexts. Between lexemes it is a blank, behind a lexeme it stops
what the line feed stopped, in a string it is a part of the body, and in front of the line feed that
ends a comment it goes to the comment (`Scan.ofSegments_comment_return`). The rows of segments of
the two sources do not match, then, but blanks and comments alike add nothing to a scan but their
place. So what is followed through the source is what each of its segments adds to either scan
(`Scan.ofSegments_withReturns`, `Placed.converts`).
-/

namespace LoxLexer

/-! ## Texts -/

namespace Text

/-- A text with a carriage return in front of every line feed. -/
def withReturns (cs : List Char) : List Char :=
  cs.flatMap fun c => if c = '\n' then ['\r', '\n'] else [c]

@[simp] theorem withReturns_nil : withReturns [] = [] := rfl

@[simp] theorem withReturns_append (left right : List Char) :
    withReturns (left ++ right) = withReturns left ++ withReturns right :=
  List.flatMap_append

@[simp] theorem withReturns_lineFeed (cs : List Char) :
    withReturns ('\n' :: cs) = '\r' :: '\n' :: withReturns cs := rfl

theorem withReturns_cons {c : Char} (hLine : c ≠ '\n') (cs : List Char) :
    withReturns (c :: cs) = c :: withReturns cs := by
  rw [withReturns, List.flatMap_cons, if_neg hLine]
  rfl

theorem withReturns_eq_self {cs : List Char} (hLine : '\n' ∉ cs) : withReturns cs = cs := by
  induction cs with
  | nil => rfl
  | cons c cs ih =>
      rw [List.mem_cons, not_or] at hLine
      rw [withReturns_cons (Ne.symm hLine.1), ih hLine.2]

theorem mem_withReturns {c : Char} {cs : List Char} (hMem : c ∈ withReturns cs) :
    c = '\r' ∨ c ∈ cs := by
  obtain ⟨d, hSource, hHere⟩ := List.mem_flatMap.1 hMem
  split at hHere
  case isTrue hLine =>
      rw [List.mem_cons, List.mem_singleton] at hHere
      rcases hHere with hReturn | hFeed
      · exact .inl hReturn
      · exact .inr (by rwa [hFeed, ← hLine])
  case isFalse => exact .inr (by rwa [List.mem_singleton.1 hHere])

theorem count_withReturns (cs : List Char) : (withReturns cs).count '\n' = cs.count '\n' := by
  induction cs with
  | nil => rfl
  | cons c cs ih =>
      by_cases hLine : c = '\n'
      · subst hLine
        rw [withReturns_lineFeed, List.count_cons_of_ne (by decide), List.count_cons_self,
          List.count_cons_self, ih]
      · rw [withReturns_cons hLine, List.count_cons_of_ne hLine, List.count_cons_of_ne hLine, ih]

theorem byteLength_withReturns (cs : List Char) :
    byteLength (withReturns cs) = byteLength cs + cs.count '\n' := by
  induction cs with
  | nil => rfl
  | cons c cs ih =>
      by_cases hLine : c = '\n'
      · subst hLine
        have hReturn : '\r'.utf8Size = 1 := by decide
        rw [withReturns_lineFeed, byteLength_cons, byteLength_cons, byteLength_cons, ih, hReturn,
          List.count_cons_self]
        omega
      · rw [withReturns_cons hLine, byteLength_cons, byteLength_cons, ih,
          List.count_cons_of_ne hLine]
        omega

/-- The conversion puts nothing but carriage returns in front of the characters of a text. -/
theorem exists_of_withReturns_eq_cons {c : Char} {cs tail : List Char} (hReturn : c ≠ '\r')
    (hText : withReturns cs = c :: tail) : ∃ rest, cs = c :: rest ∧ withReturns rest = tail := by
  cases cs with
  | nil => cases hText
  | cons d rest =>
      by_cases hLine : d = '\n'
      · subst hLine
        rw [withReturns_lineFeed, List.cons.injEq] at hText
        exact absurd hText.1.symm hReturn
      · rw [withReturns_cons hLine, List.cons.injEq] at hText
        obtain ⟨rfl, hTail⟩ := hText
        exact ⟨rest, rfl, hTail⟩

theorem head?_withReturns {c : Char} {cs : List Char} (hHead : c ∈ (withReturns cs).head?) :
    c = '\r' ∨ c ∈ cs.head? := by
  obtain ⟨tail, hText⟩ := List.head?_eq_some_iff.1 hHead
  by_cases hReturn : c = '\r'
  · exact .inl hReturn
  · obtain ⟨rest, rfl, -⟩ := exists_of_withReturns_eq_cons hReturn hText
    exact .inr rfl

/-- What an offset into a text becomes by the conversion: the line feeds before it are added. -/
def Moves (cs : List Char) (x y : Nat) : Prop :=
  ∃ before, takeBytes? x cs = some before ∧ y = x + before.count '\n'

end Text

/-! ## Lexemes -/

/-- **What ends a lexeme still ends it**: no lexeme goes on over a carriage return, and any other
first character is that of the text itself. -/
theorem Kind.StopsBefore.withReturns {kind : Kind} {text rest : List Char}
    (hStops : kind.StopsBefore text rest) :
    kind.StopsBefore text (Text.withReturns rest) := by
  have hHead {P : Char → Prop} (hReturn : P '\r') (hFirst : ∀ c ∈ rest.head?, P c) :
      ∀ c ∈ (Text.withReturns rest).head?, P c := by
    intro c hMem
    rcases Text.head?_withReturns hMem with rfl | hSource
    · exact hReturn
    · exact hFirst c hSource
  have hOther {d : Char} (hReturn : '\r' ≠ d) (hFirst : rest.head? ≠ some d) :
      (Text.withReturns rest).head? ≠ some d := by
    intro hMem
    rcases Text.head?_withReturns hMem with hEq | hSource
    · exact hReturn hEq.symm
    · exact hFirst hSource
  cases kind
  case bang | equal | greater | less => exact hOther (by decide) hStops
  case slash => exact hOther (by decide) hStops
  case identifier => exact hHead (by decide) hStops
  case number =>
      refine ⟨hHead (by decide) hStops.1, ?_⟩
      intro hPoint d cs hRest hDigit
      obtain ⟨tail, rfl, hTail⟩ := Text.exists_of_withReturns_eq_cons (by decide) hRest
      have hNoReturn : d ≠ '\r' := by
        rintro rfl
        exact absurd hDigit (by decide)
      obtain ⟨tail, rfl, -⟩ := Text.exists_of_withReturns_eq_cons hNoReturn hTail
      exact hStops.2 hPoint d tail rfl hDigit
  all_goals trivial

/-- A literal of the converted source. -/
def Literal.withReturns : Literal → Literal
  | number value => number value
  | string body => string (String.ofList (Text.withReturns body.toList))

/-- No quote is put into a string or taken out of it. -/
theorem Text.quote_notMem_withReturns {body : List Char} (hBody : '"' ∉ body) :
    '"' ∉ withReturns body := by
  intro hMem
  rcases mem_withReturns hMem with hReturn | hSource
  · exact absurd hReturn (by decide)
  · exact hBody hSource

/-- **A converted lexeme** is of the same kind, and carries the converted value. -/
theorem Kind.Carries.withReturns {kind : Kind} {text : List Char} {literal : Option Literal}
    (hCarries : kind.Carries text literal) :
    kind.Carries (Text.withReturns text) (literal.map Literal.withReturns) := by
  by_cases hKind : kind = .string
  · subst hKind
    cases hCarries with
    | fixed hText => cases hText
    | @string body hBody =>
        have hText : Text.withReturns ('"' :: body ++ ['"']) =
            '"' :: Text.withReturns body ++ ['"'] := by
          rw [Text.withReturns_append, Text.withReturns_cons (by decide)]
          rfl
        have hValue : (some (Literal.string (String.ofList body))).map Literal.withReturns =
            some (.string (String.ofList (Text.withReturns body))) := by
          rw [Option.map_some, Literal.withReturns, String.toList_ofList]
        rw [hText, hValue]
        exact .string (Text.quote_notMem_withReturns hBody)
  · have hValue : literal.map Literal.withReturns = literal := by
      cases hCarries with
      | string _ => exact absurd rfl hKind
      | _ => rfl
    rw [Text.withReturns_eq_self (hCarries.spells.lineFeed_notMem hKind), hValue]
    exact hCarries

/-- What a segment becomes by the conversion, apart from the carriage returns that are put between
segments. -/
def Segment.withReturns : Segment → Segment
  | lexeme kind text => lexeme kind (Text.withReturns text)
  | unterminated text => unterminated (Text.withReturns text)
  | s => s

theorem Segment.Complete.withReturns_lexeme {kind : Kind} {text rest : List Char}
    (hComplete : (Segment.lexeme kind text).Complete rest) :
    (Segment.lexeme kind (Text.withReturns text)).Complete (Text.withReturns rest) := by
  obtain ⟨hWellFormed, hStops⟩ := hComplete
  cases hWellFormed with
  | lexeme hSpells =>
      obtain ⟨literal, hCarries⟩ := hSpells.exists_carries
      refine ⟨.lexeme hCarries.withReturns.spells, ?_⟩
      by_cases hKind : kind = .string
      · subst hKind
        trivial
      · rw [Text.withReturns_eq_self (hSpells.lineFeed_notMem hKind)]
        exact Kind.StopsBefore.withReturns hStops

theorem Segment.Complete.withReturns_unterminated {text rest : List Char}
    (hComplete : (Segment.unterminated text).Complete rest) :
    (Segment.unterminated (Text.withReturns text)).Complete (Text.withReturns rest) := by
  obtain ⟨hWellFormed, hStops⟩ := hComplete
  cases hStops
  cases hWellFormed with
  | unterminated hOpen =>
      rw [Text.withReturns_cons (by decide)]
      exact ⟨.unterminated (Text.quote_notMem_withReturns hOpen), rfl⟩

/-! ## Scans -/

/-- What a position becomes by the conversion. -/
structure Position.Converts (cs : List Char) (p q : Position) : Prop where
  offset : Text.Moves cs p.offset q.offset
  line : q.line = p.line

structure Span.Converts (cs : List Char) (s t : Span) : Prop where
  start : Text.Moves cs s.start t.start
  stop : Text.Moves cs s.stop t.stop
  line : t.line = s.line

structure Token.Converts (cs : List Char) (t u : Token) : Prop where
  kind : u.kind = t.kind
  lexeme : u.lexeme = String.ofList (Text.withReturns t.lexeme.toList)
  literal : u.literal = t.literal.map Literal.withReturns
  span : t.span.Converts cs u.span

structure LexicalError.Converts (cs : List Char) (e f : LexicalError) : Prop where
  fault : f.fault = e.fault
  span : e.span.Converts cs f.span

/-- What the scan of a source becomes by the conversion of the source. -/
structure Scan.Converts (cs : List Char) (first second : Scan) : Prop where
  tokens : List.Forall₂ (Token.Converts cs) first.tokens second.tokens
  errors : List.Forall₂ (LexicalError.Converts cs) first.errors second.errors

/-- Converted texts lead to converted positions. -/
theorem Position.converts_advance (before rest : List Char) :
    Converts (before ++ rest) (origin.advance before)
      (origin.advance (Text.withReturns before)) := by
  rw [origin_advance, origin_advance, Text.byteLength_withReturns]
  constructor
  case offset => exact ⟨before, Text.takeBytes?_eq_some_iff.2 ⟨rest, rfl, rfl⟩, rfl⟩
  case line =>
      show 1 + (Text.withReturns before).count '\n' = 1 + before.count '\n'
      rw [Text.count_withReturns]

/-- **A converted segment gives a converted token or error**, at a converted position. -/
theorem Placed.converts {cs : List Char} {s : Segment} {p q : Position}
    (hWellFormed : s.WellFormed) (hStart : p.Converts cs q)
    (hStop : (p.advance s.text).Converts cs (q.advance (Text.withReturns s.text))) :
    List.Forall₂ (Token.Converts cs) (token? ⟨s, p⟩).toList (token? ⟨s.withReturns, q⟩).toList ∧
      List.Forall₂ (LexicalError.Converts cs) (error? ⟨s, p⟩).toList
        (error? ⟨s.withReturns, q⟩).toList := by
  cases hWellFormed with
  | blank _ => exact ⟨.nil, .nil⟩
  | comment _ => exact ⟨.nil, .nil⟩
  | @lexeme kind text hSpells =>
      have hCarries : kind.Carries text (Literal.ofLexeme? kind text) :=
        carries_iff.2 ⟨hSpells, rfl⟩
      have hLexeme : String.ofList (Text.withReturns text) =
          String.ofList (Text.withReturns (String.ofList text).toList) := by
        rw [String.toList_ofList]
      exact ⟨.cons ⟨rfl, hLexeme, ofLexeme?_of_carries hCarries.withReturns, hStart.offset,
        hStop.offset, hStart.line⟩ .nil, .nil⟩
  | @unexpected c hBlank _ =>
      have hLine : c ≠ '\n' := ne_lineFeed_of_not_blank hBlank
      rw [Segment.text, Text.withReturns_cons hLine] at hStop
      exact ⟨.nil, .cons ⟨rfl, hStart.offset, hStop.offset, hStop.line⟩ .nil⟩
  | unterminated _ =>
      exact ⟨.nil, .cons ⟨rfl, hStart.offset, hStop.offset, hStop.line⟩ .nil⟩

/-! ## What a converted segment adds -/

namespace Scan

/-- A blank that is converted adds nothing but its place, even if it is a line feed. -/
theorem ofSegments_blank_return (p : Position) {c : Char} (hBlank : c ∈ [' ', '\t', '\r', '\n'])
    (rest : List Char) :
    ofSegments p (Segment.segments (Text.withReturns [c] ++ rest)) =
      ofSegments (p.advance (Text.withReturns [c])) (Segment.segments rest) := by
  by_cases hLine : c = '\n'
  · subst hLine
    show ofSegments p (Segment.segments ('\r' :: '\n' :: rest)) = _
    rw [ofSegments_segments_blank p (by simp), ofSegments_segments_blank _ (by simp),
      ← Position.advance_append]
    rfl
  · rw [Text.withReturns_cons hLine]
    exact ofSegments_segments_blank p hBlank rest

/-- **A carriage return behind a comment** goes to the comment, which changes nothing. -/
theorem ofSegments_comment_return (p : Position) {line rest : List Char} (hLine : '\n' ∉ line)
    (hStops : ∀ c ∈ rest.head?, c = '\n') :
    ofSegments p (Segment.segments ('/' :: '/' :: line ++ Text.withReturns rest)) =
      ofSegments (p.advance ('/' :: '/' :: line))
        (Segment.segments (Text.withReturns rest)) := by
  cases rest with
  | nil => exact ofSegments_segments_append p (Segment.WellFormed.comment hLine).complete_nil
  | cons c rest =>
      obtain rfl := hStops c rfl
      have hReturn : (Segment.comment ('/' :: '/' :: (line ++ ['\r']))).Complete
          ('\n' :: Text.withReturns rest) := by
        refine ⟨.comment ?_, fun _ hHead => (Option.some.inj hHead).symm⟩
        simp [hLine]
      calc ofSegments p (Segment.segments
            ('/' :: '/' :: line ++ '\r' :: '\n' :: Text.withReturns rest))
          = ofSegments p (Segment.segments
              ('/' :: '/' :: (line ++ ['\r']) ++ '\n' :: Text.withReturns rest)) := by simp
        _ = ofSegments (p.advance ('/' :: '/' :: line ++ ['\r']))
              (Segment.segments ('\n' :: Text.withReturns rest)) :=
            ofSegments_segments_append p hReturn
        _ = ofSegments ((p.advance ('/' :: '/' :: line)).advance ['\r'])
              (Segment.segments ('\n' :: Text.withReturns rest)) := by
            rw [Position.advance_append]
        _ = ofSegments (p.advance ('/' :: '/' :: line))
              (Segment.segments ('\r' :: '\n' :: Text.withReturns rest)) :=
            (ofSegments_segments_blank _ (by simp) _).symm

/-- **What a segment adds to the converted scan** is what the converted segment is placed as,
although a carriage return may have gone to a comment, or be a blank of its own. -/
theorem ofSegments_withReturns (p : Position) {s : Segment} {rest : List Char}
    (hComplete : s.Complete rest) :
    ofSegments p (Segment.segments (Text.withReturns s.text ++ Text.withReturns rest)) =
      ⟨(Placed.token? ⟨s.withReturns, p⟩).toList ++
          (ofSegments (p.advance (Text.withReturns s.text))
            (Segment.segments (Text.withReturns rest))).tokens,
        (Placed.error? ⟨s.withReturns, p⟩).toList ++
          (ofSegments (p.advance (Text.withReturns s.text))
            (Segment.segments (Text.withReturns rest))).errors⟩ := by
  have hWellFormed := hComplete.wellFormed
  cases hWellFormed with
  | blank hBlank => exact ofSegments_blank_return p hBlank _
  | @comment line hLine =>
      have hText : Text.withReturns ('/' :: '/' :: line) = '/' :: '/' :: line :=
        Text.withReturns_eq_self (by simp [hLine])
      rw [Segment.text, hText]
      exact ofSegments_comment_return p hLine hComplete.stops
  | lexeme _ => exact ofSegments_segments_append p hComplete.withReturns_lexeme
  | @unexpected c hBlank hNone =>
      have hLine : c ≠ '\n' := ne_lineFeed_of_not_blank hBlank
      rw [Segment.text, Text.withReturns_cons hLine]
      exact ofSegments_segments_append p (s := .unexpected c)
        ⟨.unexpected hBlank hNone, trivial⟩
  | unterminated _ => exact ofSegments_segments_append p hComplete.withReturns_unterminated

end Scan

/-! ## Sources -/

/-- **The segments of a source give a scan that its conversion converts.** -/
theorem converts_ofSegments {ss : List Segment} (hChain : Segment.Chain ss) :
    ∀ before : List Char,
      Scan.Converts (before ++ ss.flatMap Segment.text)
        (Scan.ofSegments (Position.origin.advance before) ss)
        (Scan.ofSegments (Position.origin.advance (Text.withReturns before))
          (Segment.segments (Text.withReturns (ss.flatMap Segment.text)))) := by
  induction ss with
  | nil =>
      intro before
      have hEnd := Position.converts_advance before []
      simp only [Scan.ofSegments, Placed.ofSegments, List.flatMap_nil, Text.withReturns_nil,
        Segment.segments_nil, Position.advance_nil]
      exact ⟨.cons ⟨rfl, rfl, rfl, hEnd.offset, hEnd.offset, hEnd.line⟩ .nil, .nil⟩
  | cons s ss ih =>
      intro before
      have hStart := Position.converts_advance before (s.text ++ ss.flatMap Segment.text)
      have hStop := Position.converts_advance (before ++ s.text) (ss.flatMap Segment.text)
      have hScan := ih hChain.2 (before ++ s.text)
      rw [List.append_assoc, Position.advance_append, Text.withReturns_append,
        Position.advance_append] at hStop hScan
      -- Before the other segments both scans have what this one gives, at converted positions.
      obtain ⟨hToken, hError⟩ := Placed.converts hChain.1.wellFormed hStart hStop
      rw [List.flatMap_cons, Text.withReturns_append, Scan.ofSegments_withReturns _ hChain.1,
        Scan.ofSegments_cons]
      exact ⟨List.rel_append hToken hScan.tokens, List.rel_append hError hScan.errors⟩

/-- **Line ends do not matter.** If a carriage return is put in front of every line feed of a
source, its tokens and errors stay, with their kinds or faults and their lines. Lexemes and string
literals are converted as the source is, number literals stay, and every offset moves by the number
of line feeds before it. -/
theorem scan_withReturns (source : String) :
    Scan.Converts source.toList (scan source)
      (scan (String.ofList (Text.withReturns source.toList))) := by
  have hScan := converts_ofSegments (Segment.chain_segments source.toList) []
  rw [Segment.flatMap_text_segments] at hScan
  rw [scan_eq_ofSegments, scan_eq_ofSegments, String.toList_ofList]
  exact hScan

end LoxLexer
