import LoxLexer.Proofs.Description
import LoxLexer.Run

/-!
# What a run prints can be read back

A listing has a record for each token: kind, lexeme and value, with a blank between them and a line
feed behind them. Nothing is escaped, so a string may hold blanks and line feeds, and even whole
lines that look like records. All the same, a listing comes from one row of tokens only, apart from
their places (`run_decodable`): what is behind a lexeme is a blank, and a blank ends every lexeme,
so the lexeme is what a cut takes off the rest of the listing (`Kind.Spells.eq_of_blank`). The name
of a kind is an identifier and ends in the same way, and the value is fixed by kind and lexeme.

A plain report can be read back as well. The line number ends where the digits do, and the two
messages part at their third letter; what follows in the longer one is a single character, whatever
it is.
-/

namespace LoxLexer

/-! ## Records in a row -/

/-- A row of records is read back one by one, if the key of a record and what is behind it can be
told from the record and what is behind it together. -/
theorem map_eq_of_flatMap_eq {α β γ : Type} {record : α → List γ} {key : α → β} {xs ys : List α}
    (hSome : ∀ x, record x ≠ [])
    (hFirst : ∀ x ∈ xs, ∀ y ∈ ys, ∀ rest rest', record x ++ rest = record y ++ rest' →
      key x = key y ∧ rest = rest')
    (hRow : xs.flatMap record = ys.flatMap record) : xs.map key = ys.map key := by
  induction xs generalizing ys with
  | nil =>
      cases ys with
      | nil => rfl
      | cons y ys => exact absurd (List.append_eq_nil_iff.1 hRow.symm).1 (hSome y)
  | cons x xs ih =>
      cases ys with
      | nil => exact absurd (List.append_eq_nil_iff.1 hRow).1 (hSome x)
      | cons y ys =>
          rw [List.flatMap_cons, List.flatMap_cons] at hRow
          obtain ⟨hKey, hRest⟩ := hFirst x List.mem_cons_self y List.mem_cons_self _ _ hRow
          have hLater : xs.map key = ys.map key :=
            ih (fun z hMem w hMem' => hFirst z (List.mem_cons_of_mem x hMem) w
              (List.mem_cons_of_mem y hMem')) hRest
          rw [List.map_cons, List.map_cons, hKey, hLater]

/-! ## Lexemes and names -/

/-- **A lexeme ends at the blank behind it**, even if it holds blanks itself. -/
theorem Kind.Spells.eq_of_blank {kind kind' : Kind} {text text' rest rest' : List Char}
    (hSpells : kind.Spells text) (hSpells' : kind'.Spells text')
    (hRow : text ++ ' ' :: rest = text' ++ ' ' :: rest') : text = text' ∧ rest = rest' := by
  have hComplete : (Segment.lexeme kind text).Complete (' ' :: rest) :=
    ⟨.lexeme hSpells, Kind.stopsBefore_blank (by simp) rest⟩
  have hComplete' : (Segment.lexeme kind' text').Complete (' ' :: rest') :=
    ⟨.lexeme hSpells', Kind.stopsBefore_blank (by simp) rest'⟩
  obtain ⟨c, cs, hText, -⟩ := hSpells.exists_begins
  have hCut : Segment.cut c (cs ++ ' ' :: rest) = (.lexeme kind text, ' ' :: rest) :=
    Segment.cut_eq_of_complete hComplete (by rw [Segment.text, hText, List.cons_append])
  have hCut' : Segment.cut c (cs ++ ' ' :: rest) = (.lexeme kind' text', ' ' :: rest') :=
    Segment.cut_eq_of_complete hComplete' (by rw [Segment.text, ← hRow, hText, List.cons_append])
  have hSame := hCut.symm.trans hCut'
  simp only [Prod.mk.injEq, Segment.lexeme.injEq, List.cons.injEq, true_and] at hSame
  exact ⟨hSame.1.2, hSame.2⟩

/-- All kinds, in the order in which they are declared. -/
def Kind.all : List Kind :=
  [leftParen, rightParen, leftBrace, rightBrace, comma, dot, minus, plus, semicolon, slash, star,
    bang, bangEqual, equal, equalEqual, greater, greaterEqual, less, lessEqual, identifier, string,
    number, endOfFile]

/-- The kind that is listed under a name. -/
def Kind.ofName? (name : String) : Option Kind := all.find? fun kind => kind.name = name

theorem Kind.ofName?_name (kind : Kind) : ofName? kind.name = some kind := by
  cases kind
  all_goals decide

theorem Kind.eq_of_name_eq {kind kind' : Kind} (hName : kind.name = kind'.name) :
    kind = kind' := by
  have hSame := congrArg ofName? hName
  rw [ofName?_name, ofName?_name] at hSame
  exact Option.some.inj hSame

/-- The names of kinds are identifiers. -/
theorem Kind.spells_name (kind : Kind) : Kind.identifier.Spells kind.name.toList := by
  have hName : ∃ c cs, kind.name.toList = c :: cs ∧ Segment.isLetter c = true ∧
      cs.all Segment.isWordCharacter = true := by
    cases kind
    all_goals exact ⟨_, _, rfl, by decide, by decide⟩
  obtain ⟨c, cs, hText, hFirst, hRest⟩ := hName
  rw [hText]
  refine .identifier (isLetter_eq_true_iff.1 hFirst) ?_
  intro d hMem
  exact isWordCharacter_eq_true_iff.1 (List.all_eq_true.1 hRest d hMem)

/-! ## Tokens -/

/-- The tokens of scans: lexemes with their values, and the end. -/
inductive Token.Scanned : Token → Prop where
  | lexeme {t : Token} (hCarries : t.kind.Carries t.lexeme.toList t.literal) : Scanned t
  | endOfFile {p : Position} : Scanned (Token.endOfFile p)

theorem Scan.Describes.scanned {result : Scan} {before : List Char} {ss : List Segment}
    (hDescribes : result.Describes before ss) : ∀ t ∈ result.tokens, t.Scanned := by
  induction hDescribes with
  | @nil before =>
      exact List.forall_mem_singleton.2 (.endOfFile (p := ⟨_, lineAfter before⟩))
  | lexeme hLiteral _ ih =>
      refine List.forall_mem_cons.2 ⟨.lexeme ?_, ih⟩
      rwa [String.toList_ofList]
  | blank _ ih => exact ih
  | comment _ ih => exact ih
  | unexpected _ ih => exact ih
  | unterminated _ ih => exact ih

/-- **The record of a token** tells its kind, its lexeme and its value, and where it ends. -/
theorem Token.Scanned.eq_of_record {t u : Token} (hFirst : t.Scanned) (hSecond : u.Scanned)
    {rest rest' : List Char} (hRow : t.text ++ ['\n'] ++ rest = u.text ++ ['\n'] ++ rest') :
    (t.kind, t.lexeme, t.literal) = (u.kind, u.lexeme, u.literal) ∧ rest = rest' := by
  simp only [Token.text, List.append_assoc, List.cons_append, List.nil_append] at hRow
  -- First the name, as an identifier, and only then the lexeme: the end of the source has none.
  obtain ⟨hName, hFields⟩ := t.kind.spells_name.eq_of_blank u.kind.spells_name hRow
  have hKind : t.kind = u.kind := Kind.eq_of_name_eq (String.toList_inj.1 hName)
  cases hFirst with
  | lexeme hCarries =>
      cases hSecond with
      | lexeme hCarries' =>
          obtain ⟨hLexeme, hValue⟩ := hCarries.spells.eq_of_blank hCarries'.spells hFields
          have hLiteral : t.literal = u.literal := by
            rw [← ofLexeme?_of_carries hCarries, ← ofLexeme?_of_carries hCarries', hKind, hLexeme]
          rw [hLiteral, List.append_cancel_left_eq, List.cons.injEq] at hValue
          exact ⟨by rw [hKind, String.toList_inj.1 hLexeme, hLiteral], hValue.2⟩
      | endOfFile =>
          rw [hKind] at hCarries
          exact absurd hCarries.spells Kind.not_spells_endOfFile
  | endOfFile =>
      cases hSecond with
      | lexeme hCarries' =>
          rw [← hKind] at hCarries'
          exact absurd hCarries'.spells Kind.not_spells_endOfFile
      | endOfFile =>
          simp only [Token.endOfFile, List.append_cancel_left_eq, List.cons.injEq, true_and]
            at hFields
          exact ⟨rfl, hFields⟩

/-! ## Errors -/

/-- A message ends where it has to, also if it ends with a line feed. -/
theorem Fault.eq_of_message {f g : Fault} {rest rest' : List Char}
    (hRow : f.message.toList ++ '\n' :: rest = g.message.toList ++ '\n' :: rest') :
    f = g ∧ rest = rest' := by
  have hUnexpected (c : Char) :
      (unexpectedCharacter c).message.toList = "Unexpected character: ".toList ++ [c] :=
    String.toList_append.trans (congrArg _ (String.toList_singleton c))
  cases f with
  | unexpectedCharacter c =>
      rw [hUnexpected] at hRow
      cases g with
      | unexpectedCharacter d =>
          rw [hUnexpected, List.append_assoc, List.append_assoc] at hRow
          cases List.append_cancel_left hRow
          exact ⟨rfl, rfl⟩
      | unterminatedString =>
          -- The messages differ in their third character, whatever follows.
          cases hRow
  | unterminatedString =>
      cases g with
      | unexpectedCharacter d =>
          rw [hUnexpected] at hRow
          cases hRow
      | unterminatedString =>
          rw [List.append_cancel_left_eq, List.cons.injEq] at hRow
          exact ⟨rfl, hRow.2⟩

/-- **The line of an error** tells what is wrong and its line number, and where it ends. -/
theorem LexicalError.eq_of_record {e f : LexicalError} {rest rest' : List Char}
    (hRow : e.text ++ ['\n'] ++ rest = f.text ++ ['\n'] ++ rest') :
    (e.fault, e.span.line) = (f.fault, f.span.line) ∧ rest = rest' := by
  have hDigits (n : Nat) : ∀ c ∈ Nat.toDigits 10 n, Digit c :=
    fun c hMem => isDigit_eq_true_iff.1 (Decimal.isDigit_of_mem_toDigits hMem)
  have hMark (more : List Char) : ∀ c ∈ ("] Error: ".toList ++ more).head?, ¬Digit c := by
    intro c hHead
    cases hHead
    decide
  have hAssoc (opening digits mark message rest : List Char) :
      opening ++ digits ++ mark ++ message ++ ['\n'] ++ rest =
        opening ++ (digits ++ (mark ++ (message ++ '\n' :: rest))) := by simp
  have hParts (e : LexicalError) (rest : List Char) :
      e.text ++ ['\n'] ++ rest = "[line ".toList ++ (Nat.toDigits 10 e.span.line ++
        ("] Error: ".toList ++ (e.fault.message.toList ++ '\n' :: rest))) :=
    hAssoc _ _ _ _ _
  rw [hParts, hParts] at hRow
  obtain ⟨hTake, hDrop⟩ := span_digits_append (hDigits e.span.line) (hMark _)
  obtain ⟨hTake', hDrop'⟩ := span_digits_append (hDigits f.span.line) (hMark _)
  rw [List.append_cancel_left hRow] at hTake hDrop
  have hLine : e.span.line = f.span.line := by
    rw [← Nat.ofDigitChars_ten_toDigits (n := e.span.line), ← hTake, hTake',
      Nat.ofDigitChars_ten_toDigits]
  have hMessage := List.append_cancel_left (hDrop.symm.trans hDrop')
  obtain ⟨hFault, hRest⟩ := Fault.eq_of_message hMessage
  exact ⟨by rw [hFault, hLine], hRest⟩

/-! ## Runs -/

/-- **What a run prints can be read back.** Sources with the same listing have tokens of the same
kinds, lexemes and values, in the same order; sources with the same plain report have the same
faults on the same lines. -/
theorem run_decodable (a b : String) :
    (∀ path path' style style',
        (Run.ofSource path a style).listing = (Run.ofSource path' b style').listing →
          (scan a).tokens.map (fun t => (t.kind, t.lexeme, t.literal)) =
            (scan b).tokens.map (fun t => (t.kind, t.lexeme, t.literal))) ∧
      ∀ path path',
        (Run.ofSource path a .plain).report = (Run.ofSource path' b .plain).report →
          (scan a).errors.map (fun e => (e.fault, e.span.line)) =
            (scan b).errors.map (fun e => (e.fault, e.span.line)) := by
  constructor
  · intro path path' style style' hListing
    refine map_eq_of_flatMap_eq (fun t => ?_) ?_ (String.ofList_inj.1 hListing)
    · exact List.append_ne_nil_of_right_ne_nil _ (List.cons_ne_nil _ _)
    · intro t hMem u hMem' rest rest' hRow
      exact ((describes_scan a).scanned t hMem).eq_of_record ((describes_scan b).scanned u hMem')
        hRow
  · intro path path' hReport
    refine map_eq_of_flatMap_eq (fun e => ?_) ?_ (String.ofList_inj.1 hReport)
    · exact List.append_ne_nil_of_right_ne_nil _ (List.cons_ne_nil _ _)
    · intro e _ f _ rest rest' hRow
      exact LexicalError.eq_of_record hRow

/-- A string that holds the record of an end, and an unexpected character, with other blanks in
between. -/
theorem run_decodable_spaced :
    (Run.ofSource "p" "\"\nEOF  null\" @" .plain).listing =
        (Run.ofSource "q" " \"\nEOF  null\"\t@" .pretty).listing ∧
      (scan "\"\nEOF  null\" @").tokens.map (fun t => (t.kind, t.lexeme, t.literal)) =
        (scan " \"\nEOF  null\"\t@").tokens.map (fun t => (t.kind, t.lexeme, t.literal)) ∧
      (Run.ofSource "p" "\"\nEOF  null\" @" .plain).report =
        (Run.ofSource "q" " \"\nEOF  null\"\t@" .plain).report ∧
      (scan "\"\nEOF  null\" @").errors.map (fun e => (e.fault, e.span.line)) =
        (scan " \"\nEOF  null\"\t@").errors.map (fun e => (e.fault, e.span.line)) := by
  obtain ⟨hTokens, hErrors⟩ := run_decodable "\"\nEOF  null\" @" " \"\nEOF  null\"\t@"
  have hListing : (Run.ofSource "p" "\"\nEOF  null\" @" .plain).listing =
      (Run.ofSource "q" " \"\nEOF  null\"\t@" .pretty).listing := by decide +kernel
  have hReport : (Run.ofSource "p" "\"\nEOF  null\" @" .plain).report =
      (Run.ofSource "q" " \"\nEOF  null\"\t@" .plain).report := by decide +kernel
  exact ⟨hListing, hTokens _ _ _ _ hListing, hReport, hErrors _ _ hReport⟩

end LoxLexer
