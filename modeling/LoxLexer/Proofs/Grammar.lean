import LoxLexer.Literal
import LoxLexer.Segment

/-!
# The lexical grammar

The languages that a source is made of, as predicates on texts and apart from any way of reading
them:

    NUMBER      -> DIGIT+ ( "." DIGIT+ )?
    STRING      -> '"' <any character except '"'>* '"'
    IDENTIFIER  -> LETTER ( LETTER | DIGIT )*
    COMMENT     -> "//" <any character except a line feed>*
    BLANK       -> " " | "\t" | "\r" | "\n"

Nineteen kinds of tokens are spelled in one way each (`Kind.spelling?`), strings, numbers and
identifiers in infinitely many, and the end of the source in none; `Kind.Spells` puts these
together, and `Kind.Carries` tells the value that goes with each spelling. Comments and blanks are
classes beside the kinds (`LexicalClass.Contains`).

The first character of a lexeme tells most of its kind (`Kind.Spells.digit_iff` and its
companions), which is what decides whether two lexemes may touch.
-/

namespace LoxLexer

/-! ## Characters -/

/-- One of `0` to `9`. -/
def Digit (c : Char) : Prop := '0' ≤ c ∧ c ≤ '9'

/-- One of `a` to `z` and `A` to `Z`, or the underscore. -/
def Letter (c : Char) : Prop := ('a' ≤ c ∧ c ≤ 'z') ∨ ('A' ≤ c ∧ c ≤ 'Z') ∨ c = '_'

/-- A character that may stand in an identifier after its first one. -/
def WordCharacter (c : Char) : Prop := Letter c ∨ Digit c

instance : DecidablePred Digit := fun c => inferInstanceAs (Decidable (_ ∧ c ≤ _))

instance : DecidablePred Letter := fun c => inferInstanceAs (Decidable (_ ∨ _ ∨ c = _))

instance : DecidablePred WordCharacter := fun c => inferInstanceAs (Decidable (Letter c ∨ _))

theorem isDigit_eq_true_iff {c : Char} : c.isDigit = true ↔ Digit c := by
  simp only [Char.isDigit, Bool.and_eq_true, decide_eq_true_eq]
  rfl

theorem isLetter_eq_true_iff {c : Char} : Segment.isLetter c = true ↔ Letter c := by
  have hUpper : c.isUpper = true ↔ 'A' ≤ c ∧ c ≤ 'Z' := decide_eq_true_iff
  have hLower : c.isLower = true ↔ 'a' ≤ c ∧ c ≤ 'z' := by
    show (decide ('a' ≤ c) && decide (c ≤ 'z')) = true ↔ _
    rw [Bool.and_eq_true, decide_eq_true_iff, decide_eq_true_iff]
  show (c.isUpper || c.isLower || decide (c = '_')) = true ↔ _
  rw [Bool.or_eq_true, Bool.or_eq_true, hUpper, hLower, decide_eq_true_iff, or_comm (a := _ ∧ _),
    or_assoc]
  rfl

theorem isWordCharacter_eq_true_iff {c : Char} :
    Segment.isWordCharacter c = true ↔ WordCharacter c := by
  rw [Segment.isWordCharacter, Bool.or_eq_true, isLetter_eq_true_iff, isDigit_eq_true_iff]
  rfl

/-! ## Lexemes -/

/-- The text of a kind that has only one. -/
def Kind.spelling? : Kind → Option (List Char)
  | leftParen => some ['(']
  | rightParen => some [')']
  | leftBrace => some ['{']
  | rightBrace => some ['}']
  | comma => some [',']
  | dot => some ['.']
  | minus => some ['-']
  | plus => some ['+']
  | semicolon => some [';']
  | slash => some ['/']
  | star => some ['*']
  | bang => some ['!']
  | bangEqual => some ['!', '=']
  | equal => some ['=']
  | equalEqual => some ['=', '=']
  | greater => some ['>']
  | greaterEqual => some ['>', '=']
  | less => some ['<']
  | lessEqual => some ['<', '=']
  | identifier => none
  | string => none
  | number => none
  | endOfFile => none

/-- `DIGIT+`, or `DIGIT+ '.' DIGIT+`. -/
inductive Numeral : List Char → Prop where
  | integer {digits : List Char} (hSome : digits ≠ []) (hDigits : ∀ c ∈ digits, Digit c) :
      Numeral digits
  | fractional {whole fraction : List Char} (hSome : whole ≠ []) (hDigits : ∀ c ∈ whole, Digit c)
      (hSomeAfter : fraction ≠ []) (hDigitsAfter : ∀ c ∈ fraction, Digit c) :
      Numeral (whole ++ '.' :: fraction)

theorem Numeral.digit_or_dot {text : List Char} (hNumeral : Numeral text) :
    ∀ c ∈ text, Digit c ∨ c = '.' := by
  intro c hMem
  cases hNumeral with
  | integer _ hDigits => exact .inl (hDigits c hMem)
  | fractional _ hDigits _ hDigitsAfter =>
      rw [List.mem_append, List.mem_cons] at hMem
      rcases hMem with hWhole | rfl | hFraction
      · exact .inl (hDigits c hWhole)
      · exact .inr rfl
      · exact .inl (hDigitsAfter c hFraction)

theorem Numeral.lineFeed_notMem {text : List Char} (hNumeral : Numeral text) : '\n' ∉ text := by
  intro hMem
  rcases hNumeral.digit_or_dot _ hMem with hDigit | hDot
  · exact absurd hDigit (by decide)
  · exact absurd hDot (by decide)

/-- The texts of the lexemes of a kind. -/
inductive Kind.Spells : Kind → List Char → Prop where
  | fixed {kind : Kind} {text : List Char} (hText : kind.spelling? = some text) : Spells kind text
  | string {body : List Char} (hBody : '"' ∉ body) : Spells .string ('"' :: body ++ ['"'])
  | number {text : List Char} (hNumeral : Numeral text) : Spells .number text
  | identifier {c : Char} {cs : List Char} (hFirst : Letter c) (hRest : ∀ d ∈ cs, WordCharacter d) :
      Spells .identifier (c :: cs)

/-- The values of lexemes: a string's is the text between the quotes, a number's the double nearest
the decimal that it spells; no other kind has one. -/
inductive Kind.Carries : Kind → List Char → Option Literal → Prop where
  | fixed {kind : Kind} {text : List Char} (hText : kind.spelling? = some text) :
      Carries kind text none
  | string {body : List Char} (hBody : '"' ∉ body) :
      Carries .string ('"' :: body ++ ['"']) (some (.string (String.ofList body)))
  | integer {digits : List Char} (hSome : digits ≠ []) (hDigits : ∀ c ∈ digits, Digit c) :
      Carries .number digits (some (.number (.nearest ⟨Nat.ofDigitChars 10 digits 0, 0⟩)))
  | fractional {whole fraction : List Char} (hSome : whole ≠ []) (hDigits : ∀ c ∈ whole, Digit c)
      (hSomeAfter : fraction ≠ []) (hDigitsAfter : ∀ c ∈ fraction, Digit c) :
      Carries .number (whole ++ '.' :: fraction)
        (some (.number (.nearest
          ⟨Nat.ofDigitChars 10 (whole ++ fraction) 0, fraction.length⟩)))
  | identifier {c : Char} {cs : List Char} (hFirst : Letter c) (hRest : ∀ d ∈ cs, WordCharacter d) :
      Carries .identifier (c :: cs) none

theorem Kind.Carries.spells {kind : Kind} {text : List Char} {literal : Option Literal}
    (hCarries : kind.Carries text literal) : kind.Spells text := by
  cases hCarries with
  | fixed hText => exact .fixed hText
  | string hBody => exact .string hBody
  | integer hSome hDigits => exact .number (.integer hSome hDigits)
  | fractional hSome hDigits hSomeAfter hDigitsAfter =>
      exact .number (.fractional hSome hDigits hSomeAfter hDigitsAfter)
  | identifier hFirst hRest => exact .identifier hFirst hRest

theorem Kind.Spells.exists_carries {kind : Kind} {text : List Char} (hSpells : kind.Spells text) :
    ∃ literal, kind.Carries text literal := by
  cases hSpells with
  | fixed hText => exact ⟨_, .fixed hText⟩
  | string hBody => exact ⟨_, .string hBody⟩
  | number hNumeral =>
      cases hNumeral with
      | integer hSome hDigits => exact ⟨_, .integer hSome hDigits⟩
      | fractional hSome hDigits hSomeAfter hDigitsAfter =>
          exact ⟨_, .fractional hSome hDigits hSomeAfter hDigitsAfter⟩
  | identifier hFirst hRest => exact ⟨_, .identifier hFirst hRest⟩

/-- The end of the source has no lexeme. -/
theorem Kind.not_spells_endOfFile {text : List Char} : ¬Kind.endOfFile.Spells text := by
  intro hSpells
  cases hSpells with
  | fixed hText => cases hText

/-- Only strings hold line feeds. -/
theorem Kind.Spells.lineFeed_notMem {kind : Kind} {text : List Char} (hSpells : kind.Spells text)
    (hKind : kind ≠ .string) : '\n' ∉ text := by
  have hWord : ¬WordCharacter '\n' := by decide
  cases hSpells with
  | fixed hText =>
      cases kind
      all_goals cases hText
      all_goals decide
  | string _ => exact absurd rfl hKind
  | number hNumeral => exact hNumeral.lineFeed_notMem
  | identifier hFirst hRest =>
      intro hMem
      rcases List.mem_cons.1 hMem with hHere | hLater
      · exact hWord (.inl (hHere ▸ hFirst))
      · exact hWord (hRest _ hLater)

/-- A lexeme: a kind and one of its texts. -/
structure Lexeme where
  kind : Kind
  text : List Char
  spelled : kind.Spells text

/-! ## Classes -/

/-- What a run of characters can be. -/
inductive LexicalClass where
  | lexeme (kind : Kind)
  | comment
  | blank
deriving DecidableEq, Repr

/-- The texts that belong to a class. -/
inductive LexicalClass.Contains : LexicalClass → List Char → Prop where
  | lexeme {kind : Kind} {text : List Char} (hSpells : kind.Spells text) :
      Contains (.lexeme kind) text
  | comment {text : List Char} (hLine : '\n' ∉ text) : Contains .comment ('/' :: '/' :: text)
  | blank {c : Char} (hBlank : c ∈ [' ', '\t', '\r', '\n']) : Contains .blank [c]

/-! ## First characters -/

/-- The characters with which the lexemes of a kind begin. -/
def Kind.Begins (kind : Kind) (c : Char) : Prop :=
  match kind with
  | identifier => Letter c
  | string => c = '"'
  | number => Digit c
  | kind => kind.spelling?.bind List.head? = some c

instance (kind : Kind) : DecidablePred kind.Begins := fun c => by
  unfold Kind.Begins
  split <;> infer_instance

theorem Numeral.exists_digit_cons {text : List Char} (hNumeral : Numeral text) :
    ∃ c cs, text = c :: cs ∧ Digit c := by
  cases hNumeral with
  | integer hSome hDigits =>
      obtain ⟨c, cs, rfl⟩ := List.exists_cons_of_ne_nil hSome
      exact ⟨c, cs, rfl, hDigits c (by simp)⟩
  | @fractional whole fraction hSome hDigits _ _ =>
      obtain ⟨c, cs, rfl⟩ := List.exists_cons_of_ne_nil hSome
      exact ⟨c, cs ++ '.' :: fraction, rfl, hDigits c (by simp)⟩

/-- A lexeme is never empty, and begins as lexemes of its kind do. -/
theorem Kind.Spells.exists_begins {kind : Kind} {text : List Char} (hSpells : kind.Spells text) :
    ∃ c cs, text = c :: cs ∧ kind.Begins c := by
  cases hSpells with
  | fixed hText =>
      cases kind
      all_goals cases hText
      all_goals exact ⟨_, _, rfl, rfl⟩
  | @string body _ => exact ⟨'"', body ++ ['"'], rfl, rfl⟩
  | number hNumeral => exact hNumeral.exists_digit_cons
  | @identifier c cs hFirst _ => exact ⟨c, cs, rfl, hFirst⟩

/-- No text that begins as neither a lexeme nor a blank belongs to a class. -/
theorem LexicalClass.Contains.begins {cls : LexicalClass} {c : Char} {cs : List Char}
    (hContains : cls.Contains (c :: cs)) :
    c ∈ [' ', '\t', '\r', '\n'] ∨ ∃ kind : Kind, kind.Begins c := by
  generalize hText : c :: cs = text at hContains
  cases hContains with
  | @lexeme kind _ hSpells =>
      obtain ⟨d, ds, rfl, hBegins⟩ := hSpells.exists_begins
      cases hText
      exact .inr ⟨kind, hBegins⟩
  | comment _ =>
      cases hText
      exact .inr ⟨.slash, rfl⟩
  | blank hBlank =>
      cases hText
      exact .inl hBlank

theorem not_letter_of_digit {c : Char} (hDigit : Digit c) : ¬Letter c := by
  have hBounds : 48 ≤ c.val.toNat ∧ c.val.toNat ≤ 57 := hDigit
  rintro (⟨hLow, -⟩ | ⟨hLow, -⟩ | rfl)
  · have : 97 ≤ c.val.toNat := hLow
    omega
  · have : 65 ≤ c.val.toNat := hLow
    omega
  · revert hDigit
    decide

theorem ne_lineFeed_of_not_blank {c : Char} (hBlank : c ∉ [' ', '\t', '\r', '\n']) : c ≠ '\n' :=
  (ne_of_mem_of_not_mem (by simp) hBlank).symm

/-- A blank is no part of a word. -/
theorem not_wordCharacter_of_blank {c : Char} (hBlank : c ∈ [' ', '\t', '\r', '\n']) :
    ¬WordCharacter c := by
  simp only [List.mem_cons, List.not_mem_nil, or_false] at hBlank
  rcases hBlank with rfl | rfl | rfl | rfl
  all_goals decide

/-- A digit begins numbers only. -/
theorem Kind.Begins.digit_iff {kind : Kind} {c : Char} (hBegins : kind.Begins c) :
    Digit c ↔ kind = .number := by
  cases kind
  case number => exact ⟨fun _ => rfl, fun _ => hBegins⟩
  case identifier => exact ⟨fun hDigit => absurd hBegins (not_letter_of_digit hDigit), nofun⟩
  all_goals cases hBegins
  all_goals decide

/-- Letters and digits begin identifiers and numbers only. -/
theorem Kind.Begins.wordCharacter_iff {kind : Kind} {c : Char} (hBegins : kind.Begins c) :
    WordCharacter c ↔ kind = .identifier ∨ kind = .number := by
  cases kind
  case number => exact ⟨fun _ => .inr rfl, fun _ => .inr hBegins⟩
  case identifier => exact ⟨fun _ => .inl rfl, fun _ => .inl hBegins⟩
  all_goals cases hBegins
  all_goals decide

theorem Kind.Begins.equals_iff {kind : Kind} {c : Char} (hBegins : kind.Begins c) :
    c = '=' ↔ kind = .equal ∨ kind = .equalEqual := by
  constructor
  · rintro rfl
    revert hBegins
    cases kind <;> decide
  · rintro (rfl | rfl)
    all_goals exact (Option.some.inj hBegins).symm

private theorem Kind.Begins.eq_iff_of_only {kind only : Kind} {c d : Char}
    (hBegins : kind.Begins c) (hOnly : ∀ other : Kind, other.Begins d → other = only)
    (hFirst : only.Begins c → c = d) : c = d ↔ kind = only := by
  constructor
  · rintro rfl
    exact hOnly kind hBegins
  · rintro rfl
    exact hFirst hBegins

theorem Kind.Begins.slash_iff {kind : Kind} {c : Char} (hBegins : kind.Begins c) :
    c = '/' ↔ kind = .slash := by
  apply hBegins.eq_iff_of_only
  · intro other
    cases other <;> decide
  · exact fun hSlash => (Option.some.inj hSlash).symm

theorem Kind.Begins.dot_iff {kind : Kind} {c : Char} (hBegins : kind.Begins c) :
    c = '.' ↔ kind = .dot := by
  apply hBegins.eq_iff_of_only
  · intro other
    cases other <;> decide
  · exact fun hDot => (Option.some.inj hDot).symm

theorem Kind.Begins.quote_iff {kind : Kind} {c : Char} (hBegins : kind.Begins c) :
    c = '"' ↔ kind = .string := by
  apply hBegins.eq_iff_of_only
  · intro other
    cases other <;> decide
  · exact id

end LoxLexer
