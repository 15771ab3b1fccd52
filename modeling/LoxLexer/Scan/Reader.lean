import LoxLexer.Scan

/-!
# Reading with two cursors

A source can be scanned without cutting it into segments: in one pass from left to right, in rounds
each of which takes a lexeme, a comment, a blank or a faulty piece. Where such a reader stands is
kept twice (`Cursor`). An iterator holds the characters that have not been taken, with their
offsets; and a range of bytes, `start` to `stop`, is what the round has taken so far. Whether a
round begins is asked of the range, and the next character of the iterator. The second character
ahead is looked up in the bytes behind the range.

`Reader.step` does what a reader does up to the next character that it takes or refuses, and `Phase`
says where in a round it is, so that `Reader.after` goes through all states of a run. A reader has
branches for the case that its cursors come apart (`Mishap`). Some of them replace a missing text by
the empty one and some end the run. The branches that have been taken are noted, and the rounds are
counted; nothing is decided by either.
-/

namespace LoxLexer

/-- The characters of a text with the offsets at which they begin, the first one at `first`. -/
def Text.indexed (first : Nat) : List Char → List (Nat × Char)
  | [] => []
  | c :: cs => (first, c) :: indexed (first + c.utf8Size) cs

/-! ## The cursors -/

/-- The characters that are left, and the range of bytes that has been taken. -/
structure Cursor where
  characters : List (Nat × Char)
  start : Nat
  stop : Nat
deriving DecidableEq, Repr

namespace Cursor

section

variable (source : List Char) (k : Cursor)

/-- Whether the range has reached the end of the source. -/
def isEnd : Bool :=
  k.stop = Text.byteLength source

/-- The text in the range, if the range can be cut out. -/
def lexeme? : Option (List Char) :=
  Text.slice? k.start k.stop source

/-- The text behind the range. -/
def ahead? : Option (List Char) :=
  Text.dropBytes? k.stop source

/-- The text in the range without its first and its last byte. -/
def body? : Option (List Char) :=
  Text.slice? (k.start + 1) (k.stop - 1) source

/-- The next character of the iterator. -/
def peek : Option Char :=
  k.characters.head?.map Prod.snd

/-- Whether the second character behind the range passes a test. -/
def peekNextIs (p : Char → Bool) : Bool :=
  ((k.ahead? source).getD []).tail.head?.any p

/-- Takes a character from the iterator. The range then ends where the next one begins. -/
def advance : Option (Char × Cursor) :=
  match k.characters with
  | [] => none
  | (_, c) :: later =>
      some (c, { k with
        characters := later
        stop := later.head?.elim (Text.byteLength source) Prod.fst })

end

end Cursor

/-! ## Readers -/

/-- What may go wrong if the cursors come apart. -/
inductive Mishap where
  /-- A round has begun, and no character is left. -/
  | noCharacter
  /-- The range cannot be cut out, and an empty lexeme is taken instead. -/
  | noLexeme
  /-- The text behind the range cannot be cut out, and an empty one is looked at instead. -/
  | noText
  /-- The body of a string cannot be cut out, which ends the run. -/
  | noBody
  /-- The lexeme of a number is no numeral, which ends the run. -/
  | noNumeral
deriving DecidableEq, Repr

/-- Where in a round a reader is. -/
inductive Phase where
  /-- Before a round. -/
  | between
  /-- Before the first character. -/
  | begun
  /-- Behind a character that is an operator alone and with `=`. -/
  | operator (alone paired : Kind)
  | slash
  | comment
  | string
  /-- In the digits before a point. -/
  | whole
  /-- In the digits behind a point. -/
  | fraction
  | word
  | finished
  | failed
deriving DecidableEq, Repr

/-- A reader in the middle of a source, and what it has found so far. -/
structure Reader where
  cursor : Cursor
  /-- The line on which the round has begun. -/
  startLine : Nat
  line : Nat
  tokens : List Token
  errors : List LexicalError
  phase : Phase
  rounds : Nat
  mishaps : List Mishap
deriving DecidableEq, Repr

namespace Reader

/-- A reader at the beginning of a source. -/
def ofSource (source : List Char) : Reader :=
  ⟨⟨Text.indexed 0 source, 0, 0⟩, 1, 1, [], [], .between, 0, []⟩

def enter (phase : Phase) (r : Reader) : Reader :=
  { r with phase }

/-- Notes a mishap. -/
def note (mishap : Mishap) (r : Reader) : Reader :=
  { r with mishaps := r.mishaps ++ [mishap] }

/-- Notes a mishap if a text is missing. -/
def noteMissing (mishap : Mishap) (text? : Option (List Char)) (r : Reader) : Reader :=
  text?.elim (r.note mishap) fun _ => r

/-- Ends the run without a result. -/
def fail (mishap : Mishap) (r : Reader) : Reader :=
  (r.note mishap).enter .failed

/-- Adds an error at the range. -/
def report (fault : Fault) (r : Reader) : Reader :=
  { r with errors := r.errors ++ [⟨fault, ⟨r.cursor.start, r.cursor.stop, r.line⟩⟩] }

section

variable (source : List Char)

/-- Takes the next character, if there is one. -/
def skip (r : Reader) : Reader :=
  (r.cursor.advance source).elim r fun next => { r with cursor := next.2 }

/-- Takes the next character if it passes a test. -/
def expect (p : Char → Bool) (r : Reader) : Bool × Reader :=
  if r.cursor.peek.any p then (true, r.skip source) else (false, r)

/-- Takes the next character if it passes a test, and goes on in one of two ways. -/
def branch (p : Char → Bool) (taken refused : Reader → Reader) (r : Reader) : Reader :=
  match r.expect source p with
  | (true, r) => taken r
  | (false, r) => refused r

/-- Adds a token with the text of the range. -/
def add (kind : Kind) (literal : Option Literal) (r : Reader) : Reader :=
  let lexeme? := r.cursor.lexeme? source
  let token : Token := ⟨kind, String.ofList (lexeme?.getD []), literal,
    ⟨r.cursor.start, r.cursor.stop, r.startLine⟩⟩
  { r.noteMissing .noLexeme lexeme? with tokens := r.tokens ++ [token] }

/-- Ends a round with a token. -/
def close (kind : Kind) (literal : Option Literal) (r : Reader) : Reader :=
  (r.add source kind literal).enter .between

/-- Ends a string behind its second quote. -/
def closeString (r : Reader) : Reader :=
  match r.cursor.body? source with
  | none => r.fail .noBody
  | some body => r.close source .string (some (.string (String.ofList body)))

/-- Ends a number behind its last digit. -/
def closeNumber (r : Reader) : Reader :=
  let lexeme? := r.cursor.lexeme? source
  let r := r.noteMissing .noLexeme lexeme?
  match Decimal.ofNumeral? (lexeme?.getD []) with
  | none => r.fail .noNumeral
  | some d => r.close source .number (some (.number (.nearest d)))

/-- Begins a round. -/
def begin (r : Reader) : Reader :=
  { r with
    cursor := { r.cursor with start := r.cursor.stop }
    startLine := r.line
    phase := .begun
    rounds := r.rounds + 1 }

/-- Ends the run with the token that marks the end. -/
def finish (r : Reader) : Reader :=
  { r with
    tokens := r.tokens ++ [Token.endOfFile ⟨Text.byteLength source, r.line⟩]
    phase := .finished }

/-- Goes on after the first character of a round. -/
def dispatch (c : Char) (r : Reader) : Reader :=
  match Kind.ofPunctuator? c, Kind.ofOperator? c with
  | some kind, _ => r.close source kind none
  | none, some (alone, paired) => r.enter (.operator alone paired)
  | none, none =>
      if c = '/' then r.enter .slash
      else if c = ' ' || c = '\r' || c = '\t' then r.enter .between
      else if c = '\n' then { r with line := r.line + 1, phase := .between }
      else if c = '"' then r.enter .string
      else if c.isDigit then r.enter .whole
      else if Segment.isLetter c then r.enter .word
      else (r.report (.unexpectedCharacter c)).enter .between

/-- Goes on after the digits before a point: the point is taken only with a digit behind it. -/
def readPoint (r : Reader) : Reader :=
  if r.cursor.peek = some '.' then
    let r := r.noteMissing .noText (r.cursor.ahead? source)
    if r.cursor.peekNextIs source Char.isDigit then
      (r.skip source).enter .fraction
    else r.closeNumber source
  else r.closeNumber source

/-- Reads on, by one character at most. -/
def step (r : Reader) : Reader :=
  match r.phase with
  | .between => if r.cursor.isEnd source then r.finish source else r.begin
  | .begun =>
      match r.cursor.advance source with
      | none => (r.note .noCharacter).enter .between
      | some (c, cursor) => { r with cursor }.dispatch source c
  | .operator alone paired =>
      r.branch source (· = '=') (close source paired none) (close source alone none)
  | .slash => r.branch source (· = '/') (enter .comment) (close source .slash none)
  | .comment => r.branch source (· ≠ '\n') id (enter .between)
  | .string =>
      match r.cursor.advance source with
      | none => (r.report .unterminatedString).enter .between
      | some (c, cursor) =>
          let r := { r with cursor }
          if c = '"' then r.closeString source
          else if c = '\n' then { r with line := r.line + 1 }
          else r
  | .whole => r.branch source Char.isDigit id (readPoint source)
  | .fraction => r.branch source Char.isDigit id (closeNumber source)
  | .word => r.branch source Segment.isWordCharacter id (close source .identifier none)
  | .finished => r
  | .failed => r

/-- The reader after a number of steps. -/
def after : Nat → Reader
  | 0 => ofSource source
  | n + 1 => (after n).step source

end

end Reader

end LoxLexer
