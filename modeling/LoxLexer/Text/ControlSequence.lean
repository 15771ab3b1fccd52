/-!
# Control sequences

Text for a terminal may hold sequences that steer the terminal and are not shown. Each begins with
the escape character, and what comes next says how it ends: most end with a letter, an operating
system command with a bell, a control string with the string terminator. `visible` is what remains
of a text without them and without the other control characters of ASCII, save those that lay text
out. So all that remains is printable (`isPrintable_of_mem_visible`), and a printable text is left
as it is (`visible_eq_self`).
-/

namespace LoxLexer.Text

/-- The control characters that lay text out: tab, line feed, form feed and carriage return, but
not the vertical tab. -/
def isLayout (c : Char) : Bool :=
  c = '\t' || c = '\n' || c = '\x0c' || c = '\r'

/-- Whether a character stands for itself: it lays text out, or it is no control character of
ASCII. -/
def isPrintable (c : Char) : Bool :=
  isLayout c || (' ' ≤ c && c ≠ '\x7f')

/-- A control sequence that has begun, by what may follow. -/
inductive ControlSequence where
  /-- The escape character alone. -/
  | escape
  /-- An escape character and intermediate characters; a final character ends it. -/
  | intermediate
  /-- Parameters, up to a final letter. -/
  | parameters
  /-- A device control string that has only been opened. -/
  | deviceOpening
  /-- A device control string in its parameters. -/
  | deviceParameters
  /-- A device control string in its intermediate characters. -/
  | deviceIntermediate
  /-- A control string, up to the string terminator. -/
  | string
  /-- An operating system command, up to a bell. -/
  | command
deriving DecidableEq, Repr

namespace ControlSequence

/-- The characters between the opening of a sequence and its final character. -/
def isIntermediate (c : Char) : Bool :=
  ' ' ≤ c && c ≤ '/'

/-- Whether the encoding of a character holds the string terminator, which is looked for among
bytes and so can be found in the middle of a character. -/
def holdsStringTerminator (c : Char) : Bool :=
  (String.utf8EncodeChar c).contains 0x9c

/-- What is open after one more character; nothing if the sequence ends with it. A character that
has no place in a sequence leaves it as it is. -/
def next (c : Char) : ControlSequence → Option ControlSequence
  | escape =>
      if c = '[' then some parameters
      else if c = ']' then some command
      else if c = 'P' then some deviceOpening
      else if c = 'X' || c = '^' || c = '_' then some string
      else if isIntermediate c then some intermediate
      else if '0' ≤ c && c ≤ '~' then none
      else some escape
  | intermediate => if '0' ≤ c && c ≤ '~' then none else some intermediate
  | parameters => if '@' ≤ c && c ≤ '~' then none else some parameters
  | deviceOpening =>
      if isIntermediate c then some deviceIntermediate
      else if '0' ≤ c && c ≤ '?' then some deviceParameters
      else if '@' ≤ c && c ≤ '~' then some string
      else some deviceOpening
  | deviceParameters =>
      if isIntermediate c then some deviceIntermediate
      else if '<' ≤ c && c ≤ '~' then some string
      else some deviceParameters
  | deviceIntermediate => if '0' ≤ c && c ≤ '~' then some string else some deviceIntermediate
  | string => if holdsStringTerminator c then none else some string
  | command => if c = '\x07' then none else some command

/-- Whether layout inside a sequence is carried out, and so shown. In strings and commands it is
part of what is hidden. -/
def admitsLayout : ControlSequence → Bool
  | escape | intermediate | parameters => true
  | _ => false

end ControlSequence

/-- How the next character of a text is read. -/
inductive Reading where
  /-- As text. Layout suspends the sequence in which it stands: the text after it is shown up to the
  next control character, with which the sequence goes on. -/
  | shown (suspended : Option ControlSequence)
  /-- As part of a control sequence. -/
  | hidden (sequence : ControlSequence)
deriving DecidableEq, Repr

namespace Reading

/-- Whether a character is shown where it stands. -/
def shows (c : Char) : Reading → Bool
  | shown _ => isPrintable c
  | hidden sequence => sequence.admitsLayout && isLayout c

/-- The reading after one more character. Cancel and substitute break any sequence off, the escape
character begins a new one, and a character beyond ASCII ends a suspension. -/
def next (c : Char) (reading : Reading) : Reading :=
  if c = '\x18' || c = '\x1a' then shown none
  else if c = '\x1b' then hidden .escape
  else match reading with
    | shown suspended =>
        if '\x7f' < c then shown none
        else if isPrintable c then shown suspended
        else suspended.elim (shown none) hidden
    | hidden sequence =>
        if sequence.admitsLayout && isLayout c then shown (some sequence)
        else (sequence.next c).elim (shown none) hidden

/-- The characters of a text that are shown, from a given reading on. -/
def visible : Reading → List Char → List Char
  | _, [] => []
  | reading, c :: cs =>
      if reading.shows c then c :: visible (reading.next c) cs else visible (reading.next c) cs

theorem isPrintable_of_shows {c : Char} {reading : Reading} (hShows : reading.shows c = true) :
    isPrintable c = true := by
  cases reading with
  | shown _ => exact hShows
  | hidden sequence =>
      have hLayout := (Bool.and_eq_true_iff.1 hShows).2
      simp [isPrintable, hLayout]

theorem isPrintable_of_mem {c : Char} {reading : Reading} {cs : List Char}
    (hMem : c ∈ reading.visible cs) : isPrintable c = true := by
  fun_induction visible reading cs with
  | case1 => simp at hMem
  | case2 reading first cs hShows ih =>
      rcases List.mem_cons.1 hMem with rfl | hRest
      · exact isPrintable_of_shows hShows
      · exact ih hRest
  | case3 reading first cs _ ih => exact ih hMem

/-- A printable character is no reason to hide what comes after it. -/
theorem next_shown {c : Char} (hPrintable : isPrintable c = true)
    (suspended : Option ControlSequence) :
    ∃ suspended', (shown suspended).next c = shown suspended' := by
  have hCancel : (c = '\x18' || c = '\x1a') = false := by
    apply Bool.eq_false_iff.2
    rintro hCancel
    rcases (by simpa using hCancel : c = '\x18' ∨ c = '\x1a') with rfl | rfl <;>
      exact absurd hPrintable (by decide)
  have hEscape : c ≠ '\x1b' := by
    rintro rfl
    exact absurd hPrintable (by decide)
  simp only [next, hCancel, hEscape, hPrintable, if_true, if_false, Bool.false_eq_true]
  split
  · exact ⟨none, rfl⟩
  · exact ⟨suspended, rfl⟩

theorem visible_shown_eq_self {cs : List Char} (hPrintable : ∀ c ∈ cs, isPrintable c = true)
    (suspended : Option ControlSequence) : (shown suspended).visible cs = cs := by
  induction cs generalizing suspended with
  | nil => rfl
  | cons c cs ih =>
      have hFirst := hPrintable c List.mem_cons_self
      obtain ⟨suspended', hNext⟩ := next_shown hFirst suspended
      have hRest := ih (fun c' hMem => hPrintable c' (List.mem_cons_of_mem c hMem)) suspended'
      simp [visible, shows, hFirst, hNext, hRest]

end Reading

/-- A text without its control sequences and without the control characters that do not lay it
out. -/
def visible (cs : List Char) : List Char :=
  (Reading.shown none).visible cs

theorem isPrintable_of_mem_visible {c : Char} {cs : List Char} (hMem : c ∈ visible cs) :
    isPrintable c = true :=
  Reading.isPrintable_of_mem hMem

theorem visible_eq_self {cs : List Char} (hPrintable : ∀ c ∈ cs, isPrintable c = true) :
    visible cs = cs :=
  Reading.visible_shown_eq_self hPrintable none

theorem visible_visible (cs : List Char) : visible (visible cs) = visible cs :=
  visible_eq_self fun _ hMem => isPrintable_of_mem_visible hMem

end LoxLexer.Text
