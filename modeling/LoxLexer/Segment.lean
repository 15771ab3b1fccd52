import LoxLexer.Kind

/-!
# Segments

A source falls into segments: blanks, comments, lexemes, characters that begin nothing, and at
most one string that is never closed. `cut` takes the first segment off a text, by looking at its
first character and at most two characters past its end; `segments` repeats that.

Nothing is lost: a segment and what follows it make up the text again (`text_cut_append`), hence
so do all segments together (`flatMap_text_segments`). Each segment holds at least one character
(`text_ne_nil_of_mem_segments`), which is also why the cutting ends.
-/

namespace LoxLexer

/-- A piece of a source, with its text. -/
inductive Segment where
  | blank (c : Char)
  | comment (text : List Char)
  | lexeme (kind : Kind) (text : List Char)
  | unexpected (c : Char)
  | unterminated (text : List Char)
deriving DecidableEq, Repr

namespace Segment

def text : Segment → List Char
  | blank c => [c]
  | comment text => text
  | lexeme _ text => text
  | unexpected c => [c]
  | unterminated text => text

/-- The characters that only separate lexemes. -/
def isBlank (c : Char) : Bool :=
  c = ' ' || c = '\t' || c = '\r' || c = '\n'

/-- The ASCII letters and the underscore. -/
def isLetter (c : Char) : Bool :=
  c.isAlpha || c = '_'

/-- The characters that continue an identifier. -/
def isWordCharacter (c : Char) : Bool :=
  isLetter c || c.isDigit

/-- After a slash: a second one begins a comment, which runs to the end of its line. -/
def cutSlash (cs : List Char) : Segment × List Char :=
  if cs.head? = some '/' then
    (.comment ('/' :: cs.takeWhile (· ≠ '\n')), cs.dropWhile (· ≠ '\n'))
  else (.lexeme .slash ['/'], cs)

/-- After a quote: the string runs to the next quote, or is open to the end of the source. -/
def cutString (cs : List Char) : Segment × List Char :=
  let body := cs.takeWhile (· ≠ '"')
  match cs.dropWhile (· ≠ '"') with
  | [] => (.unterminated ('"' :: body), [])
  | quote :: rest => (.lexeme .string ('"' :: body ++ [quote]), rest)

/-- A point and the digits after it, if there is a digit. -/
def cutFraction (cs : List Char) : List Char × List Char :=
  match cs with
  | '.' :: d :: rest =>
      if d.isDigit then
        ('.' :: d :: rest.takeWhile Char.isDigit, rest.dropWhile Char.isDigit)
      else ([], cs)
  | _ => ([], cs)

/-- After a digit: the number takes all digits, and a fraction if one follows. -/
def cutNumber (c : Char) (cs : List Char) : Segment × List Char :=
  let fraction := cutFraction (cs.dropWhile Char.isDigit)
  (.lexeme .number (c :: cs.takeWhile Char.isDigit ++ fraction.1), fraction.2)

/-- After a letter: the identifier takes all letters and digits. -/
def cutIdentifier (c : Char) (cs : List Char) : Segment × List Char :=
  (.lexeme .identifier (c :: cs.takeWhile isWordCharacter), cs.dropWhile isWordCharacter)

/-- After a character that is an operator alone or with `=`: the longer one is preferred. -/
def cutOperator (c : Char) (alone paired : Kind) (cs : List Char) : Segment × List Char :=
  match cs with
  | '=' :: rest => (.lexeme paired [c, '='], rest)
  | _ => (.lexeme alone [c], cs)

/-- The first segment of the text `c :: cs`, and the text after it. -/
def cut (c : Char) (cs : List Char) : Segment × List Char :=
  if isBlank c then (.blank c, cs)
  else if c = '/' then cutSlash cs
  else if c = '"' then cutString cs
  else if c.isDigit then cutNumber c cs
  else if isLetter c then cutIdentifier c cs
  else match Kind.ofPunctuator? c, Kind.ofOperator? c with
    | some kind, _ => (.lexeme kind [c], cs)
    | none, some (alone, paired) => cutOperator c alone paired cs
    | none, none => (.unexpected c, cs)

/-! ## Nothing is lost -/

private theorem text_cutSlash_append (cs : List Char) :
    (cutSlash cs).1.text ++ (cutSlash cs).2 = '/' :: cs := by
  unfold cutSlash
  split <;> simp [text, List.takeWhile_append_dropWhile]

private theorem text_cutString_append (cs : List Char) :
    (cutString cs).1.text ++ (cutString cs).2 = '"' :: cs := by
  have hParts := List.takeWhile_append_dropWhile (p := (· ≠ '"')) (l := cs)
  unfold cutString
  split
  case h_1 hRest =>
      rw [hRest] at hParts
      simpa [text] using hParts
  case h_2 quote rest hRest =>
      rw [hRest] at hParts
      simpa [text] using hParts

theorem cutFraction_append (cs : List Char) : (cutFraction cs).1 ++ (cutFraction cs).2 = cs := by
  unfold cutFraction
  split
  · split <;> simp [List.takeWhile_append_dropWhile]
  · rfl

private theorem text_cutNumber_append (c : Char) (cs : List Char) :
    (cutNumber c cs).1.text ++ (cutNumber c cs).2 = c :: cs := by
  simp [cutNumber, text, cutFraction_append, List.takeWhile_append_dropWhile]

private theorem text_cutOperator_append (c : Char) (alone paired : Kind) (cs : List Char) :
    (cutOperator c alone paired cs).1.text ++ (cutOperator c alone paired cs).2 = c :: cs := by
  unfold cutOperator
  split <;> simp [text]

/-- **A cut loses nothing**: the segment and the rest make up the text. -/
theorem text_cut_append (c : Char) (cs : List Char) :
    (cut c cs).1.text ++ (cut c cs).2 = c :: cs := by
  unfold cut
  split
  · rfl
  split
  case isTrue hSlash =>
      rw [hSlash]
      exact text_cutSlash_append cs
  split
  case isTrue hQuote =>
      rw [hQuote]
      exact text_cutString_append cs
  split
  · exact text_cutNumber_append c cs
  split
  · simp [cutIdentifier, text, List.takeWhile_append_dropWhile]
  split
  · rfl
  · exact text_cutOperator_append c _ _ cs
  · rfl

theorem text_cut_ne_nil (c : Char) (cs : List Char) : (cut c cs).1.text ≠ [] := by
  unfold cut cutSlash cutString cutNumber cutIdentifier cutOperator
  repeat' split
  all_goals simp [text]

/-- What follows the first segment is shorter than the text. -/
theorem length_cut_le (c : Char) (cs : List Char) : (cut c cs).2.length ≤ cs.length := by
  have hLength := congrArg List.length (text_cut_append c cs)
  have hSome := List.length_pos_iff.2 (text_cut_ne_nil c cs)
  simp only [List.length_append, List.length_cons] at hLength
  omega

/-! ## All segments -/

/-- The segments of a text, from left to right. -/
def segments : List Char → List Segment
  | [] => []
  | c :: cs => (cut c cs).1 :: segments (cut c cs).2
termination_by cs => cs.length
decreasing_by exact Nat.lt_succ_of_le (length_cut_le c cs)

@[simp] theorem segments_nil : segments [] = [] := by
  rw [segments]

theorem segments_cons (c : Char) (cs : List Char) :
    segments (c :: cs) = (cut c cs).1 :: segments (cut c cs).2 := by
  rw [segments]

/-- **The segments cover the source**: joined, they are the text they were cut from. -/
theorem flatMap_text_segments (cs : List Char) : (segments cs).flatMap text = cs := by
  fun_induction segments cs with
  | case1 => rfl
  | case2 c cs ih =>
      rw [List.flatMap_cons, ih]
      exact text_cut_append c cs

theorem text_ne_nil_of_mem_segments {cs : List Char} {s : Segment} (hMem : s ∈ segments cs) :
    s.text ≠ [] := by
  fun_induction segments cs with
  | case1 => simp at hMem
  | case2 c cs ih =>
      rcases List.mem_cons.1 hMem with rfl | hRest
      · exact text_cut_ne_nil c cs
      · exact ih hRest

end Segment

end LoxLexer
