import LoxLexer.Proofs.CharacterRanges
import LoxLexer.Scan.Reader

/-!
# One place in a source

The two cursors of a reader stand in one place if the source is made of what was there before the
round, what the round has taken, and what is left, where the range ends and begins with the second
of these and the iterator holds the third (`Cursor.At`). Taking a character keeps that
(`Cursor.At.taken`), however many bytes the character has. Everything that a reader asks its cursors
is then a question about the three texts, and nothing that it cuts out is missing
(`Cursor.At.agrees`).
-/

namespace LoxLexer

theorem Text.length_indexed (first : Nat) (cs : List Char) : (indexed first cs).length = cs.length := by
  induction cs generalizing first with
  | nil => rfl
  | cons c cs ih => rw [indexed, List.length_cons, ih, List.length_cons]

namespace Cursor

/-- Cursors that have `before` behind them, `lexeme` in their range and `rest` ahead. -/
structure At (source before lexeme rest : List Char) (k : Cursor) : Prop where
  text : before ++ lexeme ++ rest = source
  start_eq : k.start = Text.byteLength before
  stop_eq : k.stop = Text.byteLength (before ++ lexeme)
  characters_eq : k.characters = Text.indexed k.stop rest

/-- Cursors that agree about a source. The range lies between two boundaries of it and can be cut
out, the iterator holds the characters behind the range with their offsets, and whether any are
left, and which come next, is the same by either of the two. -/
structure Agrees (source : List Char) (k : Cursor) : Prop where
  start_le_stop : k.start ≤ k.stop
  stop_le : k.stop ≤ Text.byteLength source
  start_isBoundary : Text.IsBoundary k.start source
  stop_isBoundary : Text.IsBoundary k.stop source
  lexeme : ∃ lexeme, k.lexeme? source = some lexeme
  ahead : ∃ rest, k.ahead? source = some rest ∧ k.characters = Text.indexed k.stop rest ∧
    k.peek = rest.head? ∧ ∀ p, k.peekNextIs source p = rest.tail.head?.any p
  characters_eq_nil_iff : k.characters = [] ↔ k.isEnd source = true

/-- The cursors behind the next character. -/
def taken (c : Char) (k : Cursor) : Cursor :=
  { k with characters := k.characters.tail, stop := k.stop + c.utf8Size }

namespace At

variable {source before lexeme rest : List Char} {k : Cursor}

/-! ## What cursors are asked -/

theorem lexeme? (hAt : k.At source before lexeme rest) : k.lexeme? source = some lexeme :=
  Text.slice?_eq_some_iff.2 ⟨before, rest, hAt.text, hAt.start_eq.symm, hAt.stop_eq.symm⟩

theorem ahead? (hAt : k.At source before lexeme rest) : k.ahead? source = some rest := by
  have hSplit : Text.splitBytes? k.stop source = some (before ++ lexeme, rest) :=
    Text.splitBytes?_eq_some_iff.2 ⟨hAt.text, hAt.stop_eq.symm⟩
  rw [Cursor.ahead?, Text.dropBytes?, hSplit]
  rfl

/-- The text between two quotes is what is left if a byte is taken off at each end. -/
theorem body? {body : List Char} (hAt : k.At source before ('"' :: body ++ ['"']) rest) :
    k.body? source = some body := by
  have hQuote : '"'.utf8Size = 1 := by decide
  apply Text.slice?_eq_some_iff.2
  refine ⟨before ++ ['"'], '"' :: rest, ?_, ?_, ?_⟩
  · rw [← hAt.text]
    simp
  · rw [hAt.start_eq, Text.byteLength_append, Text.byteLength_cons, hQuote, Text.byteLength_nil]
  · rw [hAt.stop_eq]
    simp only [Text.byteLength_append, Text.byteLength_cons, Text.byteLength_nil, hQuote]
    omega

theorem peek (hAt : k.At source before lexeme rest) : k.peek = rest.head? := by
  rw [Cursor.peek, hAt.characters_eq]
  cases rest with
  | nil => rfl
  | cons c rest => rfl

theorem peekNextIs (hAt : k.At source before lexeme rest) (p : Char → Bool) :
    k.peekNextIs source p = rest.tail.head?.any p := by
  rw [Cursor.peekNextIs, hAt.ahead?]
  rfl

theorem stop_add (hAt : k.At source before lexeme rest) :
    k.stop + Text.byteLength rest = Text.byteLength source := by
  rw [hAt.stop_eq, ← Text.byteLength_append, hAt.text]

/-- **The range ends with the source where the iterator does.** -/
theorem isEnd_iff (hAt : k.At source before lexeme rest) : k.isEnd source = true ↔ rest = [] := by
  have hStop := hAt.stop_add
  rw [isEnd, decide_eq_true_eq, ← Text.byteLength_eq_zero_iff]
  omega

theorem characters_eq_nil_iff (hAt : k.At source before lexeme rest) :
    k.characters = [] ↔ rest = [] := by
  rw [hAt.characters_eq, ← List.length_eq_zero_iff, Text.length_indexed, List.length_eq_zero_iff]

/-- **Cursors in one place agree.** -/
theorem agrees (hAt : k.At source before lexeme rest) : k.Agrees source where
  start_le_stop := by
    rw [hAt.start_eq, hAt.stop_eq, Text.byteLength_append]
    exact Nat.le_add_right _ _
  stop_le := by
    rw [← hAt.stop_add]
    exact Nat.le_add_right _ _
  start_isBoundary := by
    have hText : before ++ (lexeme ++ rest) = source := by rw [← List.append_assoc, hAt.text]
    exact Text.isBoundary_iff.2 ⟨before, lexeme ++ rest, hText, hAt.start_eq.symm⟩
  stop_isBoundary := Text.isBoundary_iff.2 ⟨before ++ lexeme, rest, hAt.text, hAt.stop_eq.symm⟩
  lexeme := ⟨lexeme, hAt.lexeme?⟩
  ahead := ⟨rest, hAt.ahead?, hAt.characters_eq, hAt.peek, hAt.peekNextIs⟩
  characters_eq_nil_iff := by rw [hAt.characters_eq_nil_iff, hAt.isEnd_iff]

/-! ## Taking a character -/

theorem advance_nil (hAt : k.At source before lexeme []) : k.advance source = none := by
  rw [advance, hAt.characters_eq]
  rfl

/-- Where the next character begins, the one that is taken has ended. -/
theorem advance_cons {c : Char} (hAt : k.At source before lexeme (c :: rest)) :
    k.advance source = some (c, k.taken c) := by
  have hStop := hAt.stop_add
  rw [Text.byteLength_cons] at hStop
  have hNext : ((Text.indexed (k.stop + c.utf8Size) rest).head?.elim (Text.byteLength source)
      Prod.fst) = k.stop + c.utf8Size := by
    cases rest with
    | nil => exact hStop.symm
    | cons d rest => rfl
  rw [advance, taken, hAt.characters_eq, Text.indexed]
  simp only [hNext, List.tail_cons]

/-- **Taking a character keeps the cursors in one place.** -/
theorem taken {c : Char} (hAt : k.At source before lexeme (c :: rest)) :
    (k.taken c).At source before (lexeme ++ [c]) rest where
  text := by
    rw [← hAt.text]
    simp
  start_eq := hAt.start_eq
  stop_eq := by
    show k.stop + c.utf8Size = _
    rw [hAt.stop_eq, ← List.append_assoc, Text.byteLength_append (before ++ lexeme),
      Text.byteLength_cons, Text.byteLength_nil, Nat.add_zero]
  characters_eq := by
    show k.characters.tail = _
    rw [hAt.characters_eq]
    rfl

/-- The range ends further on where fewer characters are left. -/
theorem stop_lt {before' lexeme' rest' : List Char} {k' : Cursor}
    (hAt : k.At source before lexeme rest) (hAt' : k'.At source before' lexeme' rest')
    (hFewer : rest'.length < rest.length) : k.stop < k'.stop := by
  have hSuffix : rest' <:+ rest := List.suffix_of_suffix_length_le
    ⟨before' ++ lexeme', hAt'.text⟩ ⟨before ++ lexeme, hAt.text⟩ (Nat.le_of_lt hFewer)
  obtain ⟨between, rfl⟩ := hSuffix
  have hSome : between ≠ [] := by
    intro hNone
    rw [hNone] at hFewer
    exact Nat.lt_irrefl _ hFewer
  have hBytes := mt Text.byteLength_eq_zero_iff.1 hSome
  have hStop := hAt.stop_add
  have hStop' := hAt'.stop_add
  rw [Text.byteLength_append] at hStop
  omega

end At

end Cursor

end LoxLexer
