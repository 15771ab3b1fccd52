import LoxLexer.Text.Utf8

/-!
# Ranges of characters

A range of characters counts characters where a span counts bytes. Every byte range of a text has
a range of characters, even one that cannot be cut out of the text: its start counts only if it is
a boundary between characters, and its length only if both ends are. So the range always lies
inside the text (`ofBytes_start_le_stop`, `ofBytes_stop_le_length`).
-/

namespace LoxLexer.Text

/-- A range of characters, by number: from `start` up to and without `stop`. -/
structure CharacterRange where
  start : Nat
  stop : Nat
deriving DecidableEq, Repr

namespace CharacterRange

/-- Whether a range holds the character with the given number. -/
def covers (range : CharacterRange) (character : Nat) : Bool :=
  range.start ≤ character && character < range.stop

/-- The characters between two byte offsets. A start that is no boundary counts as the beginning,
and a range that cannot be cut out as empty. -/
def ofBytes (start stop : Nat) (cs : List Char) : CharacterRange :=
  let before := (takeBytes? start cs).elim 0 List.length
  let inside := (slice? start stop cs).elim 0 List.length
  ⟨before, before + inside⟩

theorem ofBytes_start_le_stop (start stop : Nat) (cs : List Char) :
    (ofBytes start stop cs).start ≤ (ofBytes start stop cs).stop :=
  Nat.le_add_right _ _

theorem ofBytes_stop_le_length (start stop : Nat) (cs : List Char) :
    (ofBytes start stop cs).stop ≤ cs.length := by
  show (takeBytes? start cs).elim 0 List.length + (slice? start stop cs).elim 0 List.length ≤ _
  cases hCut : splitBytes? start cs with
  | none => simp [slice?, takeBytes?, dropBytes?, hCut]
  | some parts =>
      obtain ⟨before, rest⟩ := parts
      have hLength := congrArg List.length (splitBytes?_eq_some_iff.1 hCut).1
      rw [List.length_append] at hLength
      have hInside : (slice? start stop cs).elim 0 List.length ≤ rest.length := by
        simp only [slice?, dropBytes?, hCut, Option.map_some, Option.bind_some]
        split
        case isTrue =>
            cases hSlice : splitBytes? (stop - start) rest with
            | none => simp [takeBytes?, hSlice]
            | some pieces =>
                obtain ⟨inside, after⟩ := pieces
                have hRest := congrArg List.length (splitBytes?_eq_some_iff.1 hSlice).1
                rw [List.length_append] at hRest
                simp only [takeBytes?, hSlice, Option.map_some, Option.elim_some]
                omega
        case isFalse => simp
      simp only [takeBytes?, hCut, Option.map_some, Option.elim_some]
      omega

end CharacterRange

end LoxLexer.Text
