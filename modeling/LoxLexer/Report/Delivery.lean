/-!
# Delivery to a receiver with little room

Texts are handed one after another to a receiver that takes only so many bytes. It takes each in
full while there is room, of the first that does not fit as much as there is room for, and nothing
after that. What it has taken then is the beginning of all the texts joined (`written_ofTexts`),
and it has taken all of them if and only if there was room for all (`complete_ofTexts`).
-/

namespace LoxLexer

/-- What became of a text that was to be delivered: the bytes that were taken, and whether these
are all. -/
structure Delivery where
  written : List UInt8
  complete : Bool
deriving DecidableEq, Repr

/-- Delivers texts in order while there is room; the first for which there is not enough ends it,
after as many of its bytes as fit. -/
def Delivery.ofTexts (room : Nat) : List (List UInt8) → Delivery
  | [] => ⟨[], true⟩
  | text :: rest =>
      if text.length ≤ room then
        let others := ofTexts (room - text.length) rest
        ⟨text ++ others.written, others.complete⟩
      else ⟨text.take room, false⟩

namespace Delivery

/-- **The receiver gets a beginning of the whole**, as long as there is room for. -/
theorem written_ofTexts (room : Nat) (texts : List (List UInt8)) :
    (ofTexts room texts).written = texts.flatten.take room := by
  induction texts generalizing room with
  | nil => simp [ofTexts]
  | cons text rest ih =>
      rw [ofTexts, List.flatten_cons, List.take_append]
      split
      case isTrue hFits =>
          rw [List.take_of_length_le hFits, ← ih]
      case isFalse hFull =>
          rw [show room - text.length = 0 from by omega, List.take_zero, List.append_nil]

theorem complete_ofTexts (room : Nat) (texts : List (List UInt8)) :
    (ofTexts room texts).complete = decide (texts.flatten.length ≤ room) := by
  induction texts generalizing room with
  | nil => simp [ofTexts]
  | cons text rest ih =>
      rw [ofTexts, List.flatten_cons, List.length_append]
      split
      case isTrue hFits =>
          rw [show (ofTexts (room - text.length) rest).complete = _ from ih _, decide_eq_decide]
          omega
      case isFalse hFull =>
          rw [eq_comm, decide_eq_false_iff_not]
          omega

end Delivery

end LoxLexer
