import LoxLexer.Binary64.Nearest

/-!
# The shortest decimal of a double

Among the decimals that round to a double, the one with the fewest places is taken, and of those
the closest. On each decimal grid only the two neighbours of the double need a look: if any point
of the grid rounds to it, one of these does. Every finite double is itself a point of the grid of
1074 places, so the search need not go further.

Whether a decimal rounds to the double is asked of `nearest`, the same function that decodes
numerals, so what is found is read back as the double by construction (`isRead_of_closest?`).
-/

namespace LoxLexer.Binary64

/-- Whether a decimal rounds to the absolute value of a double. -/
def isRead (x : Binary64) (d : Decimal) : Bool :=
  nearest d = x.abs

/-- The two decimals with this many places that enclose the absolute value of a finite double, the
closer one first; of two that are equally close, the upper one. -/
def neighbours (x : Binary64) (places : Nat) : List Decimal :=
  let scaled := x.magnitude * Nat.pow 10 places
  let below : Decimal := ⟨scaled / one, places⟩
  let above : Decimal := ⟨scaled / one + 1, places⟩
  if 2 * (scaled % one) < one then [below, above] else [above, below]

/-- The decimal with this many places that rounds to a double and is closest to it. -/
def closest? (x : Binary64) (places : Nat) : Option Decimal :=
  (x.neighbours places).find? x.isRead

theorem isRead_of_closest? {x : Binary64} {places : Nat} {d : Decimal}
    (hFound : x.closest? places = some d) : x.isRead d = true :=
  List.find?_some hFound

theorem places_of_closest? {x : Binary64} {places : Nat} {d : Decimal}
    (hFound : x.closest? places = some d) : d.places = places := by
  have hMem := List.mem_of_find?_eq_some hFound
  simp only [neighbours] at hMem
  split at hMem
  all_goals
    simp only [List.mem_cons, List.not_mem_nil, or_false] at hMem
    rcases hMem with rfl | rfl <;> rfl

/-- The double as a decimal of 1074 places, which holds every finite one exactly. -/
def exactDecimal (x : Binary64) : Decimal :=
  ⟨x.magnitude * Nat.pow 5 1074, 1074⟩

/-- The decimal of fewest places, at least one, that rounds to a double, and the closest of
those. -/
def shortest (x : Binary64) : Decimal :=
  ((List.range' 1 1074).findSome? x.closest?).getD x.exactDecimal

/-- The text of a double, never with an exponent: a whole number in full with one zero after the
point, any other finite number in its shortest form. -/
def text (x : Binary64) : List Char :=
  if x.isNaN then "NaN".toList
  else
    let sign := if x.isNegative then ['-'] else []
    if !x.isFinite then sign ++ "inf".toList
    else if x.isWhole then sign ++ (Decimal.mk (10 * (x.magnitude / one)) 1).text
    else sign ++ x.shortest.text

end LoxLexer.Binary64
