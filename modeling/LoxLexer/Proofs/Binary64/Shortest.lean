import LoxLexer.Proofs.Binary64.Rounding

/-!
# The search for the shortest decimal

What the search for the shortest decimal of a double comes to. On a grid of decimals the closer one
of the two neighbours that is read back is as close as any decimal of that grid that is read back
(`closest?_spec`), because the numbers that are read back are an interval and the double lies in it.
The grids are tried from the coarsest on, so no decimal with fewer places is read back
(`shortest_spec`). A double that is no whole number is not read from one
(`isWhole_of_nearest`).

Fewest places are fewest digits (`shortest_digits`): between a number with fewer digits, or with as
many and more places, and the decimal that is found there would be a power of ten, and this power
would have been found before (`not_nearest_ten_mul`). There is one exception. A power of ten that is
one step of the grid has one digit itself, and a double may be so coarse that nine tenths of it are
read as the same. Then the double is the second smallest one, two units, and it is closer to the
power of ten (`le_value_of_nearest_tenths`).
-/

namespace LoxLexer

/-- Of a sorted row, the first element for which a function has a result comes before all the
others. -/
theorem first_of_findSome? {α β : Type} {related : α → α → Prop} {f : α → Option β} {b : β}
    {row : List α} (hSorted : row.Pairwise related) (hFound : row.findSome? f = some b) :
    ∃ a ∈ row, f a = some b ∧ ∀ c ∈ row, f c ≠ none → c = a ∨ related a c := by
  obtain ⟨front, a, back, rfl, hResult, hBefore⟩ := List.findSome?_eq_some_iff.1 hFound
  refine ⟨a, List.mem_append_right _ List.mem_cons_self, hResult, ?_⟩
  intro c hMem hSome
  rcases List.mem_append.1 hMem with hFront | hBack
  · exact absurd (hBefore c hFront) hSome
  · rcases List.mem_cons.1 hBack with rfl | hLater
    · exact .inl rfl
    · exact .inr (List.rel_of_pairwise_cons (List.pairwise_append.1 hSorted).2.1 hLater)

namespace Binary64

/-! ## Decimals that are read back -/

/-- **A decimal is read as the double to which its value is rounded.** -/
theorem nearest_eq_iff {d : Decimal} {x : Binary64} : nearest d = x ↔ RoundsTo d.value x := by
  constructor
  · rintro rfl
    exact roundsTo_nearest d
  · exact (roundsTo_nearest d).unique

theorem isRead_iff {x : Binary64} {d : Decimal} :
    x.isRead d = true ↔ RoundsTo d.value x.abs := by
  rw [isRead, decide_eq_true_iff, nearest_eq_iff]

theorem value_exactDecimal (x : Binary64) : x.exactDecimal.value = x.abs.value := by
  obtain ⟨places, hPlaces, hOne⟩ := exists_one_eq
  have hTen : (10 : ℚ) ^ places = 5 ^ places * 2 ^ places := by
    rw [← mul_pow]
    norm_num
  rw [value_abs, abs_value, Decimal.value, exactDecimal, ← hPlaces, hOne, Nat.pow_eq, hTen]
  push_cast
  rw [mul_comm, mul_div_mul_left _ _ (by positivity)]

/-- The absolute value of a finite double is rounded to it. -/
theorem roundsTo_abs {x : Binary64} (hFinite : x.isFinite = true) :
    RoundsTo x.abs.value x.abs := by
  rw [← value_exactDecimal]
  exact nearest_eq_iff.1 (nearest_exactDecimal hFinite)

/-! ## One grid -/

/-- The neighbours enclose the absolute value, which lies `part` of a step behind the lower one. -/
theorem exists_part (x : Binary64) (places : Nat) :
    ∃ (below : Nat) (part : ℚ), 0 ≤ part ∧ part < 1 ∧
      x.abs.value = (below + part) / 10 ^ places ∧
      x.neighbours places =
        if part < 1 / 2 then [⟨below, places⟩, ⟨below + 1, places⟩]
        else [⟨below + 1, places⟩, ⟨below, places⟩] := by
  have hUnit := cast_one_pos
  generalize hScaled : x.magnitude * 10 ^ places = scaled
  have hLess : ((scaled % one : ℕ) : ℚ) < one := Nat.cast_lt.2 (Nat.mod_lt _ one_pos)
  refine ⟨scaled / one, (scaled % one : ℕ) / one, by positivity, (div_lt_one hUnit).2 hLess, ?_, ?_⟩
  · have hSplit : (x.magnitude : ℚ) * 10 ^ places =
        one * (scaled / one : ℕ) + (scaled % one : ℕ) := by
      have hParts : one * (scaled / one) + scaled % one = x.magnitude * 10 ^ places := by
        rw [Nat.div_add_mod, hScaled]
      exact_mod_cast hParts.symm
    rw [value_abs, abs_value, div_eq_div_iff hUnit.ne' (by positivity), hSplit]
    field_simp
  · have hHalf : ((scaled % one : ℕ) : ℚ) / one < 1 / 2 ↔ 2 * (scaled % one) < one := by
      rw [div_lt_div_iff₀ hUnit two_pos, one_mul, mul_comm]
      exact_mod_cast Iff.rfl
    simp only [neighbours, Nat.pow_eq, hScaled, hHalf]

theorem pairwise_neighbours (x : Binary64) (places : Nat) :
    (x.neighbours places).Pairwise
      fun d e => |d.value - x.abs.value| ≤ |e.value - x.abs.value| := by
  obtain ⟨below, part, hPart, hPart', hValue, hNeighbours⟩ := exists_part x places
  have hScale : (0 : ℚ) < 10 ^ places := by positivity
  have hBelow : |(below : ℚ) / 10 ^ places - x.abs.value| = part / 10 ^ places := by
    rw [hValue, ← sub_div, sub_add_cancel_left, abs_div, abs_neg, abs_of_nonneg hPart,
      abs_of_pos hScale]
  have hAbove : |((below + 1 : ℕ) : ℚ) / 10 ^ places - x.abs.value| = (1 - part) / 10 ^ places := by
    rw [hValue, ← sub_div, Nat.cast_add_one, add_sub_add_left_eq_sub, abs_div,
      abs_of_pos (sub_pos.2 hPart'), abs_of_pos hScale]
  rw [hNeighbours]
  split
  all_goals
    refine List.pairwise_pair.2 ?_
    rw [Decimal.value, Decimal.value, hBelow, hAbove]
    exact div_le_div_of_nonneg_right (by linarith) hScale.le

/-- A decimal that is read back has a neighbour of the double between it and the double, which is
read back too. -/
theorem exists_neighbour {x : Binary64} (hFinite : x.isFinite = true) {d : Decimal}
    (hRead : x.isRead d = true) :
    ∃ e ∈ x.neighbours d.places, x.isRead e = true ∧
      |e.value - x.abs.value| ≤ |d.value - x.abs.value| := by
  obtain ⟨below, part, hPart, hPart', hValue, hNeighbours⟩ := exists_part x d.places
  have hScale : (0 : ℚ) < 10 ^ d.places := by positivity
  have hOwn := roundsTo_abs hFinite
  have hMem (e : Decimal) : e ∈ x.neighbours d.places ↔
      e = ⟨below, d.places⟩ ∨ e = ⟨below + 1, d.places⟩ := by
    rw [hNeighbours]
    split
    · simp
    · simp [or_comm]
  have hRounds := isRead_iff.1 hRead
  by_cases hSide : d.digits ≤ below
  · have hLower : d.value ≤ (below : ℚ) / 10 ^ d.places :=
      div_le_div_of_nonneg_right (Nat.cast_le.2 hSide) hScale.le
    have hUpper : (below : ℚ) / 10 ^ d.places ≤ x.abs.value := by
      rw [hValue]
      exact div_le_div_of_nonneg_right (by linarith) hScale.le
    refine ⟨⟨below, d.places⟩, (hMem _).2 (.inl rfl), ?_, ?_⟩
    · exact isRead_iff.2 (hRounds.between (isFinite_abs hFinite) hOwn hLower hUpper)
    · rw [Decimal.value, abs_sub_comm, abs_sub_comm d.value, abs_of_nonneg (sub_nonneg.2 hUpper),
        abs_of_nonneg (sub_nonneg.2 (hLower.trans hUpper))]
      linarith
  · have hUpper : ((below + 1 : ℕ) : ℚ) / 10 ^ d.places ≤ d.value :=
      div_le_div_of_nonneg_right (Nat.cast_le.2 (by omega)) hScale.le
    have hLower : x.abs.value ≤ ((below + 1 : ℕ) : ℚ) / 10 ^ d.places := by
      rw [hValue, Nat.cast_add_one]
      exact div_le_div_of_nonneg_right (by linarith) hScale.le
    refine ⟨⟨below + 1, d.places⟩, (hMem _).2 (.inr rfl), ?_, ?_⟩
    · exact isRead_iff.2 (hOwn.between (isFinite_abs hFinite) hRounds hLower hUpper)
    · rw [Decimal.value, abs_of_nonneg (sub_nonneg.2 hLower),
        abs_of_nonneg (sub_nonneg.2 (hLower.trans hUpper))]
      linarith

/-- **On each grid the search finds the closest decimal that is read back**, if there is any. -/
theorem closest?_spec {x : Binary64} (hFinite : x.isFinite = true) {e : Decimal}
    (hRead : x.isRead e = true) :
    ∃ d, x.closest? e.places = some d ∧ |d.value - x.abs.value| ≤ |e.value - x.abs.value| := by
  obtain ⟨f, hMem, hReadBetween, hCloser⟩ := exists_neighbour hFinite hRead
  cases hFound : x.closest? e.places with
  | none => exact absurd hReadBetween (List.find?_eq_none.1 hFound f hMem)
  | some d =>
      refine ⟨d, rfl, ?_⟩
      rw [closest?, List.find?_eq_findSome?_guard] at hFound
      obtain ⟨g, -, hResult, hFirst⟩ :=
        first_of_findSome? (x.pairwise_neighbours e.places) hFound
      obtain ⟨rfl, -⟩ := Option.guard_eq_some_iff.1 hResult
      rcases hFirst f hMem (by simp [Option.guard, hReadBetween]) with rfl | hOther
      · exact hCloser
      · exact hOther.trans hCloser

/-! ## All grids -/

/-- **The shortest decimal of a double**: no decimal with fewer places is read back, and none with
as many places is closer. -/
theorem shortest_spec {x : Binary64} (hFinite : x.isFinite = true) :
    0 < x.shortest.places ∧
      ∀ e : Decimal, 0 < e.places → x.isRead e = true →
        x.shortest.places ≤ e.places ∧
          (e.places = x.shortest.places →
            |x.shortest.value - x.abs.value| ≤ |e.value - x.abs.value|) := by
  have hExact : x.isRead x.exactDecimal = true := decide_eq_true (nearest_exactDecimal hFinite)
  obtain ⟨exact, hExactFound, -⟩ := closest?_spec hFinite hExact
  have hPlaces : x.exactDecimal.places = 1074 := rfl
  rw [hPlaces] at hExactFound
  cases hSearch : (List.range' 1 1074).findSome? x.closest? with
  | none =>
      have hNone := List.findSome?_eq_none_iff.1 hSearch 1074 (List.mem_range'_1.2 (by omega))
      rw [hExactFound] at hNone
      cases hNone
  | some d =>
      have hShortest : x.shortest = d := by rw [shortest, hSearch, Option.getD_some]
      obtain ⟨places, hMem, hFound, hFirst⟩ :=
        first_of_findSome? (List.pairwise_lt_range' 1) hSearch
      have hRange := List.mem_range'_1.1 hMem
      rw [hShortest, places_of_closest? hFound]
      refine ⟨hRange.1, fun e hSome hRead => ?_⟩
      obtain ⟨f, hFound', hCloser⟩ := closest?_spec hFinite hRead
      constructor
      · by_cases hFew : e.places ≤ 1074
        · have hOther := hFirst e.places (List.mem_range'_1.2 (by omega)) (by simp [hFound'])
          omega
        · omega
      · intro hSame
        rw [hSame, hFound] at hFound'
        cases hFound'
        exact hCloser

/-! ## Whole numbers -/

/-- What is kept of a decimal that is read as a finite double. -/
theorem exists_rounded_of_nearest {x : Binary64} (hFinite : x.isFinite = true) {d : Decimal}
    (hNearest : nearest d = x.abs) :
    ∃ dropped kept, Rounded (d.value * one) dropped kept ∧ x.magnitude = kept * 2 ^ dropped := by
  obtain ⟨dropped, kept, hRounded, hBits⟩ := exists_rounded_nearest d
  have hBound := (isFinite_iff _).1 hFinite
  rw [hNearest] at hBits
  have hFields : x.abs.bits.toNat = dropped * 2 ^ 52 + kept := by omega
  exact ⟨dropped, kept, hRounded, magnitude_of_bits hFields hRounded.kept_le hRounded.le_kept⟩

/-- **Whole numbers are read as whole numbers**, of whatever size they are. -/
theorem isWhole_of_nearest {x : Binary64} (hFinite : x.isFinite = true) {d : Decimal}
    (hNearest : nearest d = x.abs) {n : Nat} (hValue : d.value = n) : x.isWhole = true := by
  obtain ⟨dropped, kept, hRounded, hMagnitude⟩ := exists_rounded_of_nearest hFinite hNearest
  obtain ⟨places, -, hOne⟩ := exists_one_eq
  refine decide_eq_true (Nat.mod_eq_zero_of_dvd ?_)
  rw [hMagnitude, hOne]
  by_cases hSmall : dropped ≤ places
  · -- The number is one on the scale of what is kept, so nothing is lost.
    have hPower : one = 2 ^ (places - dropped) * 2 ^ dropped := by
      rw [← Nat.pow_add, Nat.sub_add_cancel hSmall, hOne]
    have hScale : (0 : ℚ) < 2 ^ dropped := by positivity
    have hQuotient : d.value * one / 2 ^ dropped = (n * 2 ^ (places - dropped) : ℕ) := by
      rw [hValue, hPower]
      push_cast
      rw [← mul_assoc, mul_div_cancel_right₀ _ hScale.ne']
    have hKept : kept = n * 2 ^ (places - dropped) := by
      have hNear := hRounded.near
      rw [hQuotient] at hNear
      have hCloser := (nearest_whole_number hNear (n * 2 ^ (places - dropped))).1
      rw [sub_self, abs_zero] at hCloser
      exact Nat.cast_inj.1 (sub_eq_zero.1 (abs_nonpos_iff.1 hCloser))
    rw [hKept, Nat.mul_assoc, ← Nat.pow_add, Nat.sub_add_cancel hSmall]
    exact Nat.dvd_mul_left _ _
  · exact Dvd.dvd.mul_left (Nat.pow_dvd_pow 2 (Nat.le_of_not_le hSmall)) kept

section Fractional

variable {x : Binary64} (hFinite : x.isFinite = true) (hWhole : x.isWhole = false)
include hFinite hWhole

theorem value_ne_of_nearest {d : Decimal} (hNearest : nearest d = x.abs) (n : Nat) :
    d.value ≠ n := by
  intro hValue
  rw [isWhole_of_nearest hFinite hNearest hValue] at hWhole
  cases hWhole

theorem places_pos_of_nearest {d : Decimal} (hNearest : nearest d = x.abs) : 0 < d.places := by
  by_contra hNone
  refine value_ne_of_nearest hFinite hWhole hNearest d.digits ?_
  rw [Decimal.value, show d.places = 0 by omega, pow_zero, div_one]

theorem digits_ne_zero_of_nearest {d : Decimal} (hNearest : nearest d = x.abs) :
    d.digits ≠ 0 := by
  intro hNone
  refine value_ne_of_nearest hFinite hWhole hNearest 0 ?_
  rw [Decimal.value, hNone, Nat.cast_zero, zero_div]

/-- On the grid of the shortest decimal, a multiple of ten is not read back. -/
theorem not_nearest_ten_mul (m : Nat) : nearest ⟨10 * m, x.shortest.places⟩ ≠ x.abs := by
  intro hNearest
  obtain ⟨hSome, hLeast⟩ := shortest_spec hFinite
  have hValue : (Decimal.mk (10 * m) x.shortest.places).value =
      (Decimal.mk m (x.shortest.places - 1)).value := by
    rw [← Decimal.value_mul_tenPower m 1, Nat.sub_add_cancel hSome, Nat.pow_one, Nat.mul_comm]
  have hCoarser : nearest ⟨m, x.shortest.places - 1⟩ = x.abs := by
    rw [nearest_eq_iff, ← hValue]
    exact nearest_eq_iff.1 hNearest
  have hPlaces : 0 < x.shortest.places - 1 := places_pos_of_nearest hFinite hWhole hCoarser
  have hLess := (hLeast _ hPlaces (decide_eq_true hCoarser)).1
  simp only at hLess
  omega

end Fractional

/-! ## Digits -/

/-- How far a decimal is from the double that it is read as, in units: one half of a step, where
steps are longer than one unit only for numbers that are much longer. -/
theorem exists_step_of_nearest {x : Binary64} (hFinite : x.isFinite = true) {d : Decimal}
    (hNearest : nearest d = x.abs) :
    ∃ step : ℚ, 1 ≤ step ∧ |x.magnitude - d.value * one| ≤ step / 2 ∧
      (step = 1 ∨ 2 ^ 52 * step ≤ d.value * one) := by
  obtain ⟨dropped, kept, hRounded, hMagnitude⟩ := exists_rounded_of_nearest hFinite hNearest
  have hScale : (0 : ℚ) < 2 ^ dropped := by positivity
  refine ⟨2 ^ dropped, one_le_pow₀ one_le_two, ?_, ?_⟩
  · have hUnits : (x.magnitude : ℚ) - d.value * one =
        (kept - d.value * one / 2 ^ dropped) * 2 ^ dropped := by
      rw [hMagnitude, sub_mul, div_mul_cancel₀ _ hScale.ne']
      push_cast
      rfl
    rw [hUnits, abs_mul, abs_of_pos hScale]
    linarith [mul_le_mul_of_nonneg_right hRounded.near hScale.le]
  · rcases hRounded.full with hNone | hFull
    · left
      rw [hNone, pow_zero]
    · right
      exact (le_div_iff₀ hScale).1 hFull

/-- One power of ten is a little more than two units. -/
theorem exists_tenPower_near_units :
    ∃ places, 2 * 10 ^ places < one ∧ 10 * one < 21 * 10 ^ places := by
  refine ⟨323, ?_⟩
  unfold one
  decide +kernel

/-- A power of ten of a few units is that one. -/
theorem units_of_tenPower {places : Nat} {units : ℚ} (hUnits : (one : ℚ) / 10 ^ places = units)
    (hMany : 1 / 2 ≤ units) (hFew : units ≤ 10) : 2 < units ∧ 10 * units < 21 := by
  obtain ⟨power, hLower, hUpper⟩ := exists_tenPower_near_units
  have hScale : (0 : ℚ) < 10 ^ places := by positivity
  have hLower' : (2 : ℚ) * 10 ^ power < one := by exact_mod_cast hLower
  have hUpper' : (10 : ℚ) * one < 21 * 10 ^ power := by exact_mod_cast hUpper
  have hTotal : (one : ℚ) = units * 10 ^ places := by
    rw [← hUnits, div_mul_cancel₀ _ hScale.ne']
  have hStep {p q : Nat} (hLess : p < q) : (10 : ℚ) ^ p * 10 ≤ 10 ^ q := by
    rw [← pow_succ]
    exact pow_le_pow_right₀ (by norm_num) hLess
  have hSame : places = power := by
    rcases Nat.lt_trichotomy places power with hLess | hSame | hMore
    · have hAtMost := mul_le_mul_of_nonneg_right hFew hScale.le
      linarith [hStep hLess]
    · exact hSame
    · have hAtLeast := mul_le_mul_of_nonneg_right hMany hScale.le
      linarith [hStep hMore]
  rw [← hSame, hTotal] at hLower' hUpper'
  rw [← mul_assoc] at hUpper'
  exact ⟨lt_of_mul_lt_mul_right hLower' hScale.le, lt_of_mul_lt_mul_right hUpper' hScale.le⟩

/-- Where a power of ten and nine tenths of it are read as the same double, the power of ten is a
few units, and the double is within half a unit of it. -/
theorem near_units_of_nearest_tenths {x : Binary64} (hFinite : x.isFinite = true) {places : Nat}
    (hTen : nearest ⟨1, places⟩ = x.abs) (hNine : nearest ⟨9, places + 1⟩ = x.abs) {units : ℚ}
    (hUnits : (one : ℚ) / 10 ^ places = units) :
    units ≤ 10 ∧ |x.magnitude - units| ≤ 1 / 2 := by
  obtain ⟨step, hOne, hNear, hStep⟩ := exists_step_of_nearest hFinite hTen
  obtain ⟨step', -, hNear', hStep'⟩ := exists_step_of_nearest hFinite hNine
  have hTenUnits : (Decimal.mk 1 places).value * one = units := by
    rw [Decimal.value, ← hUnits]
    push_cast
    ring
  have hNineUnits : (Decimal.mk 9 (places + 1)).value * one = 9 / 10 * units := by
    rw [Decimal.value, ← hUnits, pow_succ]
    push_cast
    ring
  have hPositive : 0 < units := by
    rw [← hUnits]
    exact div_pos cast_one_pos (by positivity)
  rw [hTenUnits] at hNear hStep
  rw [hNineUnits] at hNear' hStep'
  have hBounds := abs_le.1 hNear
  have hBounds' := abs_le.1 hNear'
  have hFew : units ≤ 10 := by
    rcases hStep with rfl | hLong
    · rcases hStep' with rfl | hLong'
      · linarith
      · linarith
    · rcases hStep' with rfl | hLong'
      · linarith
      · linarith
  have hShort : step = 1 := by
    refine hStep.resolve_right fun hLong => ?_
    linarith
  rw [hShort] at hNear
  exact ⟨hFew, hNear⟩

/-- Then the double is two units, and is closer to the power of ten. -/
theorem le_value_of_nearest_tenths {x : Binary64} (hFinite : x.isFinite = true)
    (hSome : x.magnitude ≠ 0) {places : Nat} (hTen : nearest ⟨1, places⟩ = x.abs)
    (hNine : nearest ⟨9, places + 1⟩ = x.abs) : 19 / 20 / 10 ^ places ≤ x.abs.value := by
  generalize hUnits : (one : ℚ) / 10 ^ places = units
  obtain ⟨hFew, hNear⟩ := near_units_of_nearest_tenths hFinite hTen hNine hUnits
  have hBounds := abs_le.1 hNear
  have hMagnitude : (1 : ℚ) ≤ x.magnitude := by exact_mod_cast Nat.pos_of_ne_zero hSome
  obtain ⟨hAbove, hBelow⟩ := units_of_tenPower hUnits (by linarith) hFew
  have hTwo : (2 : ℚ) ≤ x.magnitude := by
    have hMore : ((1 : ℕ) : ℚ) < x.magnitude := by
      push_cast
      linarith
    exact_mod_cast Nat.cast_lt.1 hMore
  have hScaled : (19 / 20 : ℚ) / 10 ^ places = 19 / 20 * units / one := by
    have hUnit := cast_one_pos
    rw [← hUnits]
    field_simp
  rw [hScaled, value_abs, abs_value]
  exact div_le_div_of_nonneg_right (by linarith) cast_one_pos.le

/-- So no decimal of one digit on a finer grid is closer. -/
theorem abs_sub_le_of_nearest_tenths {x : Binary64} (hFinite : x.isFinite = true)
    (hSome : x.magnitude ≠ 0) {places : Nat} (hTen : nearest ⟨1, places⟩ = x.abs) {d : Decimal}
    (hNearest : nearest d = x.abs) (hDigit : d.digits < 10) (hFiner : places + 1 ≤ d.places) :
    |(Decimal.mk 1 places).value - x.abs.value| ≤ |d.value - x.abs.value| := by
  have hTenth : (Decimal.mk 9 (places + 1)).value = 9 / 10 / 10 ^ places := by
    rw [Decimal.value, pow_succ, div_div, mul_comm (10 : ℚ)]
    rfl
  have hPower : (Decimal.mk 1 places).value = 1 / 10 ^ places := by
    rw [Decimal.value, Nat.cast_one]
  have hStep : (0 : ℚ) < 1 / 10 ^ places := by positivity
  have hAbove : d.value ≤ (Decimal.mk 9 (places + 1)).value :=
    div_le_div₀ (by positivity) (Nat.cast_le.2 (Nat.le_of_lt_succ hDigit)) (by positivity)
      (pow_le_pow_right₀ (by norm_num) hFiner)
  have hBelow : (Decimal.mk 9 (places + 1)).value ≤ (Decimal.mk 1 places).value := by
    rw [hTenth, hPower]
    exact div_le_div_of_nonneg_right (by norm_num) (by positivity)
  have hNine : nearest ⟨9, places + 1⟩ = x.abs :=
    nearest_eq_iff.2 ((nearest_eq_iff.1 hNearest).between (isFinite_abs hFinite)
      (nearest_eq_iff.1 hTen) hAbove hBelow)
  have hValue := le_value_of_nearest_tenths hFinite hSome hTen hNine
  rw [div_eq_mul_one_div] at hTenth hValue
  rw [abs_sub_le_iff_product.1]
  refine mul_nonneg_of_nonpos_of_nonpos (by linarith) (by linarith)

/-- **Fewest places are fewest digits**: a decimal that is read back has no fewer digits than the
shortest one, and if it has no more, it is no closer. -/
theorem shortest_digits {x : Binary64} (hFinite : x.isFinite = true) (hWhole : x.isWhole = false)
    {d : Decimal} (hNearest : nearest d = x.abs) {k : Nat} (hLower : 10 ^ k ≤ x.shortest.digits)
    (hUpper : d.digits < 10 ^ (k + 1)) :
    10 ^ k ≤ d.digits ∧
      |x.shortest.value - x.abs.value| ≤ |d.value - x.abs.value| := by
  obtain ⟨hPositive, hLeast⟩ := shortest_spec hFinite
  have hPlaces : 0 < d.places := places_pos_of_nearest hFinite hWhole hNearest
  obtain ⟨hFewest, hClosest⟩ := hLeast d hPlaces (decide_eq_true hNearest)
  have hShortest := nearest_eq_iff.1 (nearest_shortest hFinite)
  have hRounds := nearest_eq_iff.1 hNearest
  have hSome : x.magnitude ≠ 0 := by
    intro hZero
    rw [isWhole, hZero, Nat.zero_mod] at hWhole
    cases hWhole
  by_cases hShort : d.digits < 10 ^ k ∨ x.shortest.places < d.places
  · have hPower : d.value ≤ (Decimal.mk (10 ^ k) x.shortest.places).value := by
      rw [Decimal.value, Decimal.value, Nat.cast_pow, Nat.cast_ofNat]
      by_cases hFewer : d.digits < 10 ^ k
      · have hDigits : (d.digits : ℚ) ≤ 10 ^ k := by exact_mod_cast hFewer.le
        exact div_le_div₀ (by positivity) hDigits (by positivity)
          (pow_le_pow_right₀ (by norm_num) hFewest)
      · have hDigits : (d.digits : ℚ) ≤ 10 ^ (k + 1) := by exact_mod_cast hUpper.le
        have hFiner : x.shortest.places + 1 ≤ d.places := hShort.resolve_left hFewer
        calc (d.digits : ℚ) / 10 ^ d.places
            ≤ 10 ^ (k + 1) / 10 ^ (x.shortest.places + 1) :=
              div_le_div₀ (by positivity) hDigits (by positivity)
                (pow_le_pow_right₀ (by norm_num) hFiner)
          _ = 10 ^ k / 10 ^ x.shortest.places := by
              rw [pow_succ, pow_succ, mul_div_mul_right _ _ (by norm_num)]
    have hPowerBelow : (Decimal.mk (10 ^ k) x.shortest.places).value ≤ x.shortest.value :=
      div_le_div_of_nonneg_right (Nat.cast_le.2 hLower) (by positivity)
    have hPowerNearest : nearest ⟨10 ^ k, x.shortest.places⟩ = x.abs :=
      nearest_eq_iff.2 (hRounds.between (isFinite_abs hFinite) hShortest hPower hPowerBelow)
    have hOne : k = 0 := by
      by_contra hMore
      obtain ⟨j, rfl⟩ := Nat.exists_eq_succ_of_ne_zero hMore
      rw [Nat.pow_succ'] at hPowerNearest
      exact not_nearest_ten_mul hFinite hWhole _ hPowerNearest
    rw [hOne, Nat.pow_zero] at hPowerNearest hShort ⊢
    rw [hOne, Nat.zero_add, Nat.pow_one] at hUpper
    have hDigit : 1 ≤ d.digits :=
      Nat.pos_of_ne_zero (digits_ne_zero_of_nearest hFinite hWhole hNearest)
    have hFiner : x.shortest.places + 1 ≤ d.places := hShort.resolve_left (by omega)
    refine ⟨hDigit, ?_⟩
    have hOnGrid :=
      (hLeast ⟨1, x.shortest.places⟩ hPositive (decide_eq_true hPowerNearest)).2 rfl
    exact hOnGrid.trans
      (abs_sub_le_of_nearest_tenths hFinite hSome hPowerNearest hNearest hUpper hFiner)
  · have hSame : d.places = x.shortest.places := by omega
    exact ⟨by omega, hClosest hSame⟩

end Binary64

end LoxLexer
