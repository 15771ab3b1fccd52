import LoxLexer.Proofs.Reading

/-!
# The two cursors of a reader agree

A run goes through sound states only (`Reader.exists_sound`), and in a sound state the cursors are in
one place. So they agree, and the branches for the case that they do not are never taken.

Each step lowers the potential of a reader, three times the characters that are left and the rank of
the phase (`Reader.Sound.potential_step_lt`). So a run ends (`Reader.exists_finished`). Between two
rounds the rank is always the same, hence there are fewer characters left before a later round, and
the range ends further on (`Reader.stop_lt`). There is one round for every segment, and when the
reader has finished, what it has written down for all segments is the scan (`Reader.Sound.result`).
-/

namespace LoxLexer

namespace Reader

variable {source lexeme rest : List Char} {done : List Segment} {r : Reader}

/-! ## Runs -/

theorem step_of_finished (source : List Char) (hPhase : r.phase = .finished) :
    r.step source = r := by
  simp only [step, hPhase]

/-- **All states of a run are sound.** -/
theorem exists_sound (source : List Char) (n : Nat) : ∃ rest, (after source n).Sound source rest := by
  induction n with
  | zero => exact ⟨source, sound_ofSource source⟩
  | succ n ih =>
      obtain ⟨rest, hSound⟩ := ih
      by_cases hPhase : (after source n).phase = .finished
      · rw [after, step_of_finished source hPhase]
        exact ⟨rest, hSound⟩
      · cases hSound.steps hPhase with
        | turns hNext _ => exact ⟨rest, hNext⟩
        | takes hNext => exact ⟨_, hNext⟩

/-- How many steps may follow: three for each character that is left, and the rank. -/
def potential (r : Reader) : Nat :=
  3 * r.cursor.characters.length + r.phase.rank

namespace Sound

theorem exists_at (hSound : r.Sound source rest) :
    ∃ before lexeme, r.cursor.At source before lexeme rest := by
  cases hSound with
  | between hBetween =>
      obtain ⟨before, lexeme, -, hAt⟩ := hBetween.position
      exact ⟨before, lexeme, hAt⟩
  | within _ _ hWithin => exact ⟨_, _, hWithin.position⟩
  | finished hBetween =>
      obtain ⟨before, lexeme, -, hAt⟩ := hBetween.position
      exact ⟨before, lexeme, hAt⟩

theorem length_characters (hSound : r.Sound source rest) :
    r.cursor.characters.length = rest.length := by
  obtain ⟨before, lexeme, hAt⟩ := hSound.exists_at
  rw [hAt.characters_eq, Text.length_indexed]

theorem mishaps_eq (hSound : r.Sound source rest) : r.mishaps = [] := by
  cases hSound with
  | between hBetween => exact hBetween.recorded.mishaps_eq
  | within _ _ hWithin => exact hWithin.recorded.mishaps_eq
  | finished hBetween => exact hBetween.recorded.mishaps_eq

theorem phase_ne_failed (hSound : r.Sound source rest) : r.phase ≠ .failed := by
  intro hFailed
  cases hSound with
  | between hBetween => cases hBetween.phase_eq.symm.trans hFailed
  | within hPhase hHolds _ => exact hHolds.ne_failed (hPhase.symm.trans hFailed)
  | finished _ => cases hFailed

/-- A round reads a segment, and a segment has a character. -/
theorem rounds_le (hSound : r.Sound source rest) : r.rounds ≤ source.length := by
  have hSource := Segment.length_segments_le source
  cases hSound with
  | between hBetween =>
      rw [hBetween.segments_eq, List.length_append] at hSource
      rw [hBetween.rounds_eq]
      omega
  | @within phase done lexeme _ _ _ hHolds hWithin =>
      obtain ⟨c, cs, hText⟩ := List.exists_cons_of_ne_nil hHolds.append_ne_nil
      rw [hWithin.segments_eq, hText, Segment.segments_cons, List.length_append,
        List.length_cons] at hSource
      rw [hWithin.rounds_eq]
      omega
  | @finished done r hBetween =>
      rw [hBetween.segments_eq, List.length_append] at hSource
      show r.rounds ≤ _
      rw [hBetween.rounds_eq]
      omega

theorem potential_step_lt (hSound : r.Sound source rest) (hRun : r.phase ≠ .finished) :
    (r.step source).potential < r.potential := by
  have hLength := hSound.length_characters
  cases hSound.steps hRun with
  | turns hNext hRank =>
      rw [potential, potential, hLength, hNext.length_characters]
      omega
  | takes hNext =>
      have hRank := Phase.rank_pos hRun hSound.phase_ne_failed
      have hRank' := Phase.rank_le (r.step source).phase
      rw [List.length_cons] at hLength
      rw [potential, potential, hLength, hNext.length_characters]
      omega

end Sound

/-- Every step of a run that has not ended has lowered the potential. -/
theorem potential_add_le {m k : Nat} (hRun : (after source (m + k)).phase ≠ .finished) :
    (after source (m + k)).potential + k ≤ (after source m).potential := by
  induction k with
  | zero => exact Nat.le_refl _
  | succ k ih =>
      have hRunBefore : (after source (m + k)).phase ≠ .finished := by
        intro hPhase
        have hSame : after source (m + (k + 1)) = after source (m + k) :=
          step_of_finished source hPhase
        rw [hSame] at hRun
        exact hRun hPhase
      obtain ⟨rest, hSound⟩ := exists_sound source (m + k)
      have hStep : (after source (m + (k + 1))).potential < (after source (m + k)).potential :=
        hSound.potential_step_lt hRunBefore
      have hBefore := ih hRunBefore
      omega

/-- **A run comes to an end.** -/
theorem exists_finished (source : List Char) : ∃ n, (after source n).phase = .finished := by
  by_cases hEnd : (after source (0 + ((after source 0).potential + 1))).phase = .finished
  · exact ⟨_, hEnd⟩
  · have hPotential := potential_add_le hEnd
    omega

/-- **Each round moves the range on**: it ends further on before a later round than before an
earlier one. -/
theorem stop_lt {m n : Nat} (hOrder : m < n) (hFirst : (after source m).phase = .between)
    (hSecond : (after source n).phase = .between) :
    (after source m).cursor.stop < (after source n).cursor.stop := by
  obtain ⟨k, rfl⟩ := Nat.exists_eq_add_of_le (Nat.le_of_lt hOrder)
  have hRun : (after source (m + k)).phase ≠ .finished := by
    rw [hSecond]
    decide
  have hPotential := potential_add_le hRun
  obtain ⟨rest, hSound⟩ := exists_sound source m
  obtain ⟨rest', hSound'⟩ := exists_sound source (m + k)
  obtain ⟨before, lexeme, hAt⟩ := hSound.exists_at
  obtain ⟨before', lexeme', hAt'⟩ := hSound'.exists_at
  rw [potential, potential, hFirst, hSecond, hSound.length_characters,
    hSound'.length_characters] at hPotential
  exact hAt.stop_lt hAt' (by omega)

/-- **What a finished reader has found is the scan**, in as many rounds as there are segments. -/
theorem Sound.result (hSound : r.Sound source rest) (hPhase : r.phase = .finished) :
    (⟨r.tokens, r.errors⟩ : Scan) = Scan.ofSegments .origin (Segment.segments source) ∧
      r.tokens.length + r.errors.length ≤ r.rounds + 1 := by
  cases hSound with
  | between hBetween => cases hBetween.phase_eq.symm.trans hPhase
  | within hRound hHolds _ => exact absurd (hRound.symm.trans hPhase) hHolds.ne_finished
  | @finished done r hBetween =>
      have hSegments : Segment.segments source = done := by
        rw [hBetween.segments_eq, Segment.segments_nil, List.append_nil]
      have hText : done.flatMap Segment.text = source := by
        rw [← hSegments, Segment.flatMap_text_segments]
      have hEnd : Token.endOfFile ⟨Text.byteLength source, r.line⟩ =
          Token.endOfFile (Position.origin.advance (done.flatMap Segment.text)) := by
        rw [origin_advance, hBetween.line_eq, hText]
      have hFound := Placed.length_filterMap_le .origin done
      rw [← hBetween.recorded.tokens_eq, ← hBetween.recorded.errors_eq] at hFound
      constructor
      · rw [hSegments, Scan.ofSegments, ← hBetween.recorded.tokens_eq,
          ← hBetween.recorded.errors_eq, ← hEnd]
        rfl
      · show (r.tokens ++ [_]).length + r.errors.length ≤ r.rounds + 1
        rw [List.length_append, List.length_singleton, hBetween.rounds_eq]
        omega

end Reader

/-- **The two cursors of a reader agree in every state of a run**, so that it takes none of the
branches that are there for the case that they do not. From one round to a later one the range has
moved on, there are at most as many rounds as characters, and the run ends. What it has found then
is the scan of the source, with at most one token or error for each round, and the end. -/
theorem cursors_agree (source : String) :
    (∀ n, (Reader.after source.toList n).cursor.Agrees source.toList ∧
      (Reader.after source.toList n).mishaps = [] ∧
      (Reader.after source.toList n).phase ≠ .failed ∧
      (Reader.after source.toList n).rounds ≤ source.toList.length) ∧
    (∀ m n, m < n → (Reader.after source.toList m).phase = .between →
      (Reader.after source.toList n).phase = .between →
      (Reader.after source.toList m).cursor.stop < (Reader.after source.toList n).cursor.stop) ∧
    ∃ n, (Reader.after source.toList n).phase = .finished ∧
      (Reader.after source.toList n).tokens.length + (Reader.after source.toList n).errors.length ≤
        (Reader.after source.toList n).rounds + 1 ∧
      scan source =
        ⟨(Reader.after source.toList n).tokens, (Reader.after source.toList n).errors⟩ := by
  refine ⟨?_, ?_, ?_⟩
  · intro n
    obtain ⟨rest, hSound⟩ := Reader.exists_sound source.toList n
    obtain ⟨before, lexeme, hAt⟩ := hSound.exists_at
    exact ⟨hAt.agrees, hSound.mishaps_eq, hSound.phase_ne_failed, hSound.rounds_le⟩
  · intro m n hOrder hFirst hSecond
    exact Reader.stop_lt hOrder hFirst hSecond
  · obtain ⟨n, hFinished⟩ := Reader.exists_finished source.toList
    obtain ⟨rest, hSound⟩ := Reader.exists_sound source.toList n
    obtain ⟨hScan, hCount⟩ := hSound.result hFinished
    exact ⟨n, hFinished, hCount, by rw [scan_eq_ofSegments, hScan]⟩

/-- A letter of two bytes that begins no lexeme, and a digit: the first round takes two steps and
moves the range by two bytes, and in the second one nothing is left behind the digit. -/
theorem cursors_agree_letter :
    (0 < 2 ∧ (Reader.after "é1".toList 0).phase = .between ∧
      (Reader.after "é1".toList 2).phase = .between ∧
      (Reader.after "é1".toList 0).cursor.stop < (Reader.after "é1".toList 2).cursor.stop) ∧
    (Reader.after "é1".toList 2).cursor = ⟨[(2, '1')], 0, 2⟩ ∧
    (⟨[], 2, 3⟩ : Cursor).Agrees "é1".toList := by
  obtain ⟨hAgree, hMoves, -⟩ := cursors_agree "é1"
  have hFirst : (Reader.after "é1".toList 0).phase = .between := by decide +kernel
  have hSecond : (Reader.after "é1".toList 2).phase = .between := by decide +kernel
  have hDigit : (Reader.after "é1".toList 4).cursor = ⟨[], 2, 3⟩ := by decide +kernel
  refine ⟨⟨by decide, hFirst, hSecond, hMoves 0 2 (by decide) hFirst hSecond⟩, by decide +kernel, ?_⟩
  rw [← hDigit]
  exact (hAgree 4).1

end LoxLexer
