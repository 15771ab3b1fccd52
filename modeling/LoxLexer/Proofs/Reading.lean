import LoxLexer.Proofs.Cursors

/-!
# What a reader does in a step

A reader reads one segment of its source in every round. Between two rounds it has written down what
the segments behind it are placed as, and the segments of the source go on with those of what is
ahead (`Reader.Between`). In a round it has moreover taken the first characters of the next segment
(`Reader.Within`), and its phase says which characters these may be (`Phase.Holds`). A round ends
where that segment is complete, so it adds what the segment is placed as (`Reader.Within.complete`).

A reader in such a state is sound. For each phase there is one lemma about a step from it: the reader
is sound again, and either it has taken a character or its phase has a lower rank than before
(`Reader.Sound.steps`).
-/

namespace LoxLexer

theorem digits_concat {digits : List Char} {c : Char} (hDigits : ∀ d ∈ digits, Digit d)
    (hDigit : Digit c) : ∀ d ∈ digits ++ [c], Digit d := by
  simpa [or_imp, forall_and] using And.intro hDigits hDigit

/-! ## Phases -/

/-- What the phases of a round have taken, and what they know of the rest. -/
inductive Phase.Holds : Phase → List Char → List Char → Prop where
  | begun {c : Char} {rest : List Char} : Holds .begun [] (c :: rest)
  | operator {c : Char} {alone paired : Kind} {rest : List Char}
      (hKinds : Kind.ofOperator? c = some (alone, paired)) : Holds (.operator alone paired) [c] rest
  | slash {rest : List Char} : Holds .slash ['/'] rest
  | comment {line rest : List Char} (hLine : '\n' ∉ line) :
      Holds .comment ('/' :: '/' :: line) rest
  | string {body rest : List Char} (hOpen : '"' ∉ body) : Holds .string ('"' :: body) rest
  | whole {digits rest : List Char} (hSome : digits ≠ []) (hDigits : ∀ c ∈ digits, Digit c) :
      Holds .whole digits rest
  | point {whole rest : List Char} {d : Char} (hSome : whole ≠ []) (hDigits : ∀ c ∈ whole, Digit c)
      (hDigit : Digit d) : Holds .fraction (whole ++ ['.']) (d :: rest)
  | fraction {whole fraction rest : List Char} (hSome : whole ≠ [])
      (hDigits : ∀ c ∈ whole, Digit c) (hSomeAfter : fraction ≠ [])
      (hDigitsAfter : ∀ c ∈ fraction, Digit c) : Holds .fraction (whole ++ '.' :: fraction) rest
  | word {c : Char} {cs rest : List Char} (hFirst : Letter c) (hRest : ∀ d ∈ cs, WordCharacter d) :
      Holds .word (c :: cs) rest

namespace Phase.Holds

variable {phase : Phase} {lexeme rest : List Char}

theorem append_ne_nil (hHolds : phase.Holds lexeme rest) : lexeme ++ rest ≠ [] := by
  cases hHolds with
  | whole hSome _ => exact List.append_ne_nil_of_left_ne_nil hSome rest
  | _ => simp

theorem ne_finished (hHolds : phase.Holds lexeme rest) : phase ≠ .finished := by
  cases hHolds
  all_goals exact nofun

theorem ne_failed (hHolds : phase.Holds lexeme rest) : phase ≠ .failed := by
  cases hHolds
  all_goals exact nofun

end Phase.Holds

/-- How many steps a phase may be followed by before the next character is taken, at most. -/
def Phase.rank : Phase → Nat
  | finished => 0
  | failed => 0
  | begun => 1
  | between => 2
  | _ => 3

theorem Phase.rank_le (phase : Phase) : phase.rank ≤ 3 := by
  unfold rank
  split
  all_goals decide

theorem Phase.rank_pos {phase : Phase} (hFinished : phase ≠ .finished) (hFailed : phase ≠ .failed) :
    0 < phase.rank := by
  cases phase
  case finished => exact absurd rfl hFinished
  case failed => exact absurd rfl hFailed
  all_goals exact Nat.succ_pos _

namespace Reader

/-! ## The invariant -/

/-- A reader that has written down what some segments are placed as, and no mishap. -/
structure Recorded (done : List Segment) (r : Reader) : Prop where
  tokens_eq : r.tokens = (Placed.ofSegments .origin done).filterMap Placed.token?
  errors_eq : r.errors = (Placed.ofSegments .origin done).filterMap Placed.error?
  mishaps_eq : r.mishaps = []

theorem Recorded.congr {done : List Segment} {r r' : Reader} (hRecorded : r.Recorded done)
    (hTokens : r'.tokens = r.tokens) (hErrors : r'.errors = r.errors)
    (hMishaps : r'.mishaps = r.mishaps) : r'.Recorded done :=
  ⟨hTokens.trans hRecorded.tokens_eq, hErrors.trans hRecorded.errors_eq,
    hMishaps.trans hRecorded.mishaps_eq⟩

/-- A reader between two rounds, with `done` behind it and `rest` ahead. -/
structure Between (source : List Char) (done : List Segment) (rest : List Char) (r : Reader) :
    Prop where
  phase_eq : r.phase = .between
  position : ∃ before lexeme, before ++ lexeme = done.flatMap Segment.text ∧
    r.cursor.At source before lexeme rest
  segments_eq : Segment.segments source = done ++ Segment.segments rest
  line_eq : r.line = lineAfter (done.flatMap Segment.text)
  recorded : r.Recorded done
  rounds_eq : r.rounds = done.length

/-- A reader in a round, with `done` behind it, `lexeme` taken and `rest` ahead. -/
structure Within (source : List Char) (done : List Segment) (lexeme rest : List Char)
    (r : Reader) : Prop where
  position : r.cursor.At source (done.flatMap Segment.text) lexeme rest
  segments_eq : Segment.segments source = done ++ Segment.segments (lexeme ++ rest)
  startLine_eq : r.startLine = lineAfter (done.flatMap Segment.text)
  line_eq : r.line = lineAfter (done.flatMap Segment.text ++ lexeme)
  recorded : r.Recorded done
  rounds_eq : r.rounds = done.length + 1

/-- The states of a reader that has `rest` ahead. -/
inductive Sound (source : List Char) : List Char → Reader → Prop where
  | between {done : List Segment} {rest : List Char} {r : Reader}
      (hBetween : r.Between source done rest) : Sound source rest r
  | within {phase : Phase} {done : List Segment} {lexeme rest : List Char} {r : Reader}
      (hPhase : r.phase = phase) (hHolds : phase.Holds lexeme rest)
      (hWithin : r.Within source done lexeme rest) : Sound source rest r
  | finished {done : List Segment} {r : Reader} (hBetween : r.Between source done []) :
      Sound source [] (r.finish source)

/-- What a step leads to from a state with `rest` ahead: a state with the same rest and a phase of
lower rank than `rank`, or a state behind the next character. -/
inductive Steps (source : List Char) (rank : Nat) : List Char → Reader → Prop where
  | turns {rest : List Char} {r : Reader} (hSound : r.Sound source rest)
      (hRank : r.phase.rank < rank) : Steps source rank rest r
  | takes {c : Char} {rest : List Char} {r : Reader} (hSound : r.Sound source rest) :
      Steps source rank (c :: rest) r

variable {source lexeme rest : List Char} {done : List Segment} {r : Reader}

theorem Between.steps (hBetween : r.Between source done rest) : r.Steps source 3 rest := by
  refine .turns (.between hBetween) ?_
  rw [hBetween.phase_eq]
  decide

theorem Between.takes {rank : Nat} {c : Char} (hBetween : r.Between source done rest) :
    r.Steps source rank (c :: rest) :=
  .takes (.between hBetween)

theorem sound_ofSource (source : List Char) : (ofSource source).Sound source source := by
  have hBetween : (ofSource source).Between source [] source :=
    ⟨rfl, ⟨[], [], rfl, rfl, rfl, rfl, rfl⟩, rfl, rfl, ⟨rfl, rfl, rfl⟩, rfl⟩
  exact .between hBetween

namespace Within

/-! ## Taking characters -/

theorem enter (hWithin : r.Within source done lexeme rest) (phase : Phase) :
    (r.enter phase).Within source done lexeme rest :=
  ⟨hWithin.position, hWithin.segments_eq, hWithin.startLine_eq, hWithin.line_eq,
    hWithin.recorded.congr rfl rfl rfl, hWithin.rounds_eq⟩

/-- The reader behind the next character, once it has counted the line. -/
theorem take {c : Char} (hWithin : r.Within source done lexeme (c :: rest)) (line : Nat)
    (hLine : line = r.line + [c].count '\n') :
    Within source done (lexeme ++ [c]) rest { r with cursor := r.cursor.taken c, line } where
  position := hWithin.position.taken
  segments_eq := by
    rw [hWithin.segments_eq, List.append_assoc]
    rfl
  startLine_eq := hWithin.startLine_eq
  line_eq := by
    show line = _
    rw [hLine, hWithin.line_eq, ← List.append_assoc]
    simp only [lineAfter, List.count_append, Nat.add_assoc]
  recorded := hWithin.recorded.congr rfl rfl rfl
  rounds_eq := hWithin.rounds_eq

theorem take_inside {c : Char} (hWithin : r.Within source done lexeme (c :: rest))
    (hInside : c ≠ '\n') :
    Within source done (lexeme ++ [c]) rest { r with cursor := r.cursor.taken c } :=
  hWithin.take r.line (by simp [hInside])

theorem skip {c : Char} (hWithin : r.Within source done lexeme (c :: rest)) :
    r.skip source = { r with cursor := r.cursor.taken c } := by
  rw [Reader.skip, hWithin.position.advance_cons]
  rfl

/-! ## Ending a round -/

/-- **A round ends with a complete segment**: a reader that has written down what the segment is
placed as is between two rounds. -/
theorem complete {s : Segment} {r' : Reader} (hWithin : r.Within source done s.text rest)
    (hComplete : s.Complete rest) (hPhase : r'.phase = .between) (hCursor : r'.cursor = r.cursor)
    (hLine : r'.line = r.line) (hRounds : r'.rounds = r.rounds) (hMishaps : r'.mishaps = r.mishaps)
    (hTokens : r'.tokens = r.tokens ++ (Placed.token?
      ⟨s, Position.origin.advance (done.flatMap Segment.text)⟩).toList)
    (hErrors : r'.errors = r.errors ++ (Placed.error?
      ⟨s, Position.origin.advance (done.flatMap Segment.text)⟩).toList) :
    r'.Between source (done ++ [s]) rest where
  phase_eq := hPhase
  position := by
    refine ⟨done.flatMap Segment.text, s.text, by simp, ?_⟩
    rw [hCursor]
    exact hWithin.position
  segments_eq := by
    rw [hWithin.segments_eq, Segment.segments_text_append hComplete, List.append_assoc]
    rfl
  line_eq := by
    rw [hLine, hWithin.line_eq]
    simp
  recorded := by
    constructor
    case tokens_eq =>
        rw [hTokens, hWithin.recorded.tokens_eq, Placed.filterMap_ofSegments_concat]
    case errors_eq =>
        rw [hErrors, hWithin.recorded.errors_eq, Placed.filterMap_ofSegments_concat]
    case mishaps_eq => rw [hMishaps, hWithin.recorded.mishaps_eq]
  rounds_eq := by rw [hRounds, hWithin.rounds_eq, List.length_append, List.length_singleton]

/-- A blank or a comment is left without a word. -/
theorem leave {s : Segment} (hWithin : r.Within source done s.text rest)
    (hComplete : s.Complete rest) (hLexeme : s.lexeme? = none) (hFault : s.fault? = none) :
    (r.enter .between).Between source (done ++ [s]) rest := by
  refine hWithin.complete hComplete rfl rfl rfl rfl rfl ?_ ?_
  all_goals
    cases s
    case blank | comment => exact (List.append_nil _).symm
    case lexeme => cases hLexeme
    case unexpected | unterminated => cases hFault

/-- A lexeme is added with the value that it carries. -/
theorem close {kind : Kind} {literal : Option Literal}
    (hWithin : r.Within source done lexeme rest) (hCarries : kind.Carries lexeme literal)
    (hStops : kind.StopsBefore lexeme rest) :
    (r.close source kind literal).Between source (done ++ [.lexeme kind lexeme]) rest := by
  have hComplete : (Segment.lexeme kind lexeme).Complete rest :=
    ⟨.lexeme hCarries.spells, hStops⟩
  have hNote : r.noteMissing .noLexeme (some lexeme) = r := rfl
  have hSegment : r.Within source done (Segment.lexeme kind lexeme).text rest := hWithin
  refine hSegment.complete hComplete rfl ?_ ?_ ?_ ?_ ?_ ?_
  all_goals simp only [Reader.close, Reader.enter, add, hWithin.position.lexeme?, hNote]
  · rw [Placed.token?_lexeme hCarries, hWithin.position.start_eq, hWithin.position.stop_eq,
      hWithin.startLine_eq]
    rfl
  · exact (List.append_nil _).symm

/-- A faulty piece is reported. -/
theorem report {s : Segment} {fault : Fault} (hWithin : r.Within source done s.text rest)
    (hComplete : s.Complete rest) (hFault : s.fault? = some fault) :
    ((r.report fault).enter .between).Between source (done ++ [s]) rest := by
  refine hWithin.complete hComplete rfl rfl rfl rfl rfl ?_ ?_
  · cases s
    case lexeme => cases hFault
    all_goals exact (List.append_nil _).symm
  · rw [Placed.error?_fault hFault, ← hWithin.position.start_eq, ← hWithin.position.stop_eq,
      ← hWithin.line_eq]
    rfl

theorem closeString {body : List Char} (hWithin : r.Within source done ('"' :: body ++ ['"']) rest)
    (hBody : '"' ∉ body) :
    (r.closeString source).Between source (done ++ [.lexeme .string ('"' :: body ++ ['"'])])
      rest := by
  rw [Reader.closeString, hWithin.position.body?]
  exact hWithin.close (.string hBody) trivial

theorem closeNumber (hWithin : r.Within source done lexeme rest) (hNumeral : Numeral lexeme)
    (hStops : Kind.number.StopsBefore lexeme rest) :
    (r.closeNumber source).Between source (done ++ [.lexeme .number lexeme]) rest := by
  rw [Reader.closeNumber, hWithin.position.lexeme?]
  cases hNumeral with
  | integer hSome hDigits =>
      simp only [Option.getD_some, ofNumeral?_integer hSome hDigits]
      exact hWithin.close (.integer hSome hDigits) hStops
  | fractional hSome hDigits hSomeAfter hDigitsAfter =>
      simp only [Option.getD_some,
        ofNumeral?_fractional hSome hDigits hSomeAfter hDigitsAfter]
      exact hWithin.close (.fractional hSome hDigits hSomeAfter hDigitsAfter) hStops

end Within

/-! ## Steps -/

/-- A round begins with nothing taken. -/
theorem Between.begin {c : Char} (hBetween : r.Between source done (c :: rest)) :
    r.begin.Within source done [] (c :: rest) where
  position := by
    obtain ⟨before, lexeme, hText, hAt⟩ := hBetween.position
    constructor
    case text => rw [List.append_nil, ← hText, hAt.text]
    case start_eq =>
        rw [← hText, ← hAt.stop_eq]
        rfl
    case stop_eq =>
        rw [List.append_nil, ← hText, ← hAt.stop_eq]
        rfl
    case characters_eq => exact hAt.characters_eq
  segments_eq := hBetween.segments_eq
  startLine_eq := hBetween.line_eq
  line_eq := by
    rw [List.append_nil]
    exact hBetween.line_eq
  recorded := hBetween.recorded.congr rfl rfl rfl
  rounds_eq := congrArg Nat.succ hBetween.rounds_eq

/-- Before a round, the range tells whether there is another one. -/
theorem Between.step (hBetween : r.Between source done rest) :
    (r.step source).Steps source 2 rest := by
  obtain ⟨before, lexeme, hText, hAt⟩ := hBetween.position
  have hEnd := hAt.isEnd_iff
  cases rest with
  | nil =>
      have hStep : r.step source = r.finish source := by
        simp only [Reader.step, hBetween.phase_eq, hEnd, if_true]
      rw [hStep]
      exact .turns (.finished hBetween) (show Phase.rank .finished < 2 by decide)
  | cons c rest =>
      have hStep : r.step source = r.begin := by
        simp only [Reader.step, hBetween.phase_eq, hEnd, reduceCtorEq, if_false]
      rw [hStep]
      exact .turns (.within rfl .begun hBetween.begin) (show Phase.rank .begun < 2 by decide)

namespace Within

/-- The first character decides what is read, as it does for a cut. -/
theorem dispatch {c : Char} (hWithin : r.Within source done [] (c :: rest)) :
    ({ r with cursor := r.cursor.taken c }.dispatch source c).Steps source 1 (c :: rest) := by
  by_cases hFeed : c = '\n'
  · subst hFeed
    have hTaken := hWithin.take (r.line + 1) rfl
    have hComplete : (Segment.blank '\n').Complete rest := ⟨.blank (by simp), trivial⟩
    exact (hTaken.leave (s := .blank '\n') hComplete rfl rfl).takes
  have hTaken := hWithin.take_inside hFeed
  unfold Reader.dispatch
  split
  case h_1 kind _ hKind =>
      obtain ⟨hText, hStops⟩ := Kind.punctuator_spec hKind
      exact (hTaken.close (.fixed hText) (hStops _ _)).takes
  case h_2 alone paired _ hKinds => exact .takes (.within rfl (.operator hKinds) (hTaken.enter _))
  case h_3 hPunctuator hOperator =>
      split
      case isTrue hSlash =>
          subst hSlash
          exact .takes (.within rfl .slash (hTaken.enter _))
      split
      case isTrue hBlank =>
          have hMem : c ∈ [' ', '\t', '\r', '\n'] := by
            simp only [Bool.or_eq_true, decide_eq_true_eq] at hBlank
            rcases hBlank with (rfl | rfl) | rfl
            all_goals simp
          exact (hTaken.leave (s := .blank c) ⟨.blank hMem, trivial⟩ rfl rfl).takes
      rename_i hSlash hBlank
      split
      case isTrue hQuote =>
          subst hQuote
          exact .takes (.within rfl (.string (List.not_mem_nil)) (hTaken.enter _))
      rename_i hQuote
      split
      case isTrue hDigit =>
          have hDigits : ∀ d ∈ [c], Digit d := by
            simpa using isDigit_eq_true_iff.1 hDigit
          exact .takes (.within rfl (.whole (by simp) hDigits) (hTaken.enter _))
      rename_i hDigit
      split
      case isTrue hLetter =>
          have hFirst := isLetter_eq_true_iff.1 hLetter
          exact .takes (.within rfl (.word hFirst (by simp)) (hTaken.enter _))
      rename_i hLetter
      have hNone : Segment.isBlank c = false := by
        simp only [Bool.or_eq_true, decide_eq_true_eq, not_or] at hBlank
        simp [Segment.isBlank, hBlank, hFeed]
      have hCut : Segment.cut c rest = (.unexpected c, rest) := by
        simp [Segment.cut, hNone, hSlash, hQuote, hDigit, hLetter, hPunctuator, hOperator]
      have hComplete := Segment.complete_cut c rest
      rw [hCut] at hComplete
      exact (hTaken.report (s := .unexpected c) hComplete rfl).takes

theorem step_begun {c : Char} (hPhase : r.phase = .begun)
    (hWithin : r.Within source done [] (c :: rest)) :
    (r.step source).Steps source 1 (c :: rest) := by
  have hStep : r.step source = { r with cursor := r.cursor.taken c }.dispatch source c := by
    simp only [step, hPhase, hWithin.position.advance_cons]
  rw [hStep]
  exact hWithin.dispatch

/-- A test looks at the next character, and what it refuses is left ahead. -/
theorem branch {p : Char → Bool} {taken refused : Reader → Reader}
    (hWithin : r.Within source done lexeme rest)
    (hTaken : ∀ c later, rest = c :: later → p c = true →
      (taken { r with cursor := r.cursor.taken c }).Steps source 3 (c :: later))
    (hRefused : (∀ c ∈ rest.head?, p c = false) → (refused r).Steps source 3 rest) :
    (r.branch source p taken refused).Steps source 3 rest := by
  have hPeek := hWithin.position.peek
  unfold Reader.branch expect
  cases rest with
  | nil =>
      rw [hPeek]
      exact hRefused (by simp)
  | cons c later =>
      rw [hPeek, hWithin.skip]
      by_cases hPass : p c = true
      · rw [List.head?_cons, Option.any_some, if_pos hPass]
        exact hTaken c later rfl hPass
      · rw [List.head?_cons, Option.any_some, if_neg hPass]
        exact hRefused (by simpa using hPass)

theorem step_operator {c : Char} {alone paired : Kind} (hPhase : r.phase = .operator alone paired)
    (hKinds : Kind.ofOperator? c = some (alone, paired))
    (hWithin : r.Within source done [c] rest) : (r.step source).Steps source 3 rest := by
  obtain ⟨⟨hText, hStops⟩, hText', hStops'⟩ := Kind.operator_spec hKinds
  simp only [step, hPhase]
  apply hWithin.branch
  · intro d later hRest hEquals
    obtain rfl : d = '=' := by simpa using hEquals
    subst hRest
    exact ((hWithin.take_inside (by decide)).close (.fixed hText') (hStops' _ _)).takes
  · intro hHead
    have hOther : rest.head? ≠ some '=' := by
      intro hEquals
      simpa using hHead '=' hEquals
    exact (hWithin.close (.fixed hText) (hStops _ _ hOther)).steps

theorem step_slash (hPhase : r.phase = .slash) (hWithin : r.Within source done ['/'] rest) :
    (r.step source).Steps source 3 rest := by
  simp only [step, hPhase]
  apply hWithin.branch
  · intro d later hRest hSlash
    obtain rfl : d = '/' := by simpa using hSlash
    subst hRest
    exact .takes (.within rfl (.comment List.not_mem_nil)
      ((hWithin.take_inside (by decide)).enter _))
  · intro hHead
    have hCarries : Kind.slash.Carries ['/'] none := .fixed rfl
    have hStops : Kind.slash.StopsBefore ['/'] rest := by
      intro hSlash
      simpa using hHead '/' hSlash
    exact (hWithin.close hCarries hStops).steps

theorem step_comment {line : List Char} (hPhase : r.phase = .comment) (hLine : '\n' ∉ line)
    (hWithin : r.Within source done ('/' :: '/' :: line) rest) :
    (r.step source).Steps source 3 rest := by
  simp only [step, hPhase]
  apply hWithin.branch
  · intro c later hRest hPass
    have hInside : c ≠ '\n' := by simpa using hPass
    have hLonger : '\n' ∉ line ++ [c] := by simp [hLine, hInside.symm]
    subst hRest
    exact .takes (.within hPhase (.comment hLonger) (hWithin.take_inside hInside))
  · intro hHead
    have hStops : ∀ c ∈ rest.head?, c = '\n' := by simpa using hHead
    exact (hWithin.leave (s := .comment _) ⟨.comment hLine, hStops⟩ rfl rfl).steps

theorem step_string {body : List Char} (hPhase : r.phase = .string) (hOpen : '"' ∉ body)
    (hWithin : r.Within source done ('"' :: body) rest) :
    (r.step source).Steps source 3 rest := by
  cases rest with
  | nil =>
      simp only [step, hPhase, hWithin.position.advance_nil]
      exact (hWithin.report (s := .unterminated _) ⟨.unterminated hOpen, rfl⟩ rfl).steps
  | cons c later =>
      have hStep : r.step source =
          if c = '"' then { r with cursor := r.cursor.taken c }.closeString source
          else if c = '\n' then { r with cursor := r.cursor.taken c, line := r.line + 1 }
          else { r with cursor := r.cursor.taken c } := by
        simp only [step, hPhase, hWithin.position.advance_cons]
      rw [hStep]
      split
      case isTrue hQuote =>
          subst hQuote
          exact ((hWithin.take_inside (by decide)).closeString hOpen).takes
      rename_i hQuote
      have hLonger : '"' ∉ body ++ [c] := by simp [hOpen, Ne.symm hQuote]
      split
      case isTrue hFeed =>
          subst hFeed
          exact .takes (.within hPhase (.string hLonger) (hWithin.take (r.line + 1) rfl))
      case isFalse hFeed =>
          exact .takes (.within hPhase (.string hLonger) (hWithin.take_inside hFeed))

/-- A point is taken with a digit behind it only. -/
theorem readPoint (hWithin : r.Within source done lexeme rest) (hSome : lexeme ≠ [])
    (hDigits : ∀ c ∈ lexeme, Digit c) (hEnd : ∀ c ∈ rest.head?, ¬Digit c) :
    (r.readPoint source).Steps source 3 rest := by
  have hNumeral := Numeral.integer hSome hDigits
  have hNote : r.noteMissing .noText (some rest) = r := rfl
  simp only [Reader.readPoint, hWithin.position.peek, hWithin.position.ahead?, hNote,
    hWithin.position.peekNextIs]
  split
  case isFalse hOther =>
      have hStops : Kind.number.StopsBefore lexeme rest := by
        refine ⟨hEnd, ?_⟩
        rintro - d cs rfl
        exact absurd rfl hOther
      exact (hWithin.closeNumber hNumeral hStops).steps
  case isTrue hPoint =>
      obtain ⟨later, rfl⟩ := List.head?_eq_some_iff.1 hPoint
      split
      case isTrue hNext =>
          obtain ⟨d, hHead, hDigit⟩ := (Option.any_eq_true _ _).1 hNext
          obtain ⟨cs, rfl⟩ := List.head?_eq_some_iff.1 hHead
          rw [hWithin.skip]
          exact .takes (.within rfl (.point hSome hDigits (isDigit_eq_true_iff.1 hDigit))
            ((hWithin.take_inside (by decide)).enter _))
      case isFalse hNext =>
          have hStops : Kind.number.StopsBefore lexeme ('.' :: later) := by
            refine ⟨hEnd, ?_⟩
            rintro - d cs ⟨⟩ hDigit
            exact hNext (isDigit_eq_true_iff.2 hDigit)
          exact (hWithin.closeNumber hNumeral hStops).steps

theorem step_whole (hPhase : r.phase = .whole) (hSome : lexeme ≠ [])
    (hDigits : ∀ c ∈ lexeme, Digit c) (hWithin : r.Within source done lexeme rest) :
    (r.step source).Steps source 3 rest := by
  simp only [step, hPhase]
  apply hWithin.branch
  · intro c later hRest hPass
    have hDigit := isDigit_eq_true_iff.1 hPass
    subst hRest
    exact .takes (.within hPhase (.whole (by simp) (digits_concat hDigits hDigit))
      (hWithin.take_inside (Segment.ne_of_wordCharacter (.inr hDigit) (by decide))))
  · intro hHead
    exact hWithin.readPoint hSome hDigits (not_of_fails (fun _ => isDigit_eq_true_iff) hHead)

/-- The digit that a point was taken for is there. -/
theorem step_point {whole : List Char} {d : Char} (hPhase : r.phase = .fraction)
    (hSome : whole ≠ []) (hDigits : ∀ c ∈ whole, Digit c) (hDigit : Digit d)
    (hWithin : r.Within source done (whole ++ ['.']) (d :: rest)) :
    (r.step source).Steps source 3 (d :: rest) := by
  simp only [step, hPhase]
  apply hWithin.branch
  · intro c later hRest _
    cases hRest
    have hTaken := hWithin.take_inside (Segment.ne_of_wordCharacter (.inr hDigit) (by decide))
    rw [List.append_assoc] at hTaken
    exact .takes (.within hPhase (.fraction hSome hDigits (by simp) (by simpa using hDigit)) hTaken)
  · intro hHead
    exact absurd hDigit (not_of_fails (fun _ => isDigit_eq_true_iff) hHead d rfl)

theorem step_fraction {whole fraction : List Char} (hPhase : r.phase = .fraction)
    (hSome : whole ≠ []) (hDigits : ∀ c ∈ whole, Digit c) (hSomeAfter : fraction ≠ [])
    (hDigitsAfter : ∀ c ∈ fraction, Digit c)
    (hWithin : r.Within source done (whole ++ '.' :: fraction) rest) :
    (r.step source).Steps source 3 rest := by
  simp only [step, hPhase]
  apply hWithin.branch
  · intro c later hRest hPass
    have hDigit := isDigit_eq_true_iff.1 hPass
    subst hRest
    have hTaken := hWithin.take_inside (Segment.ne_of_wordCharacter (.inr hDigit) (by decide))
    rw [List.append_assoc] at hTaken
    exact .takes (.within hPhase
      (.fraction hSome hDigits (by simp) (digits_concat hDigitsAfter hDigit)) hTaken)
  · intro hHead
    have hPoint : '.' ∈ whole ++ '.' :: fraction := by simp
    have hStops : Kind.number.StopsBefore (whole ++ '.' :: fraction) rest :=
      ⟨not_of_fails (fun _ => isDigit_eq_true_iff) hHead, fun hNone => absurd hPoint hNone⟩
    exact (hWithin.closeNumber (.fractional hSome hDigits hSomeAfter hDigitsAfter) hStops).steps

theorem step_word {c : Char} {cs : List Char} (hPhase : r.phase = .word) (hFirst : Letter c)
    (hRest : ∀ d ∈ cs, WordCharacter d) (hWithin : r.Within source done (c :: cs) rest) :
    (r.step source).Steps source 3 rest := by
  simp only [step, hPhase]
  apply hWithin.branch
  · intro d later hLater hPass
    have hWord := isWordCharacter_eq_true_iff.1 hPass
    subst hLater
    have hLonger : ∀ x ∈ cs ++ [d], WordCharacter x := by
      simpa [or_imp, forall_and] using And.intro hRest hWord
    exact .takes (.within hPhase (.word hFirst hLonger)
      (hWithin.take_inside (Segment.ne_of_wordCharacter hWord (by decide))))
  · intro hHead
    have hStops : Kind.identifier.StopsBefore (c :: cs) rest :=
      not_of_fails (fun _ => isWordCharacter_eq_true_iff) hHead
    exact (hWithin.close (.identifier hFirst hRest) hStops).steps

end Within

/-- **A step of a sound reader** is sound, and takes a character or goes on to a phase of lower
rank. -/
theorem Sound.steps (hSound : r.Sound source rest) (hRun : r.phase ≠ .finished) :
    (r.step source).Steps source r.phase.rank rest := by
  cases hSound with
  | between hBetween =>
      rw [hBetween.phase_eq]
      exact hBetween.step
  | finished _ => exact absurd rfl hRun
  | within hPhase hHolds hWithin =>
      rw [hPhase]
      cases hHolds with
      | begun => exact hWithin.step_begun hPhase
      | operator hKinds => exact hWithin.step_operator hPhase hKinds
      | slash => exact hWithin.step_slash hPhase
      | comment hLine => exact hWithin.step_comment hPhase hLine
      | string hOpen => exact hWithin.step_string hPhase hOpen
      | whole hSome hDigits => exact hWithin.step_whole hPhase hSome hDigits
      | point hSome hDigits hDigit => exact hWithin.step_point hPhase hSome hDigits hDigit
      | fraction hSome hDigits hSomeAfter hDigitsAfter =>
          exact hWithin.step_fraction hPhase hSome hDigits hSomeAfter hDigitsAfter
      | word hFirst hRest => exact hWithin.step_word hPhase hFirst hRest

end Reader

end LoxLexer
