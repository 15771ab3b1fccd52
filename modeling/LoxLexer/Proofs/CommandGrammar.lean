import LoxLexer.CommandLine.Request

/-!
# The grammar of the command line

A command line asks for the tokens of a script if it is made in this way:

    COMMAND   -> "tokenize" ARGUMENT* ( "--" <any word except the empty one>* )?
    ARGUMENT  -> FILE | "--diagnostics" STYLE | "--diagnostics=" STYLE
    FILE      -> "-" | <any word that is not empty and does not begin with "-">
    STYLE     -> "plain" | "pretty"

with one file word in all, before `--` or behind it, and at most one style (`Request.Asks`). The
parser accepts these command lines and no others, with the file and the style that they name
(`parse_eq_ok_iff_asks`).

The parser checks a value only when the next word is recognised, so that it can prefer another
error. That decides which error is told and not whether there is one: from every state that is not
waiting for a value, reading on is the same as checking what is pending and then reading on
(`Progress.SettlesFirst`). So the proof needs to look at states only in which nothing is pending,
and those hold the file word and the style that have been read (`gives_of_finish`,
`finish_of_gives`).
-/

namespace LoxLexer

theorem bind_eq_ok_iff {ε α β : Type} {x : Except ε α} {f : α → Except ε β} {b : β} :
    x >>= f = .ok b ↔ ∃ a, x = .ok a ∧ f a = .ok b := by
  cases x with
  | error e => simp [bind, Except.bind]
  | ok a => simp [bind, Except.bind]

/-! ## The grammar -/

/-- The name of a style, which is its value on the command line. -/
def Style.name : Style → String
  | plain => "plain"
  | pretty => "pretty"

theorem Style.ofName?_eq_some_iff {value : String} {style : Style} :
    ofName? value = some style ↔ value = style.name := by
  constructor
  · intro hName
    unfold ofName? at hName
    split at hName
    all_goals cases hName
    all_goals rfl
  · rintro rfl
    cases style
    all_goals rfl

namespace Request

/-- A word that names a file where there can be options: `-`, or a word with another first
character. -/
def FileWord (word : String) : Prop :=
  word ≠ "" ∧ (word = "-" ∨ word.toList.head? ≠ some '-')

/-- The words of a command before `--`, with the file words and the styles among them. -/
inductive Arguments : List String → List String → List Style → Prop where
  | nil : Arguments [] [] []
  | file {word : String} {words files : List String} {styles : List Style}
      (hWord : FileWord word) (hRest : Arguments words files styles) :
      Arguments (word :: words) (word :: files) styles
  | spaced {style : Style} {words files : List String} {styles : List Style}
      (hRest : Arguments words files styles) :
      Arguments ("--diagnostics" :: style.name :: words) files (style :: styles)
  | joined {style : Style} {words files : List String} {styles : List Style}
      (hRest : Arguments words files styles) :
      Arguments (("--diagnostics=" ++ style.name) :: words) files (style :: styles)

/-- The words before the first `--`, or all words if there is none. -/
def beforeSeparator (words : List String) : List String := words.takeWhile (· ≠ "--")

/-- The words behind the first `--`. -/
def behindSeparator (words : List String) : List String := (words.dropWhile (· ≠ "--")).drop 1

/-- The words of a command, with the file words and the styles that they give. -/
structure Gives (words files : List String) (styles : List Style) : Prop where
  arguments : ∃ named, Arguments (beforeSeparator words) named styles ∧
    files = named ++ behindSeparator words
  behind : ∀ word ∈ behindSeparator words, word ≠ ""

/-- Whether a command line is made by the grammar, and what it asks for. -/
inductive Asks : List String → Request → Prop where
  | styled {words : List String} {file : String} {style : Style}
      (hGives : Gives words [file] [style]) : Asks ("tokenize" :: words) ⟨file, style⟩
  | unstyled {words : List String} {file : String} (hGives : Gives words [file] []) :
      Asks ("tokenize" :: words) ⟨file, .plain⟩

/-! ## How words read -/

namespace Word

theorem ofText_eq_separator_iff {cs : List Char} : ofText cs = separator ↔ cs = ['-', '-'] := by
  constructor
  · intro hWord
    unfold ofText at hWord
    split at hWord
    case h_1 => rfl
    all_goals cases hWord
  · rintro rfl
    rfl

theorem ofText_eq_bare_iff {cs : List Char} :
    ofText cs = bare ↔ cs = ['-'] ∨ cs.head? ≠ some '-' := by
  constructor
  · intro hWord
    unfold ofText at hWord
    split at hWord
    case h_4 hLong hShort =>
        by_cases hDash : cs.head? = some '-'
        · obtain ⟨rest, rfl⟩ := List.head?_eq_some_iff.1 hDash
          cases rest with
          | nil => exact .inl rfl
          | cons c rest => exact absurd rfl (hShort c rest)
        · exact .inr hDash
    all_goals cases hWord
  · intro hForm
    unfold ofText
    split
    case h_4 => rfl
    all_goals simp at hForm

/-- A long word is made of its name and, behind a sign, its value. -/
theorem ofText_long {cs name : List Char} {value : Option (List Char)}
    (hWord : ofText cs = long name value) :
    cs = '-' :: '-' :: name ++ value.elim [] ('=' :: ·) := by
  unfold ofText at hWord
  split at hWord
  case h_2 option _ =>
      injection hWord with hName hValue
      have hParts := List.takeWhile_append_dropWhile (p := (· ≠ '=')) (l := option)
      rw [hName] at hParts
      have hSign := List.head?_dropWhile_not (· ≠ '=') option
      cases hRest : option.dropWhile (· ≠ '=') with
      | nil =>
          rw [hRest] at hParts hValue
          rw [← hValue, ← hParts]
          rfl
      | cons c rest =>
          rw [hRest] at hParts hValue hSign
          have hEquals : c = '=' := by simpa using hSign
          rw [← hValue, ← hParts, hEquals]
          rfl
  all_goals cases hWord

end Word

theorem fileWord_iff {word : String} :
    FileWord word ↔ word ≠ "" ∧ Word.ofText word.toList = .bare := by
  have hDash : word = "-" ↔ word.toList = "-".toList := String.toList_inj.symm
  rw [FileWord, Word.ofText_eq_bare_iff, hDash]
  rfl

/-- The word that is an option on its own. -/
theorem eq_diagnostics {word : String}
    (hWord : Word.ofText word.toList = .long "diagnostics".toList none) :
    word = "--diagnostics" :=
  String.toList_inj.1 (Word.ofText_long hWord)

/-- The word that is an option with its value. -/
theorem eq_diagnostics_value {word : String} {value : List Char}
    (hWord : Word.ofText word.toList = .long "diagnostics".toList (some value)) :
    word = "--diagnostics=" ++ String.ofList value := by
  have hValue : (String.ofList value).toList = value := String.toList_ofList
  apply String.toList_inj.1
  rw [Word.ofText_long hWord, String.toList_append, hValue]
  rfl

theorem ofText_style_name (style : Style) : Word.ofText style.name.toList = .bare := by
  cases style
  all_goals rfl

theorem ofText_joined (style : Style) :
    Word.ofText ("--diagnostics=" ++ style.name).toList =
      .long "diagnostics".toList (some style.name.toList) := by
  cases style
  all_goals decide

/-! ## Checking what is pending -/

namespace Progress

/-- The state in which nothing is pending. -/
def settled (file : Option String) (style : Option Style) : Progress := ⟨file, style, .nothing⟩

theorem settle_settled (file : Option String) (style : Option Style) :
    (settled file style).settle = .ok (settled file style) := rfl

theorem settleStyle_eq_ok_iff {p q : Progress} {value : String} :
    p.settleStyle value = .ok q ↔
      p.style = none ∧ ∃ style : Style, value = style.name ∧ q = settled p.file (some style) := by
  unfold settleStyle
  split
  case isTrue hRepeated =>
      have hSome : p.style ≠ none := by
        intro hNone
        rw [hNone] at hRepeated
        cases hRepeated
      simp [hSome]
  case isFalse hFirst =>
      have hNone : p.style = none := by simpa using hFirst
      split
      case h_1 style hName =>
          have hValue := Style.ofName?_eq_some_iff.1 hName
          constructor
          · intro hSettled
            cases hSettled
            exact ⟨hNone, style, hValue, rfl⟩
          · rintro ⟨-, other, hOther, rfl⟩
            have hSame := Style.ofName?_eq_some_iff.2 hOther
            rw [hName] at hSame
            cases hSame
            rfl
      case h_2 hUnknown =>
          constructor
          · intro hSettled
            split at hSettled
            all_goals cases hSettled
          · rintro ⟨-, style, hValue, -⟩
            rw [Style.ofName?_eq_some_iff.2 hValue] at hUnknown
            cases hUnknown

/-- A check leaves nothing pending, and does not change whether there is a file word. -/
theorem settle_eq_ok {p q : Progress} (hSettle : p.settle = .ok q) :
    q = settled q.file q.style ∧ q.hasFile = p.hasFile := by
  obtain ⟨file, style, pending⟩ := p
  cases pending with
  | nothing =>
      cases hSettle
      exact ⟨rfl, rfl⟩
  | file word =>
      simp only [settle] at hSettle
      split at hSettle
      case isTrue => cases hSettle
      case isFalse =>
          cases hSettle
          simp [settled, hasFile]
  | style value =>
      cases value with
      | none => cases hSettle
      | some value =>
          obtain ⟨-, style, -, rfl⟩ := settleStyle_eq_ok_iff.1 hSettle
          exact ⟨rfl, rfl⟩

/-- A way of reading on that comes to the same if what is pending is checked first, unless a value
is waited for. -/
def SettlesFirst (read : Progress → Except Refusal Progress) : Prop :=
  ∀ p q : Progress, p.pending ≠ .style none →
    (read p = .ok q ↔ ∃ p', p.settle = .ok p' ∧ read p' = .ok q)

theorem SettlesFirst.bind {read : Progress → Except Refusal Progress}
    (hRead : SettlesFirst read) (next : Progress → Except Refusal Progress) :
    SettlesFirst fun p => read p >>= next := by
  intro p q hPending
  simp only [bind_eq_ok_iff]
  constructor
  · intro hBind
    obtain ⟨r, hHere, hNext⟩ := hBind
    obtain ⟨p', hSettle, hLater⟩ := (hRead p r hPending).1 hHere
    exact ⟨p', hSettle, r, hLater, hNext⟩
  · intro hBind
    obtain ⟨p', hSettle, r, hLater, hNext⟩ := hBind
    exact ⟨r, (hRead p r hPending).2 ⟨p', hSettle, hLater⟩, hNext⟩

theorem settlesFirst_settle : SettlesFirst settle := by
  intro p q _
  constructor
  · intro hSettle
    have hSettled := (settle_eq_ok hSettle).1
    refine ⟨q, hSettle, ?_⟩
    rw [hSettled]
    rfl
  · intro hTwice
    obtain ⟨p', hSettle, hAgain⟩ := hTwice
    rw [(settle_eq_ok hSettle).1] at hAgain hSettle
    rw [hSettle, ← hAgain]
    rfl

/-- What is refused in every state is so after a check as well. -/
theorem settlesFirst_of_refused {read : Progress → Except Refusal Progress}
    (hRefused : ∀ p q, read p ≠ .ok q) : SettlesFirst read := by
  intro p q _
  constructor
  · intro hRead
    exact absurd hRead (hRefused p q)
  · intro hRead
    obtain ⟨p', -, hLater⟩ := hRead
    exact absurd hLater (hRefused p' q)

theorem addFile_eq_ok_iff {p q : Progress} {word : String} :
    p.addFile word = .ok q ↔
      p.hasFile = false ∧ ∃ p', p.settle = .ok p' ∧ q = ⟨p'.file, p'.style, .file word⟩ := by
  unfold addFile
  split
  case isTrue hFile => simp [hFile]
  case isFalse hFile =>
      rw [bind_eq_ok_iff]
      simp [hFile, pure, Except.pure, eq_comm]

theorem settlesFirst_addFile (word : String) : SettlesFirst fun p => p.addFile word := by
  intro p q hPending
  simp only [addFile_eq_ok_iff]
  constructor
  · intro hAdd
    obtain ⟨hFile, p', hSettle, hState⟩ := hAdd
    have hChecked := settle_eq_ok hSettle
    refine ⟨p', hSettle, hChecked.2.trans hFile, p', ?_, hState⟩
    rw [hChecked.1]
    rfl
  · intro hAdd
    obtain ⟨p', hSettle, hFile, r, hAgain, hState⟩ := hAdd
    have hChecked := settle_eq_ok hSettle
    have hSame : r = p' := by
      rw [hChecked.1] at hAgain ⊢
      exact (Except.ok.inj hAgain).symm
    exact ⟨hChecked.2.symm.trans hFile, p', hSettle, hSame ▸ hState⟩

/-- Two ways of reading that differ only where a value is waited for. -/
theorem SettlesFirst.congr {read other : Progress → Except Refusal Progress}
    (hOther : SettlesFirst other)
    (hSame : ∀ p : Progress, p.pending ≠ .style none → read p = other p) : SettlesFirst read := by
  intro p q hPending
  have hChecked (p' : Progress) (hSettle : p.settle = .ok p') : read p' = other p' := by
    apply hSame
    rw [(settle_eq_ok hSettle).1]
    exact nofun
  rw [hSame p hPending, hOther p q hPending]
  constructor
  · intro hRead
    obtain ⟨p', hSettle, hLater⟩ := hRead
    exact ⟨p', hSettle, (hChecked p' hSettle).trans hLater⟩
  · intro hRead
    obtain ⟨p', hSettle, hLater⟩ := hRead
    exact ⟨p', hSettle, (hChecked p' hSettle).symm.trans hLater⟩

end Progress

open Progress

theorem giveHelp_ne_ok (p q : Progress) (topic : HelpTopic) : p.giveHelp topic ≠ .ok q := by
  intro hHelp
  obtain ⟨-, -, hThrow⟩ := bind_eq_ok_iff.1 hHelp
  cases hThrow

theorem readShort_ne_ok (p q : Progress) (c : Char) : readShort p c ≠ .ok q := by
  unfold readShort
  split
  · exact giveHelp_ne_ok p q .tokenizeBrief
  · intro hRead
    cases hRead

/-- Of the long options only the one for the style is not refused. -/
theorem readLong_ne_ok {name : List Char} (hName : name ≠ "diagnostics".toList) (p q : Progress)
    (value : Option (List Char)) : readLong p name value ≠ .ok q := by
  unfold readLong
  rw [if_neg hName]
  split
  · split
    · exact giveHelp_ne_ok p q .tokenizeFull
    · intro hRead
      cases hRead
  · intro hRead
    cases hRead

theorem readLong_diagnostics (p : Progress) (value : Option (List Char)) :
    readLong p "diagnostics".toList value = p.settle >>= fun p =>
      match value with
      | none => .ok { p with pending := .style none }
      | some v => p.settleStyle (String.ofList v) := rfl

theorem settlesFirst_readLong (name : List Char) (value : Option (List Char)) :
    SettlesFirst fun p => readLong p name value := by
  by_cases hName : name = "diagnostics".toList
  · subst hName
    simp only [readLong_diagnostics]
    exact settlesFirst_settle.bind _
  · exact settlesFirst_of_refused fun p q => readLong_ne_ok hName p q value

theorem readBare_eq_addFile {p : Progress} (hPending : p.pending ≠ .style none) (word : String) :
    readBare p word = p.addFile word := by
  unfold readBare
  split
  case h_1 hWaiting => exact absurd hWaiting hPending
  case h_2 => rfl

/-! ## Reading all words -/

/-- Reads words and checks what is pending at the end. -/
def finish (p : Progress) (words : List String) : Except Refusal Progress :=
  readWords p words >>= settle

/-- Reads words as file words, and checks what is pending at the end. -/
def finishFiles (p : Progress) (words : List String) : Except Refusal Progress :=
  words.foldlM addFile p >>= settle

theorem ofArguments_eq (words : List String) :
    ofArguments words = finish .start words >>= fun p =>
      match p.file with
      | some file => .ok ⟨file, p.style.getD .plain⟩
      | none => .error (.usage .missingFile) := by
  unfold ofArguments finish
  cases readWords .start words with
  | error _ => rfl
  | ok p => rfl

/-- The first word is read as it reads, and the others after it. -/
theorem finish_cons (p : Progress) (word : String) (words : List String) :
    finish p (word :: words) =
      match Word.ofText word.toList with
      | .separator => finishFiles p words
      | .long name value => readLong p name value >>= fun p => finish p words
      | .short c => readShort p c >>= fun p => finish p words
      | .bare => readBare p word >>= fun p => finish p words := by
  unfold finish
  rw [readWords]
  cases Word.ofText word.toList with
  | separator => rfl
  | long name value => exact bind_assoc _ _ _
  | short c => exact bind_assoc _ _ _
  | bare => exact bind_assoc _ _ _

theorem settlesFirst_finishFiles (words : List String) :
    SettlesFirst fun p => finishFiles p words := by
  cases words with
  | nil => exact settlesFirst_settle
  | cons word words =>
      refine ((settlesFirst_addFile word).bind fun p => finishFiles p words).congr ?_
      intro p _
      rw [finishFiles, List.foldlM_cons]
      exact bind_assoc _ _ _

/-- **Checking first does not matter**: it decides only which error is told. -/
theorem settlesFirst_finish (words : List String) : SettlesFirst fun p => finish p words := by
  cases words with
  | nil => exact settlesFirst_settle
  | cons word words =>
      simp only [finish_cons]
      cases Word.ofText word.toList with
      | separator => exact settlesFirst_finishFiles words
      | long name value => exact (settlesFirst_readLong name value).bind _
      | short c =>
          exact (settlesFirst_of_refused fun p q => readShort_ne_ok p q c).bind fun p =>
            finish p words
      | bare =>
          refine ((settlesFirst_addFile word).bind fun p => finish p words).congr ?_
          intro p hPending
          rw [readBare_eq_addFile hPending]

/-! ## From a state in which nothing is pending -/

/-- A state in which nothing is pending and which holds what another one did, and these file words
and styles behind it. There is room for one of each. -/
structure Progress.Adds (q : Progress) (file : Option String) (style : Option Style)
    (files : List String) (styles : List Style) : Prop where
  pending : q.pending = .nothing
  file : q.file.toList = file.toList ++ files
  style : q.style.toList = style.toList ++ styles

theorem eq_of_toList_eq {α : Type} {left right : Option α} (hSame : left.toList = right.toList) :
    left = right := by
  rw [← Option.head?_toList (o := left), hSame, Option.head?_toList]

theorem eq_none_of_toList_eq {α : Type} {held added : Option α} {x : α} {xs : List α}
    (hRoom : added.toList = held.toList ++ x :: xs) : held = none := by
  cases held with
  | none => rfl
  | some y =>
      have hLength := congrArg List.length hRoom
      have hOne : added.toList.length ≤ 1 := by cases added <;> simp
      simp at hLength
      omega

section

variable {file : Option String} {style : Option Style} {word : String} {words files : List String}
  {styles : List Style} {q : Progress}

/-- A file word is added where there is none. -/
theorem Progress.adds_file_iff :
    q.Adds file style (word :: files) styles ↔
      file = none ∧ q.Adds (some word) style files styles := by
  constructor
  · intro hAdds
    obtain rfl := eq_none_of_toList_eq hAdds.file
    exact ⟨rfl, hAdds.pending, hAdds.file, hAdds.style⟩
  · intro hAdds
    obtain ⟨rfl, hRest⟩ := hAdds
    exact ⟨hRest.pending, hRest.file, hRest.style⟩

/-- A style is added where there is none. -/
theorem Progress.adds_style_iff {named : Style} :
    q.Adds file style files (named :: styles) ↔
      style = none ∧ q.Adds file (some named) files styles := by
  constructor
  · intro hAdds
    obtain rfl := eq_none_of_toList_eq hAdds.style
    exact ⟨rfl, hAdds.pending, hAdds.file, hAdds.style⟩
  · intro hAdds
    obtain ⟨rfl, hRest⟩ := hAdds
    exact ⟨hRest.pending, hRest.file, hRest.style⟩

/-- The option for the style, where nothing is to be checked before it. -/
theorem readLong_settled (value : Option (List Char)) :
    readLong (settled file style) "diagnostics".toList value =
      match value with
      | none => .ok ⟨file, style, .style none⟩
      | some v => (settled file style).settleStyle (String.ofList v) := by
  rw [readLong_diagnostics, settle_settled]
  rfl

theorem finish_settled_nil : finish (settled file style) [] = .ok (settled file style) := rfl

theorem finish_settled_separator :
    finish (settled file style) ("--" :: words) = finishFiles (settled file style) words :=
  finish_cons _ _ _

/-- A file word that is read is checked at once, for all that is accepted in the end. -/
theorem add_then {read : Progress → Except Refusal Progress} (hRead : SettlesFirst read) :
    (settled file style).addFile word >>= read = .ok q ↔
      file = none ∧ word ≠ "" ∧ read (settled (some word) style) = .ok q := by
  have hSettle : (⟨file, style, .file word⟩ : Progress).settle =
      if word = "" then .error (.usage (.missingValue fileParameter))
      else .ok (settled (some word) style) := rfl
  have hChecked := hRead ⟨file, style, .file word⟩ q nofun
  rw [hSettle] at hChecked
  simp only [bind_eq_ok_iff, addFile_eq_ok_iff, settle_settled]
  constructor
  · intro hAdd
    obtain ⟨r, ⟨hFile, p', hSettled, hState⟩, hLater⟩ := hAdd
    cases hSettled
    rw [hState] at hLater
    obtain ⟨p', hWord, hNext⟩ := hChecked.1 hLater
    split at hWord
    case isTrue => cases hWord
    case isFalse hSome =>
        cases hWord
        exact ⟨by simpa [hasFile, settled] using hFile, hSome, hNext⟩
  · intro hAdd
    obtain ⟨rfl, hSome, hNext⟩ := hAdd
    exact ⟨_, ⟨rfl, _, rfl, rfl⟩, hChecked.2 ⟨_, if_neg hSome, hNext⟩⟩

theorem finish_settled_bare (hWord : Word.ofText word.toList = .bare) :
    finish (settled file style) (word :: words) = .ok q ↔
      file = none ∧ word ≠ "" ∧ finish (settled (some word) style) words = .ok q := by
  rw [finish_cons, hWord]
  exact add_then (settlesFirst_finish words)

theorem finishFiles_settled_cons :
    finishFiles (settled file style) (word :: words) = .ok q ↔
      file = none ∧ word ≠ "" ∧ finishFiles (settled (some word) style) words = .ok q := by
  rw [finishFiles, List.foldlM_cons, bind_assoc]
  exact add_then (settlesFirst_finishFiles words)

/-- **Behind `--`** all words are file words. -/
theorem finishFiles_settled_eq_ok_iff :
    finishFiles (settled file style) words = .ok q ↔
      (∀ word ∈ words, word ≠ "") ∧ q.Adds file style words [] := by
  induction words generalizing file with
  | nil =>
      constructor
      · intro hFinish
        cases hFinish
        exact ⟨by simp, rfl, by simp [settled], by simp [settled]⟩
      · intro hAdds
        obtain ⟨-, hPending, hFile, hStyle⟩ := hAdds
        rw [List.append_nil] at hFile hStyle
        obtain ⟨qFile, qStyle, qPending⟩ := q
        cases hPending
        cases eq_of_toList_eq hFile
        cases eq_of_toList_eq hStyle
        rfl
  | cons word words ih =>
      rw [finishFiles_settled_cons, ih, List.forall_mem_cons, adds_file_iff]
      constructor
      · intro hFinish
        obtain ⟨hFirst, hWord, hWords, hAdds⟩ := hFinish
        exact ⟨⟨hWord, hWords⟩, hFirst, hAdds⟩
      · intro hAdds
        obtain ⟨⟨hWord, hWords⟩, hFirst, hAdds⟩ := hAdds
        exact ⟨hFirst, hWord, hWords, hAdds⟩

theorem finish_settled_joined {value : List Char}
    (hWord : Word.ofText word.toList = .long "diagnostics".toList (some value)) :
    finish (settled file style) (word :: words) = .ok q ↔
      style = none ∧ ∃ named : Style, String.ofList value = named.name ∧
        finish (settled file (some named)) words = .ok q := by
  rw [finish_cons, hWord]
  simp only [readLong_settled, bind_eq_ok_iff, settleStyle_eq_ok_iff]
  constructor
  · intro hRead
    obtain ⟨p, ⟨hFirst, named, hName, rfl⟩, hNext⟩ := hRead
    exact ⟨hFirst, named, hName, hNext⟩
  · intro hRead
    obtain ⟨hFirst, named, hName, hNext⟩ := hRead
    exact ⟨_, ⟨hFirst, named, hName, rfl⟩, hNext⟩

/-- **Where a value is waited for**, the next word has to be one. -/
theorem finish_waiting :
    finish ⟨file, style, .style none⟩ words = .ok q ↔
      style = none ∧ ∃ (named : Style) (rest : List String), words = named.name :: rest ∧
        finish (settled file (some named)) rest = .ok q := by
  have hRefused (p : Progress) :
      (⟨file, style, .style none⟩ : Progress).settle ≠ .ok p := nofun
  have hValue (word : String) (rest : List String) :
      finish ⟨file, style, .style (some word)⟩ rest = .ok q ↔
        ∃ p', (⟨file, style, .style (some word)⟩ : Progress).settle = .ok p' ∧
          finish p' rest = .ok q := settlesFirst_finish rest _ q nofun
  constructor
  · intro hFinish
    cases words with
    | nil => exact absurd hFinish (hRefused q)
    | cons word rest =>
        rw [finish_cons] at hFinish
        cases hWord : Word.ofText word.toList with
        | separator =>
            rw [hWord] at hFinish
            cases rest with
            | nil => exact absurd hFinish (hRefused q)
            | cons next rest =>
                dsimp only at hFinish
                rw [finishFiles, List.foldlM_cons, bind_assoc, bind_eq_ok_iff] at hFinish
                obtain ⟨p, hAdd, -⟩ := hFinish
                obtain ⟨-, p', hSettle, -⟩ := addFile_eq_ok_iff.1 hAdd
                exact absurd hSettle (hRefused p')
        | long name value =>
            rw [hWord] at hFinish
            obtain ⟨p, hRead, -⟩ := bind_eq_ok_iff.1 hFinish
            by_cases hName : name = "diagnostics".toList
            · subst hName
              rw [readLong_diagnostics] at hRead
              obtain ⟨p', hSettle, -⟩ := bind_eq_ok_iff.1 hRead
              exact absurd hSettle (hRefused p')
            · exact absurd hRead (readLong_ne_ok hName _ p value)
        | short c =>
            rw [hWord] at hFinish
            obtain ⟨p, hRead, -⟩ := bind_eq_ok_iff.1 hFinish
            exact absurd hRead (readShort_ne_ok _ p c)
        | bare =>
            rw [hWord] at hFinish
            obtain ⟨p', hSettle, hNext⟩ := (hValue word rest).1 hFinish
            obtain ⟨hFirst, named, hName, rfl⟩ := settleStyle_eq_ok_iff.1 hSettle
            exact ⟨hFirst, named, rest, by rw [hName], hNext⟩
  · intro hRead
    obtain ⟨rfl, named, rest, rfl, hNext⟩ := hRead
    rw [finish_cons, ofText_style_name]
    refine (hValue named.name rest).2 ⟨_, ?_, hNext⟩
    exact settleStyle_eq_ok_iff.2 ⟨rfl, named, rfl, rfl⟩

theorem finish_settled_spaced :
    finish (settled file style) ("--diagnostics" :: words) = .ok q ↔
      style = none ∧ ∃ (named : Style) (rest : List String), words = named.name :: rest ∧
        finish (settled file (some named)) rest = .ok q := by
  have hWord : Word.ofText "--diagnostics".toList = .long "diagnostics".toList none := rfl
  rw [finish_cons, hWord]
  simp only [readLong_settled]
  exact finish_waiting

end

/-! ## What is accepted -/

theorem beforeSeparator_cons {word : String} (hWord : word ≠ "--") (words : List String) :
    beforeSeparator (word :: words) = word :: beforeSeparator words :=
  List.takeWhile_cons_of_pos (decide_eq_true hWord)

theorem behindSeparator_cons {word : String} (hWord : word ≠ "--") (words : List String) :
    behindSeparator (word :: words) = behindSeparator words := by
  rw [behindSeparator, List.dropWhile_cons, if_pos (decide_eq_true hWord)]
  rfl

namespace Gives

variable {words files : List String} {styles : List Style}

theorem nil : Gives [] [] [] where
  arguments := ⟨[], .nil, rfl⟩
  behind := by simp [behindSeparator]

theorem separator (hWords : ∀ word ∈ words, word ≠ "") : Gives ("--" :: words) words [] where
  arguments := ⟨[], .nil, rfl⟩
  behind := hWords

theorem file {word : String} (hSome : word ≠ "") (hBare : Word.ofText word.toList = .bare)
    (hRest : Gives words files styles) : Gives (word :: words) (word :: files) styles := by
  have hWord : word ≠ "--" := by
    rintro rfl
    cases hBare
  obtain ⟨⟨named, hArguments, rfl⟩, hBehind⟩ := hRest
  constructor
  · rw [beforeSeparator_cons hWord, behindSeparator_cons hWord]
    exact ⟨word :: named, .file (fileWord_iff.2 ⟨hSome, hBare⟩) hArguments, rfl⟩
  · rwa [behindSeparator_cons hWord]

theorem spaced (style : Style) (hRest : Gives words files styles) :
    Gives ("--diagnostics" :: style.name :: words) files (style :: styles) := by
  have hOption : "--diagnostics" ≠ "--" := by decide
  have hValue : style.name ≠ "--" := by
    cases style
    all_goals decide
  obtain ⟨⟨named, hArguments, rfl⟩, hBehind⟩ := hRest
  constructor
  · rw [beforeSeparator_cons hOption, beforeSeparator_cons hValue, behindSeparator_cons hOption,
      behindSeparator_cons hValue]
    exact ⟨named, .spaced hArguments, rfl⟩
  · rwa [behindSeparator_cons hOption, behindSeparator_cons hValue]

theorem joined (style : Style) (hRest : Gives words files styles) :
    Gives (("--diagnostics=" ++ style.name) :: words) files (style :: styles) := by
  have hWord : "--diagnostics=" ++ style.name ≠ "--" := by
    cases style
    all_goals decide
  obtain ⟨⟨named, hArguments, rfl⟩, hBehind⟩ := hRest
  constructor
  · rw [beforeSeparator_cons hWord, behindSeparator_cons hWord]
    exact ⟨named, .joined hArguments, rfl⟩
  · rwa [behindSeparator_cons hWord]

end Gives

/-- **What is accepted is made by the grammar.** The induction is on the number of words, because an
option and its value are read together. -/
theorem gives_of_finish {file : Option String} {style : Option Style} {words : List String}
    {q : Progress} (hFinish : finish (settled file style) words = .ok q) :
    ∃ files styles, Gives words files styles ∧ q.Adds file style files styles := by
  induction hLength : words.length using Nat.strongRecOn generalizing words file style with
  | ind n ih =>
      cases words with
      | nil =>
          rw [finish_settled_nil] at hFinish
          cases hFinish
          exact ⟨[], [], .nil, rfl, (List.append_nil _).symm, (List.append_nil _).symm⟩
      | cons word rest =>
          subst hLength
          have hShorter : rest.length < (word :: rest).length := Nat.lt_succ_self _
          cases hWord : Word.ofText word.toList with
          | separator =>
              have hText := Word.ofText_eq_separator_iff.1 hWord
              obtain rfl : word = "--" := String.toList_inj.1 hText
              rw [finish_settled_separator, finishFiles_settled_eq_ok_iff] at hFinish
              exact ⟨rest, [], .separator hFinish.1, hFinish.2⟩
          | long name value =>
              by_cases hName : name = "diagnostics".toList
              · subst hName
                cases value with
                | none =>
                    obtain rfl := eq_diagnostics hWord
                    obtain ⟨hFirst, named, more, rfl, hNext⟩ := finish_settled_spaced.1 hFinish
                    obtain ⟨files, styles, hGives, hAdds⟩ :=
                      ih _ (Nat.lt_of_succ_lt hShorter) hNext rfl
                    exact ⟨files, named :: styles, hGives.spaced named,
                      adds_style_iff.2 ⟨hFirst, hAdds⟩⟩
                | some value =>
                    obtain ⟨hFirst, named, hValue, hNext⟩ := (finish_settled_joined hWord).1 hFinish
                    obtain ⟨files, styles, hGives, hAdds⟩ := ih _ hShorter hNext rfl
                    rw [eq_diagnostics_value hWord, hValue]
                    exact ⟨files, named :: styles, hGives.joined named,
                      adds_style_iff.2 ⟨hFirst, hAdds⟩⟩
              · rw [finish_cons, hWord] at hFinish
                obtain ⟨p, hRead, -⟩ := bind_eq_ok_iff.1 hFinish
                exact absurd hRead (readLong_ne_ok hName _ p value)
          | short c =>
              rw [finish_cons, hWord] at hFinish
              obtain ⟨p, hRead, -⟩ := bind_eq_ok_iff.1 hFinish
              exact absurd hRead (readShort_ne_ok _ p c)
          | bare =>
              obtain ⟨hFirst, hSome, hNext⟩ := (finish_settled_bare hWord).1 hFinish
              obtain ⟨files, styles, hGives, hAdds⟩ := ih _ hShorter hNext rfl
              exact ⟨word :: files, styles, hGives.file hSome hWord,
                adds_file_iff.2 ⟨hFirst, hAdds⟩⟩

/-- The words before `--` are read one argument after another. -/
theorem finish_of_arguments {front named : List String} {styles : List Style}
    (hArguments : Arguments front named styles) {tail behind : List String} {q : Progress}
    (hTail : ∀ file style, q.Adds file style behind [] →
      finish (settled file style) tail = .ok q) {file : Option String} {style : Option Style}
    (hAdds : q.Adds file style (named ++ behind) styles) :
    finish (settled file style) (front ++ tail) = .ok q := by
  induction hArguments generalizing file style with
  | nil => exact hTail file style hAdds
  | file hWord _ ih =>
      obtain ⟨hFirst, hRest⟩ := adds_file_iff.1 hAdds
      obtain ⟨hSome, hBare⟩ := fileWord_iff.1 hWord
      exact (finish_settled_bare hBare).2 ⟨hFirst, hSome, ih hRest⟩
  | @spaced named _ _ _ _ ih =>
      obtain ⟨hFirst, hRest⟩ := adds_style_iff.1 hAdds
      exact finish_settled_spaced.2 ⟨hFirst, named, _, rfl, ih hRest⟩
  | @joined named _ _ _ _ ih =>
      obtain ⟨hFirst, hRest⟩ := adds_style_iff.1 hAdds
      exact (finish_settled_joined (ofText_joined named)).2
        ⟨hFirst, named, String.ofList_toList, ih hRest⟩

/-- **What the grammar makes is accepted.** -/
theorem finish_of_gives {file : Option String} {style : Option Style} {words files : List String}
    {styles : List Style} {q : Progress} (hGives : Gives words files styles)
    (hAdds : q.Adds file style files styles) : finish (settled file style) words = .ok q := by
  obtain ⟨⟨named, hArguments, rfl⟩, hBehind⟩ := hGives
  have hWords := List.takeWhile_append_dropWhile (p := (· ≠ "--")) (l := words)
  rw [← hWords]
  refine finish_of_arguments hArguments ?_ hAdds
  intro file style hAdds
  have hSign := List.head?_dropWhile_not (· ≠ "--") words
  unfold behindSeparator at hAdds hBehind
  cases hRest : words.dropWhile (· ≠ "--") with
  | nil =>
      rw [hRest] at hAdds
      exact finishFiles_settled_eq_ok_iff.2 ⟨by simp, hAdds⟩
  | cons word rest =>
      rw [hRest] at hAdds hBehind hSign
      have hWord : word = "--" := by simpa using hSign
      rw [hWord, finish_settled_separator]
      exact finishFiles_settled_eq_ok_iff.2 ⟨hBehind, hAdds⟩

theorem ofArguments_eq_ok_iff {words : List String} {request : Request} :
    ofArguments words = .ok request ↔ Asks ("tokenize" :: words) request := by
  rw [ofArguments_eq, bind_eq_ok_iff]
  constructor
  · intro hArguments
    obtain ⟨q, hFinish, hRequest⟩ := hArguments
    obtain ⟨files, styles, hGives, hPending, hFile, hStyle⟩ := gives_of_finish hFinish
    cases hNamed : q.file with
    | none =>
        rw [hNamed] at hRequest
        cases hRequest
    | some file =>
        rw [hNamed] at hRequest hFile
        cases hRequest
        obtain rfl : files = [file] := hFile.symm
        cases hValue : q.style with
        | none =>
            rw [hValue] at hStyle
            obtain rfl : styles = [] := hStyle.symm
            exact .unstyled hGives
        | some style =>
            rw [hValue] at hStyle
            obtain rfl : styles = [style] := hStyle.symm
            exact .styled hGives
  · intro hAsks
    cases hAsks with
    | @styled _ file style hGives =>
        exact ⟨settled (some file) (some style), finish_of_gives hGives ⟨rfl, rfl, rfl⟩, rfl⟩
    | @unstyled _ file hGives =>
        exact ⟨settled (some file) none, finish_of_gives hGives ⟨rfl, rfl, rfl⟩, rfl⟩

theorem Asks.head? {words : List String} {request : Request} (hAsks : Asks words request) :
    words.head? = some "tokenize" := by
  cases hAsks
  all_goals rfl

end Request

open Request

/-- **The command line is accepted exactly on its grammar**, and the request holds the file word and
the style that the grammar gives. Any other command line is answered with help or with what is wrong
with it. -/
theorem parse_eq_ok_iff_asks (words : List String) :
    (∀ request, Request.parse words = .ok request ↔ Asks words request) ∧
      ((¬∃ request, Asks words request) →
        (∃ topic, Request.parse words = .error (.help topic)) ∨
          ∃ error, Request.parse words = .error (.usage error)) := by
  have hAccepted (request : Request) : Request.parse words = .ok request ↔ Asks words request := by
    unfold Request.parse
    split
    case h_2 words => exact ofArguments_eq_ok_iff
    case h_1 => exact iff_of_false nofun nofun
    case h_3 words =>
        refine iff_of_false nofun ?_
        intro hAsks
        have hWord : "help" = "tokenize" := Option.some.inj hAsks.head?
        exact absurd hWord (by decide)
    case h_4 word rest hTokenize _ =>
        refine iff_of_false nofun ?_
        intro hAsks
        exact hTokenize (Option.some.inj hAsks.head?)
  refine ⟨hAccepted, ?_⟩
  intro hNone
  cases hParse : Request.parse words with
  | ok request => exact absurd ⟨request, (hAccepted request).1 hParse⟩ hNone
  | error refusal =>
      cases refusal with
      | help topic => exact .inl ⟨topic, rfl⟩
      | usage error => exact .inr ⟨error, rfl⟩

/-- Options before and behind the file word, a file word that looks like the separator, and an option
whose value is the separator. -/
theorem parse_eq_ok_iff_asks_separator :
    Asks ["tokenize", "--diagnostics=pretty", "--", "--"] ⟨"--", .pretty⟩ ∧
      Request.parse ["tokenize", "-", "--diagnostics", "plain"] = .ok ⟨"-", .plain⟩ ∧
      (¬∃ request, Asks ["tokenize", "--diagnostics", "--", "plain"] request) ∧
      ((∃ topic, Request.parse ["tokenize", "--diagnostics", "--", "plain"] =
          .error (.help topic)) ∨
        ∃ error, Request.parse ["tokenize", "--diagnostics", "--", "plain"] =
          .error (.usage error)) := by
  have hPretty : Request.parse ["tokenize", "--diagnostics=pretty", "--", "--"] =
      .ok ⟨"--", .pretty⟩ := by rfl
  have hDash : Asks ["tokenize", "-", "--diagnostics", "plain"] ⟨"-", .plain⟩ := by
    refine .styled ⟨⟨["-"], ?_, rfl⟩, by simp [behindSeparator]⟩
    exact .file ⟨by decide, .inl rfl⟩ (@Arguments.spaced .plain _ _ _ .nil)
  have hNone : ¬∃ request, Asks ["tokenize", "--diagnostics", "--", "plain"] request := by
    intro hAsks
    obtain ⟨request, hRequest⟩ := hAsks
    have hRefused := ((parse_eq_ok_iff_asks _).1 request).2 hRequest
    cases hRefused
  exact ⟨((parse_eq_ok_iff_asks _).1 _).1 hPretty, ((parse_eq_ok_iff_asks _).1 _).2 hDash, hNone,
    (parse_eq_ok_iff_asks _).2 hNone⟩

end LoxLexer
