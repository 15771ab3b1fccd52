import LoxLexer.CommandLine.Usage
import LoxLexer.Report

/-!
# Reading the command line

The one command is `tokenize`. It takes one file word and at most one `--diagnostics` option, in
any order; after `--` every word is a file word. Help can be asked for with `-h`, `--help` and the
`help` command.

A value that is a word of its own is checked only once the next word is recognised, or at the end.
So an option that there is not, a file too many, or a value given to `--help` is the error that is
told even if the value before it is wrong. All other faults are told in the order of the words.
-/

namespace LoxLexer

/-- What the command line asks for: the tokens of a script. -/
structure Request where
  file : String
  style : Style
deriving DecidableEq, Repr

/-- Why a command line asks for no script: it asks for help, or it is wrong. -/
inductive Refusal where
  | help (topic : HelpTopic)
  | usage (error : UsageError)
deriving DecidableEq, Repr

/-- The style with the given name. -/
def Style.ofName? : String → Option Style
  | "plain" => some .plain
  | "pretty" => some .pretty
  | _ => none

namespace Request

/-- How the file parameter is shown in messages. -/
def fileParameter : String := "<FILE>"

/-- How the style parameter is shown in messages. -/
def styleParameter : String := "--diagnostics <DIAGNOSTICS>"

/-- A parameter that has been seen and is still to be checked. -/
inductive Pending where
  | nothing
  | file (word : String)
  | style (value : Option String)
deriving DecidableEq, Repr

/-- What the words read so far amount to. -/
structure Progress where
  file : Option String
  style : Option Style
  pending : Pending
deriving DecidableEq, Repr

namespace Progress

/-- Before the first word. -/
def start : Progress := ⟨none, none, .nothing⟩

/-- Checks a value of the style option. A second option is told before a wrong value. -/
def settleStyle (p : Progress) (value : String) : Except Refusal Progress :=
  if p.style.isSome then .error (.usage (.repeatedOption styleParameter))
  else match Style.ofName? value with
    | some style => .ok { p with style := some style, pending := .nothing }
    | none =>
        if value = "" then .error (.usage (.missingValue styleParameter))
        else .error (.usage (.invalidValue styleParameter value))

/-- Checks the parameter that is pending. -/
def settle (p : Progress) : Except Refusal Progress :=
  match p.pending with
  | .nothing => .ok p
  | .file word =>
      if word = "" then .error (.usage (.missingValue fileParameter))
      else .ok { p with file := some word, pending := .nothing }
  | .style none => .error (.usage (.missingValue styleParameter))
  | .style (some value) => p.settleStyle value

/-- Whether a file word has been seen. -/
def hasFile (p : Progress) : Bool :=
  p.file.isSome || match p.pending with
    | .file _ => true
    | _ => false

/-- Takes a file word; there can be only one. -/
def addFile (p : Progress) (word : String) : Except Refusal Progress :=
  if p.hasFile then .error (.usage (.unknownArgument word))
  else do
    let p ← p.settle
    return { p with pending := .file word }

/-- Checks what is pending, then gives help. -/
def giveHelp (p : Progress) (topic : HelpTopic) : Except Refusal Progress := do
  let _ ← p.settle
  throw (.help topic)

end Progress

/-- How a word of a command line reads before `--`. -/
inductive Word where
  /-- The word `--`. -/
  | separator
  /-- A word that begins with `--`: the name after it, and what follows the first `=`. -/
  | long (name : List Char) (value : Option (List Char))
  /-- A word that begins with a single `-`: the character after it. -/
  | short (c : Char)
  /-- Any other word, the single `-` among them. -/
  | bare
deriving DecidableEq, Repr

/-- How a word reads. -/
def Word.ofText : List Char → Word
  | ['-', '-'] => separator
  | '-' :: '-' :: option =>
      long (option.takeWhile (· ≠ '=')) (option.dropWhile (· ≠ '=')).tail?
  | '-' :: c :: _ => short c
  | _ => bare

/-- How an option that is not known is shown. -/
def Word.longText (name : List Char) : String := "--" ++ String.ofList name

/-- How a short option is shown, without what is joined to it. -/
def Word.shortText (c : Char) : String := "-" ++ c.toString

/-- Reads a word that begins with `--`. -/
def readLong (p : Progress) (name : List Char) (value : Option (List Char)) :
    Except Refusal Progress :=
  if name = "help".toList then
    match value with
    | none => p.giveHelp .tokenizeFull
    | some v => .error (.usage (.surplusValue "--help" (String.ofList v)))
  else if name = "diagnostics".toList then do
    let p ← p.settle
    match value with
    | none => return { p with pending := .style none }
    | some v => p.settleStyle (String.ofList v)
  else .error (.usage (.unknownArgument (Word.longText name)))

/-- Reads a word that begins with a single `-`. -/
def readShort (p : Progress) (c : Char) : Except Refusal Progress :=
  if c = 'h' then p.giveHelp .tokenizeBrief
  else .error (.usage (.unknownArgument (Word.shortText c)))

/-- Reads any other word: the value of the option before it, or else a file word. -/
def readBare (p : Progress) (word : String) : Except Refusal Progress :=
  match p.pending with
  | .style none => .ok { p with pending := .style (some word) }
  | _ => p.addFile word

/-- Reads the words of the `tokenize` command: before `--` by their form, after it as file words. -/
def readWords (p : Progress) : List String → Except Refusal Progress
  | [] => .ok p
  | word :: rest =>
      match Word.ofText word.toList with
      | .separator => rest.foldlM Progress.addFile p
      | .long name value => do readWords (← readLong p name value) rest
      | .short c => do readWords (← readShort p c) rest
      | .bare => do readWords (← readBare p word) rest

/-- Reads the arguments of the `tokenize` command. -/
def ofArguments (words : List String) : Except Refusal Request := do
  let p ← (← readWords .start words).settle
  match p.file with
  | some file => return ⟨file, p.style.getD .plain⟩
  | none => throw (.usage .missingFile)

/-- The answer to the `help` command: each word names a command of the one before it. -/
def helpFor : List String → Refusal
  | [] => .help .program
  | "tokenize" :: rest => below .tokenizeFull rest
  | "help" :: rest => below .helpCommand rest
  | word :: _ => .usage (.unknownCommand word)
where
  /-- Neither command has commands below it. -/
  below (topic : HelpTopic) : List String → Refusal
    | [] => .help topic
    | word :: _ => .usage (.unknownCommand word)

/-- What a first word is that is no command. -/
def notCommand (word : String) (rest : List String) : Refusal :=
  match Word.ofText word.toList with
  | .separator =>
      match rest with
      | [] => .usage .noCommand
      | next :: _ =>
          if next = "tokenize" || next = "help" then .usage (.unknownArgument next)
          else .usage (.unknownCommand next)
  | .long name value =>
      if name = "help".toList then
        match value with
        | none => .help .program
        | some v => .usage (.surplusValue "--help" (String.ofList v))
      else .usage (.unknownArgument (Word.longText name))
  | .short c =>
      if c = 'h' then .help .program else .usage (.unknownArgument (Word.shortText c))
  | .bare => .usage (.unknownCommand word)

/-- Reads a command line, without the name of the program. -/
def parse : List String → Except Refusal Request
  | [] => .error (.usage .noCommand)
  | "tokenize" :: words => ofArguments words
  | "help" :: words => .error (helpFor words)
  | word :: rest => .error (notCommand word rest)

end Request

end LoxLexer
