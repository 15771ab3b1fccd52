import LoxLexer.Text.ControlSequence

/-!
# Help and usage errors

The texts that the command line answers with when it is asked for help, and the ways in which its
words can be wrong. A message quotes the word that is wrong, without what would steer the terminal
it is shown on.
-/

namespace LoxLexer

/-- What help is asked for: the program, its one command in short or in full, or the help
command. -/
inductive HelpTopic where
  | program | tokenizeBrief | tokenizeFull | helpCommand
deriving DecidableEq, Repr

/-- The lines of the help page on a topic. -/
def HelpTopic.lines : HelpTopic → List String
  | program => [
      "Usage: lox <COMMAND>",
      "",
      "Commands:",
      "  tokenize  Print the tokens of a script, one per line",
      "  help      Print this message or the help of the given subcommand(s)",
      "",
      "Options:",
      "  -h, --help  Print help"]
  | tokenizeBrief => [
      "Print the tokens of a script, one per line",
      "",
      "Usage: lox tokenize [OPTIONS] <FILE>",
      "",
      "Arguments:",
      "  <FILE>  Script to scan",
      "",
      "Options:",
      "      --diagnostics <DIAGNOSTICS>  How lexical errors are reported on stderr " ++
        "[default: plain] [possible values: plain, pretty]",
      "  -h, --help                       Print help (see more with '--help')"]
  | tokenizeFull => [
      "Print the tokens of a script, one per line",
      "",
      "Usage: lox tokenize [OPTIONS] <FILE>",
      "",
      "Arguments:",
      "  <FILE>",
      "          Script to scan",
      "",
      "Options:",
      "      --diagnostics <DIAGNOSTICS>",
      "          How lexical errors are reported on stderr",
      "",
      "          Possible values:",
      "          - plain:  `[line N] Error: message`",
      "          - pretty: Annotated source excerpt",
      "          ",
      "          [default: plain]",
      "",
      "  -h, --help",
      "          Print help (see a summary with '-h')"]
  | helpCommand => [
      "Print this message or the help of the given subcommand(s)",
      "",
      "Usage: lox help [COMMAND]...",
      "",
      "Arguments:",
      "  [COMMAND]...  Print help for the subcommand(s)"]

/-- The help page, each of its lines ended. -/
def HelpTopic.page (topic : HelpTopic) : String :=
  String.join (topic.lines.map (· ++ "\n"))

/-- What is wrong with the words of a command line. -/
inductive UsageError where
  /-- There is no command at all. -/
  | noCommand
  | unknownCommand (word : String)
  /-- An option that there is not, or a word too many. -/
  | unknownArgument (word : String)
  /-- A value for an option that takes none. -/
  | surplusValue (option value : String)
  | missingFile
  /-- A parameter without its value; an empty value counts as none. -/
  | missingValue (parameter : String)
  | invalidValue (parameter value : String)
  | repeatedOption (parameter : String)
deriving DecidableEq, Repr

/-- The part of a text before its first line end: a line feed, or a carriage return and a line
feed. -/
def firstLine : List Char → List Char
  | [] => []
  | '\r' :: '\n' :: _ => []
  | c :: cs => if c = '\n' then [] else c :: firstLine cs

theorem newline_notMem_firstLine (cs : List Char) : '\n' ∉ firstLine cs := by
  fun_induction firstLine cs <;> simp_all [eq_comm]

namespace UsageError

/-- A word as messages show it. -/
def shown (word : String) : String :=
  String.ofList (Text.visible word.toList)

/-- What is wrong, as a sentence. -/
def sentence : UsageError → String
  | noCommand => "Usage: lox <COMMAND>"
  | unknownCommand word => "error: unrecognized subcommand '" ++ shown word ++ "'"
  | unknownArgument word => "error: unexpected argument '" ++ shown word ++ "' found"
  | surplusValue option value =>
      "error: unexpected value '" ++ shown value ++ "' for '" ++ option ++
        "' found; no more were expected"
  | missingFile => "error: the following required arguments were not provided:"
  | missingValue parameter =>
      "error: a value is required for '" ++ parameter ++ "' but none was supplied"
  | invalidValue parameter value =>
      "error: invalid value '" ++ shown value ++ "' for '" ++ parameter ++ "'"
  | repeatedOption parameter =>
      "error: the argument '" ++ parameter ++ "' cannot be used multiple times"

/-- The error on one line, without a line end. Of a word that holds a line end only the part before
it is shown. -/
def message (e : UsageError) : String :=
  String.ofList (firstLine e.sentence.toList)

end UsageError

end LoxLexer
