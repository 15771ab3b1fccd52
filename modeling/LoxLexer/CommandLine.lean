import LoxLexer.CommandLine.Request
import LoxLexer.Run
import LoxLexer.Directory

/-!
# The command line

From the words of a command line to what is written and the exit status. Status 0 means a script
without errors, or help; 65 a script with lexical errors; 1 that the script could not be read; 2
that the command line is wrong.

Reading the script is all that is asked of the surroundings, and how that is done is left open
(`Outcome.ofWordsM`): the program reads files, and `Outcome.ofWords` looks into a given directory.
-/

namespace LoxLexer

/-- What the program writes, and its exit status. -/
structure Outcome where
  status : Nat
  stdout : String
  stderr : String
deriving DecidableEq, Repr

namespace Outcome

/-- Help goes to the standard output, what is wrong to the error output. -/
def ofRefusal : Refusal → Outcome
  | .help topic => ⟨0, topic.page, ""⟩
  | .usage error => ⟨2, "", error.message ++ "\n"⟩

/-- A script that cannot be read. -/
def ofReadError (file : String) (error : ReadError) : Outcome :=
  ⟨1, "", "Error: script `" ++ file ++ "`\n\nCaused by:\n    " ++ error.reason ++ "\n"⟩

def ofRun (run : Run) : Outcome :=
  ⟨if run.clean then 0 else 65, run.listing, run.report⟩

/-- The answer to a request, given what reading its file brought. -/
def ofRequest (request : Request) (content : Except ReadError ByteArray) : Outcome :=
  match content.bind Script.decode with
  | .ok source => ofRun (Run.ofSource request.file source request.style)
  | .error error => ofReadError request.file error

/-- The outcome of a command line, where `read` brings the bytes of the file with a name. It is
asked for the file word as that was written, and only if the command line is accepted. -/
def ofWordsM {m : Type → Type} [Monad m] (read : String → m (Except ReadError ByteArray))
    (words : List String) : m Outcome :=
  match Request.parse words with
  | .ok request => do
      let content ← read request.file
      return ofRequest request content
  | .error refusal => return ofRefusal refusal

/-- The outcome of a command line among the files of a directory. -/
def ofWords (d : Directory) (words : List String) : Outcome :=
  Id.run (ofWordsM (fun path => pure (d.read path)) words)

end Outcome

end LoxLexer
