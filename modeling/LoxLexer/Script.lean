/-!
# Scripts

A script is a file whose bytes are UTF-8. Where it cannot be read, the reason is told in the words
of the operating system; a file that is not UTF-8 is a reason of its own.
-/

namespace LoxLexer

/-- Why a script cannot be read. -/
inductive ReadError where
  | missing
  | notDirectory
  | isDirectory
  | nameTooLong
  | notUtf8
  | other (reason : String)
deriving DecidableEq, Repr

def ReadError.reason : ReadError → String
  | missing => "No such file or directory (os error 2)"
  | notDirectory => "Not a directory (os error 20)"
  | isDirectory => "Is a directory (os error 21)"
  | nameTooLong => "File name too long (os error 36)"
  | notUtf8 => "stream did not contain valid UTF-8"
  | other reason => reason

/-- The text that the bytes of a script encode. Only well-formed UTF-8 encodes one. -/
def Script.decode (bytes : ByteArray) : Except ReadError String :=
  match String.fromUTF8? bytes with
  | some source => .ok source
  | none => .error .notUtf8

end LoxLexer
