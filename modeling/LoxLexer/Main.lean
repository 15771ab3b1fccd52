import LoxLexer.CommandLine

/-!
The program: reads the script that the command line asks for, and writes the outcome.
-/

open LoxLexer

/-- The number of a system error, which may be given negated. -/
def systemErrorNumber (code : UInt32) : UInt32 := min code (0 - code)

/-- The cause of a failed reading. -/
def readErrorOf : IO.Error → ReadError
  | .noFileOrDirectory .. => .missing
  | .inappropriateType _ code _ =>
      if systemErrorNumber code = 20 then .notDirectory else .isDirectory
  | .invalidArgument _ code details =>
      if systemErrorNumber code = 36 then .nameTooLong else .other details
  | error => .other (toString error)

def readScript (file : String) : IO (Except ReadError ByteArray) := do
  try
    return .ok (← IO.FS.readBinFile file)
  catch error =>
    return .error (readErrorOf error)

def main (words : List String) : IO UInt32 := do
  let outcome ← Outcome.ofWordsM readScript words
  (← IO.getStderr).putStr outcome.stderr
  (← IO.getStdout).putStr outcome.stdout
  return UInt32.ofNat outcome.status
