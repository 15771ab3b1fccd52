import LoxLexer.Report
import LoxLexer.Scan

/-!
# Running a script

Running a script lists its tokens, one on a line, and reports its errors on another channel, in
colour where the style has any. The run is clean if there is no error.
-/

namespace LoxLexer

/-- What a run answers and writes. -/
structure Run where
  clean : Bool
  listing : String
  report : String
deriving DecidableEq, Repr

/-- The tokens of a scan, each on its line. -/
def Scan.listing (s : Scan) : List Char :=
  s.tokens.flatMap fun t => t.text ++ ['\n']

/-- Runs a source that is known by the given path. -/
def Run.ofSource (path source : String) (style : Style) : Run :=
  let s := scan source
  ⟨!s.hasError, String.ofList s.listing,
    String.ofList (Report.text ⟨path, source, style, true⟩ s.errors)⟩

end LoxLexer
