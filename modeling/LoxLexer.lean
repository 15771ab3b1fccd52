import LoxLexer.Main
import LoxLexer.Proofs.LongestMatch
import LoxLexer.Proofs.NumberText
import LoxLexer.Proofs.Printing
import LoxLexer.Proofs.Touching
import LoxLexer.Scan.Comparison
import LoxLexer.Proofs.Lookahead
import LoxLexer.Proofs.Lines
import LoxLexer.Proofs.Modes
import LoxLexer.Proofs.Marks
import LoxLexer.Proofs.Tiling
import LoxLexer.Proofs.LineNumbers
import LoxLexer.Proofs.Listing
import LoxLexer.Proofs.Comments
import LoxLexer.Proofs.LineEnds
import LoxLexer.Proofs.Location
import LoxLexer.Proofs.ExitStatus
import LoxLexer.Proofs.NumberDisplay
import LoxLexer.Proofs.Restart
import LoxLexer.Proofs.OpenString
import LoxLexer.Proofs.CharacterRanges
import LoxLexer.Proofs.Delivery
import LoxLexer.Proofs.Coloring
import LoxLexer.Proofs.CommandGrammar
import LoxLexer.Proofs.Equality
import LoxLexer.Proofs.Cursors
import LoxLexer.Scan.Reader
import LoxLexer.Proofs.CursorAgreement
