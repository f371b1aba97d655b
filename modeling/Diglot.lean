import Diglot.Main
import Diglot.Proofs.Indented.Blocks
import Diglot.Proofs.Braced.Counting
import Diglot.Proofs.Indented.Balance
import Diglot.Proofs.WellFormed
import Diglot.Proofs.Locations
import Diglot.Proofs.Indented.BlankLines
import Diglot.Proofs.IndentWidth
import Diglot.Proofs.Serialized
import Diglot.Proofs.Build.Traceless
import Diglot.Proofs.Build.Interleaved
import Diglot.Proofs.Precedence
import Diglot.Proofs.Braced.Ranges
import Diglot.Proofs.Templates
import Diglot.Proofs.OutputPath
import Diglot.Proofs.Numerals
import Diglot.Proofs.Braced.Declared
import Diglot.Proofs.Composition
