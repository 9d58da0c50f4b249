import Gxl.Document.Outline
import Gxl.Main
import Gxl.Proofs.Token.Scan
import Gxl.Proofs.Token.Lossless
import Gxl.Proofs.Grammar.Combine
import Gxl.Proofs.Document.Layout
import Gxl.Proofs.Document.RoundTrip
import Gxl.Proofs.Grammar.FirstFault
import Gxl.Proofs.Token.Builtins
import Gxl.Proofs.Grammar.BuiltinCalls
import Gxl.Proofs.Grammar.Steady
import Gxl.Proofs.Grammar.Eager
import Gxl.Proofs.Grammar.Alternatives
import Gxl.Proofs.Document.WellFormed
import Gxl.Proofs.Grammar.SameSymbols
import Gxl.Proofs.Token.Extras
import Gxl.Proofs.Document.Faithful
import Gxl.Proofs.Document.ModuloSpans
import Gxl.Proofs.Tool.Sessions
import Gxl.Proofs.Document.Concatenation
import Gxl.Proofs.Error.Pointers
import Gxl.Proofs.Document.Semicolons
import Gxl.Proofs.Document.Slices
import Gxl.Proofs.Document.Log
import Gxl.Proofs.Token.Languages
import Gxl.Proofs.Document.Restarts
import Gxl.Proofs.Tool.Checks
import Gxl.Proofs.Tool.Presentation
import Gxl.Proofs.Token.Progress
import Gxl.Proofs.Document.Safety
