import RpnTape.Interpret
import RpnTape.Main
import RpnTape.Proofs.Formula.Grammar
import RpnTape.Proofs.Formula.Reading
import RpnTape.Proofs.Machine.Compilation
import RpnTape.Proofs.Machine.Formulas
import RpnTape.Proofs.Machine.Order
import RpnTape.Proofs.Machine.Source
import RpnTape.Proofs.Machine.Steps
import RpnTape.Proofs.Tape.PostOrder
import RpnTape.Proofs.Tape.Unfolding
import RpnTape.Proofs.Typesetter.Answers
import RpnTape.Proofs.Typesetter.Expansion
import RpnTape.Proofs.Typesetter.Traversal
import RpnTape.Proofs.Machine.Rejection
import RpnTape.Proofs.Machine.Outline
import RpnTape.Proofs.Machine.Values
import RpnTape.Proofs.Machine.Equations
import RpnTape.Proofs.Machine.Concatenation
import RpnTape.Proofs.Cli.Agreement
import RpnTape.Proofs.Formula.Application
import RpnTape.Proofs.Formula.Line
import RpnTape.Proofs.Formula.LineBreaks
import RpnTape.Proofs.Formula.Linear
import RpnTape.Proofs.Formula.Markup
import RpnTape.Proofs.Formula.Parentheses
import RpnTape.Proofs.Formula.Spacing
import RpnTape.Proofs.Machine.Names
import RpnTape.Proofs.Machine.Stability
import RpnTape.Proofs.Machine.Texts
import RpnTape.Proofs.Number.Display
import RpnTape.Proofs.Text.Words
import RpnTape.Proofs.Typesetter.Layouts
import RpnTape.Proofs.Number.Numerals
import RpnTape.Proofs.Number.Scanning
import RpnTape.Proofs.Json.Grammar
import RpnTape.Proofs.Json.Reader
import RpnTape.Proofs.Report.Reconstruction
import RpnTape.Proofs.Number.ReadBack
import RpnTape.Proofs.Text.Grammar
import RpnTape.Proofs.Text.Splitting
import RpnTape.Proofs.Cli.Tokens
import RpnTape.Proofs.Machine.Variables
import RpnTape.Proofs.Text.ByteOrder
import RpnTape.Proofs.Environment.LastWrites
import RpnTape.Proofs.Number.Comparison
import RpnTape.Proofs.Formula.Signs
