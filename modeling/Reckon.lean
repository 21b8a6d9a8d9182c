import Reckon.Text.Blank
import Reckon.Text.DecimalDigit
import Reckon.Text.Printable
import Reckon.Text.Quoted
import Reckon.Number.Double
import Reckon.Number.Decimal
import Reckon.Number.Shortest
import Reckon.Number.Spelling
import Reckon.Number.Numeral
import Reckon.Datum
import Reckon.Operator
import Reckon.Token
import Reckon.Refusal
import Reckon.Journal
import Reckon.Register
import Reckon.Infix.Lexeme
import Reckon.Infix.Conversion
import Reckon.Postfix.Words
import Reckon.Postfix.Depth
import Reckon.Value.Scalar
import Reckon.Value.Tensor
import Reckon.Value.Series
import Reckon.Value.Basic
import Reckon.Item
import Reckon.Binding
import Reckon.Postfix.Evaluation
import Reckon.Settings
import Reckon.Infix.Consulted
import Reckon.Expression
import Reckon.Frame
import Reckon.Formula
import Reckon.Session
import Reckon.Proofs.Lexemes
import Reckon.Proofs.Reach
import Reckon.Proofs.Tree
import Reckon.Proofs.Grammar
import Reckon.Proofs.Reading
import Reckon.Proofs.Balance
import Reckon.Proofs.Scalars
import Reckon.Proofs.Acceptance
import Reckon.Proofs.Double
import Reckon.Proofs.Nearest
import Reckon.Proofs.Numerals
import Reckon.Proofs.RoundTrip
import Reckon.Proofs.Shortage
import Reckon.Proofs.Cut
import Reckon.Proofs.Stops
import Reckon.Proofs.Variables
import Reckon.Proofs.Relocation
import Reckon.Proofs.Replacing
import Reckon.Proofs.Barriers
import Reckon.Proofs.Agreement
import Reckon.Proofs.Cellwise
import Reckon.Proofs.Columns
import Reckon.Proofs.Rows
import Reckon.Proofs.Brackets
import Reckon.Proofs.Offence
import Reckon.Proofs.Outcomes
import Reckon.Proofs.Isolation
import Reckon.Proofs.Places
import Reckon.Proofs.Conservation
import Reckon.Proofs.Insertion
import Reckon.Proofs.Chains
import Reckon.Proofs.Delivery
import Reckon.Proofs.Substitution
import Reckon.Proofs.Elements
import Reckon.Proofs.Faults
import Reckon.Proofs.Vocabulary
import Reckon.Proofs.Sources
import Reckon.Proofs.Turns
import Reckon.Proofs.Arrangement
import Reckon.Proofs.Longest
