import Formula.Main
import Formula.Proofs.Characters
import Formula.Proofs.Token.Context
import Formula.Proofs.Part.Leaves
import Formula.Proofs.Compilation
import Formula.Proofs.Tiling
import Formula.Proofs.Token.Separation
import Formula.Proofs.Printing
import Formula.Proofs.Token.Standard
import Formula.Proofs.Grammar.Basic
import Formula.Proofs.Grammar.Standard
import Formula.Proofs.InOrder
import Formula.Proofs.Signs
import Formula.Proofs.Arguments
import Formula.Proofs.Arity
import Formula.Proofs.Token.Congruence
import Formula.Proofs.Relevance
import Formula.Proofs.Token.Enclosed
import Formula.Proofs.Composition
import Formula.Proofs.Variation.Basic
import Formula.Proofs.Variation.Compilation
import Formula.Proofs.Variation.Building
import Formula.Proofs.Substitution
import Formula.Proofs.Variation.Neighbours
import Formula.Proofs.WrittenProduct
import Formula.Proofs.Parentheses.Matching
import Formula.Proofs.Parentheses.Building
import Formula.Proofs.Part.Outline
import Formula.Proofs.WellFormed
import Formula.Proofs.Parentheses
import Formula.Proofs.Relabelling.Basic
import Formula.Proofs.Relabelling.Building
import Formula.Proofs.Relabelling.Parse
import Formula.Proofs.Relabelling.Compilation
import Formula.Proofs.LetterCase
import Formula.Proofs.Spacing
import Formula.Proofs.Collapse
import Formula.Proofs.Places
import Formula.Proofs.Slots
import Formula.Proofs.Tables
import Formula.Proofs.Token.Numerals
import Formula.Proofs.Numerals
import Formula.Proofs.Bindings
import Formula.Proofs.Evaluation
import Formula.Proofs.Precedence
import Formula.Proofs.Assignments
import Formula.Proofs.Lines
import Formula.Proofs.Responses
import Formula.Proofs.Sessions
import Formula.Proofs.FrontEnds
import Formula.Proofs.NegativeNumbers
import Formula.Proofs.UnknownIdentifiers
import Formula.Proofs.Token.SecondPoints
import Formula.Proofs.Grammar.Inversion
import Formula.Proofs.UnknownRuns
import Formula.Proofs.UnknownOperands
import Formula.Proofs.Leading.Reduction
import Formula.Proofs.Leading.Building
import Formula.Proofs.LeadingMinus
import Formula.Proofs.Stretches
import Formula.Proofs.Registry.Building
import Formula.Proofs.Hints
import Formula.Proofs.Symbol.Positions
import Formula.Proofs.Token.Pieces
import Formula.Proofs.Scan.Basic
import Formula.Proofs.Scan.Progress
import Formula.Proofs.Scan.Alignment
import Formula.Proofs.Scan.Agreement
import Formula.Proofs.Scan
