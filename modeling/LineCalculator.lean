import LineCalculator.Highlight
import LineCalculator.Main
import LineCalculator.Prompt
import LineCalculator.Proofs.Binary64.FlooredQuotient
import LineCalculator.Proofs.Binary64.FlooredRemainder
import LineCalculator.Proofs.Binary64.IntegerDivision
import LineCalculator.Proofs.Binary64.IntegerPower
import LineCalculator.Proofs.Binary64.Nearest
import LineCalculator.Proofs.Binary64.RationalArithmetic
import LineCalculator.Proofs.Binary64.SignedRounding
import LineCalculator.Proofs.Binary64.Thresholds
import LineCalculator.Proofs.Binary64.Undefined
import LineCalculator.Proofs.Decimal.Canonical
import LineCalculator.Proofs.Decimal.Digits
import LineCalculator.Proofs.Decimal.Minimal
import LineCalculator.Proofs.Decimal.Neighbours
import LineCalculator.Proofs.Decimal.Positional
import LineCalculator.Proofs.Decimal.Rationals
import LineCalculator.Proofs.Decimal.Reading
import LineCalculator.Proofs.Decimal.Shortest
import LineCalculator.Proofs.Expression.Acceptance
import LineCalculator.Proofs.Expression.Evaluation
import LineCalculator.Proofs.Expression.Faults
import LineCalculator.Proofs.Expression.FlooredDivision
import LineCalculator.Proofs.Expression.Grammar
import LineCalculator.Proofs.Expression.Printing
import LineCalculator.Proofs.Expression.Records
import LineCalculator.Proofs.Expression.Results
import LineCalculator.Proofs.Expression.Retyping
import LineCalculator.Proofs.Expression.ShortestResults
import LineCalculator.Proofs.Expression.TokenLists
import LineCalculator.Proofs.Expression.TouchingTokens
import LineCalculator.Proofs.Expression.UndefinedResults
import LineCalculator.Proofs.Expression.WholeNumbers
import LineCalculator.Proofs.Highlight.Agreement
import LineCalculator.Proofs.Highlight.Cover
import LineCalculator.Proofs.Session.Console
import LineCalculator.Proofs.Session.IntegerLines
import LineCalculator.Proofs.Session.Kinds
import LineCalculator.Proofs.Session.Limited
import LineCalculator.Proofs.Session.Lines
import LineCalculator.Proofs.Session.RespelledLines
import LineCalculator.Proofs.Session.RoundedLines
import LineCalculator.Proofs.Session.Transcript
import LineCalculator.Proofs.Text.Classes
import LineCalculator.Proofs.Text.DigitRuns
import LineCalculator.Proofs.Text.DigitTables
import LineCalculator.Proofs.Text.Respelling
import LineCalculator.Proofs.Token.Adjacency
import LineCalculator.Proofs.Token.Concatenation
import LineCalculator.Proofs.Token.Cursor
import LineCalculator.Proofs.Token.Layout
import LineCalculator.Proofs.Token.LongestMatch
import LineCalculator.Proofs.Token.NumberValues
import LineCalculator.Proofs.Token.Numerals
import LineCalculator.Proofs.Token.Progress
import LineCalculator.Proofs.Token.Respelling
import LineCalculator.Proofs.Token.Tiling
