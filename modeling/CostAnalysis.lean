import CostAnalysis.Text.Lowercase
import CostAnalysis.Text.WordChar
import CostAnalysis.Report.Json
import CostAnalysis.Algebra.Formula.Reader
import CostAnalysis.Algebra.ClosedForm
import CostAnalysis.Algebra.Growth
import CostAnalysis.Algebra.SymbolTable
import CostAnalysis.Source.Parser
import CostAnalysis.Report.ProgramJson
import CostAnalysis.Settings.Basic
import CostAnalysis.Cost.Basic
import CostAnalysis.Cost.Operations
import CostAnalysis.Cost.Report
import CostAnalysis.Report.CostJson
import CostAnalysis.Source.SelfCalls
import CostAnalysis.Settings.Document
import CostAnalysis.Analysis.Failure
import CostAnalysis.Recurrence.Basic
import CostAnalysis.Recurrence.Work
import CostAnalysis.Recurrence.Reader
import CostAnalysis.Recurrence.Method.Master
import CostAnalysis.Recurrence.Method.Iteration
import CostAnalysis.Recurrence.Solution
import CostAnalysis.Recurrence.Derived
import CostAnalysis.Recurrence.Space
import CostAnalysis.Report.AnalysisJson
import CostAnalysis.Source.Decode
import CostAnalysis.Settings.Load
import CostAnalysis.Main
import CostAnalysis.Proofs.Assoc
import CostAnalysis.Proofs.Scalar
import CostAnalysis.Proofs.Reading
import CostAnalysis.Proofs.Poly.Order
import CostAnalysis.Proofs.Poly.Sum
import CostAnalysis.Proofs.Poly.Plain
import CostAnalysis.Proofs.Poly.Uniqueness
import CostAnalysis.Proofs.PowerSum
import CostAnalysis.Proofs.ClosedSum
import CostAnalysis.Proofs.GeometricSum
import CostAnalysis.Proofs.Simplification
import CostAnalysis.Proofs.Cost.Simulation
import CostAnalysis.Proofs.Cost.Attribution
import CostAnalysis.Proofs.Formula.RoundTrip
import CostAnalysis.Proofs.Formula.Overflow
import CostAnalysis.Proofs.Formula.Lenient
import CostAnalysis.Proofs.Source.Tokens
import CostAnalysis.Proofs.Source.Operations
import CostAnalysis.Proofs.Source.Spans
import CostAnalysis.Proofs.Cost.Order
import CostAnalysis.Proofs.Cost.Bracket
import CostAnalysis.Proofs.Degradation
import CostAnalysis.Proofs.NormalForm
import CostAnalysis.Proofs.Poly.Elementary
import CostAnalysis.Proofs.Poly.Text
import CostAnalysis.Proofs.Poly.Factored
import CostAnalysis.Proofs.Poly.RoundTrip
import CostAnalysis.Proofs.Poly.Extrema
import CostAnalysis.Proofs.Idempotence
import CostAnalysis.Proofs.Equality
import CostAnalysis.Proofs.Recurrence.Methods
import CostAnalysis.Proofs.Cost.LoopNames
import CostAnalysis.Proofs.Recurrence.Addends
import CostAnalysis.Proofs.Source.Positions
import CostAnalysis.Proofs.Source.Starts
import CostAnalysis.Proofs.Cost.LineTexts
import CostAnalysis.Proofs.Growth
import CostAnalysis.Proofs.Source.Decode
import CostAnalysis.Proofs.Recurrence.WorkTexts
import CostAnalysis.Proofs.Recurrence.RoundTrip
import CostAnalysis.Proofs.Recurrence.Confidence
import CostAnalysis.Proofs.Recurrence.WorkClass
import CostAnalysis.Proofs.Cost.Traversal
import CostAnalysis.Proofs.Growth.Products
import CostAnalysis.Proofs.Growth.Roots
import CostAnalysis.Proofs.Recurrence.LinearChain
import CostAnalysis.Proofs.Recurrence.WithoutCalls
import CostAnalysis.Proofs.Recurrence.Counting
import CostAnalysis.Proofs.Recurrence.Auxiliaries
import CostAnalysis.Proofs.Source.Precedence
import CostAnalysis.Proofs.Exactness
import CostAnalysis.Proofs.Recurrence.Terms
import CostAnalysis.Proofs.Formula.Variables
import CostAnalysis.Proofs.Poly.Listed
import CostAnalysis.Proofs.Poly.Laurent
import CostAnalysis.Proofs.Formula.Laurent
import CostAnalysis.Proofs.Formula.Arithmetic
import CostAnalysis.Proofs.Formula.Resolved
import CostAnalysis.Proofs.Recurrence.Characteristic
import CostAnalysis.Proofs.Recurrence.Words
import CostAnalysis.Proofs.Recurrence.LogPowers
import CostAnalysis.Proofs.Source.Progress
