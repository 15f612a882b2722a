import LambdaInt.Main
import LambdaInt.Term.Alpha
import LambdaInt.Term.Shape
import LambdaInt.Step
import LambdaInt.Grammar
import LambdaInt.Printable
import LambdaInt.Proofs.Evaluation
import LambdaInt.Proofs.Hygiene
import LambdaInt.Proofs.NormalForm
import LambdaInt.Proofs.Grouping
import LambdaInt.Proofs.Nesting
import LambdaInt.Proofs.Parsing
import LambdaInt.Proofs.Reading
import LambdaInt.Proofs.Restoring
import LambdaInt.Proofs.History
import LambdaInt.Proofs.Lines
import LambdaInt.Proofs.Transcripts
import LambdaInt.Proofs.Resolution
import LambdaInt.Proofs.Soundness
import LambdaInt.Proofs.Confluence
import LambdaInt.Proofs.Conservation
import LambdaInt.Proofs.Currying
import LambdaInt.Proofs.Uniqueness
import LambdaInt.Proofs.DepthGuard
import LambdaInt.Proofs.Settling
import LambdaInt.Proofs.Failing
import LambdaInt.Proofs.AppliedLiterals
import LambdaInt.Proofs.Alpha
import LambdaInt.Proofs.BinderStacks
import LambdaInt.Proofs.Readings
import LambdaInt.Proofs.Computation
import LambdaInt.Proofs.BetaLaw
import LambdaInt.Proofs.Values
import LambdaInt.Proofs.Deepening
import LambdaInt.Proofs.Associativity
import LambdaInt.Proofs.Undefined
import LambdaInt.Proofs.Calls
import LambdaInt.Proofs.Addition
import LambdaInt.Proofs.Stages
import LambdaInt.Proofs.Agreement
import LambdaInt.Proofs.AlphaInvariance
import LambdaInt.Proofs.Noninterference
import LambdaInt.Proofs.Inlining
import LambdaInt.Proofs.FirstFault
import LambdaInt.Proofs.Balance
import LambdaInt.Proofs.Lexemes
import LambdaInt.Proofs.Fragments
import LambdaInt.Proofs.Layout
import LambdaInt.Proofs.BigStep
import LambdaInt.Proofs.Church
import LambdaInt.Proofs.AlphaLaws
import LambdaInt.Proofs.VariableRenaming
import LambdaInt.Proofs.FreshNames
import LambdaInt.Proofs.Lookups
