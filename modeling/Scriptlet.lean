import Scriptlet.CommandLine
import Scriptlet.Main
import Scriptlet.Scope
import Scriptlet.Text.Buffer
import Scriptlet.Proofs.Keeps
import Scriptlet.Proofs.ScopeRestoration
import Scriptlet.Proofs.Grammar
import Scriptlet.Proofs.ExprGrammar
import Scriptlet.Proofs.StmtGrammar
import Scriptlet.Proofs.Lexing
import Scriptlet.Proofs.PrintedForm
import Scriptlet.Proofs.Activation
import Scriptlet.Proofs.Simulation
import Scriptlet.Proofs.Levels
import Scriptlet.Proofs.Restriction
import Scriptlet.Proofs.Staging
import Scriptlet.Proofs.Concatenation
import Scriptlet.Proofs.Coverage
import Scriptlet.Proofs.Relexing
import Scriptlet.Proofs.Trail
import Scriptlet.Proofs.CallValue
import Scriptlet.Proofs.Returning
import Scriptlet.Proofs.Tracing
import Scriptlet.Proofs.Tasks
import Scriptlet.Proofs.Guarantees
import Scriptlet.Proofs.ClosedWorld
import Scriptlet.Proofs.Continuation
import Scriptlet.Proofs.Tables
import Scriptlet.Proofs.Exit
import Scriptlet.Proofs.Comparison
import Scriptlet.Proofs.Halting
import Scriptlet.Proofs.Contents
import Scriptlet.Proofs.Nesting
import Scriptlet.Proofs.OperatorDepth
import Scriptlet.Proofs.Predictive
import Scriptlet.Proofs.PredictiveGrammar
import Scriptlet.Proofs.ViablePrefix
import Scriptlet.Proofs.Inheritance
import Scriptlet.Proofs.Securing
import Scriptlet.Proofs.ValueKinds
import Scriptlet.Proofs.Provenance
import Scriptlet.Proofs.Interleaving
import Scriptlet.Proofs.Checkpoints
import Scriptlet.Proofs.FailedUpdates
import Scriptlet.Proofs.PathAccess
import Scriptlet.Proofs.ForLoops
import Scriptlet.Proofs.Parameters
import Scriptlet.Proofs.Data
import Scriptlet.Proofs.ValueOrder
import Scriptlet.Proofs.Rendering
import Scriptlet.Proofs.Ends
import Scriptlet.Proofs.ExactIntegers
import Scriptlet.Proofs.LongestMatch
import Scriptlet.Proofs.MadeArrays
import Scriptlet.Proofs.CompoundAssignment
import Scriptlet.Proofs.PrintedData
import Scriptlet.Proofs.Opening
import Scriptlet.Proofs.HeldArrays
import Scriptlet.Proofs.Repetition
