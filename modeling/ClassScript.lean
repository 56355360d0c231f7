import ClassScript.Main
import ClassScript.Session
import ClassScript.Proofs.Grammar
import ClassScript.Proofs.Computation
import ClassScript.Proofs.Grammar.Soundness
import ClassScript.Proofs.Grammar.Completeness
import ClassScript.Proofs.Grammar.Correctness
import ClassScript.Proofs.Syntax
import ClassScript.Proofs.Grammar.Trees
import ClassScript.Proofs.Scoping
import ClassScript.Proofs.ScopeAgreement
import ClassScript.Proofs.Visits
import ClassScript.Proofs.Execution
import ClassScript.Proofs.Frames
import ClassScript.Proofs.ScopeSafety
import ClassScript.Proofs.CheckedVisits
import ClassScript.Proofs.TypeSafety.Programs
import ClassScript.Proofs.TypeSafety.Values
import ClassScript.Proofs.TypeSafety.Steps
import ClassScript.Proofs.TypeSafety
import ClassScript.Proofs.Pieces
import ClassScript.Proofs.Layout
import ClassScript.Proofs.Grammar.Trails
import ClassScript.Proofs.Grammar.Steps
import ClassScript.Proofs.Grammar.Recovery
import ClassScript.Proofs.Grammar.FaultOrder
import ClassScript.Proofs.WellScoped
import ClassScript.Proofs.ScopeDecision
import ClassScript.Proofs.Erasure.Trees
import ClassScript.Proofs.Erasure.Parsing
import ClassScript.Proofs.Erasure.Checking
import ClassScript.Proofs.Erasure.Running
import ClassScript.Proofs.Effects
import ClassScript.Proofs.Erasure
import ClassScript.Proofs.OutputLimit
import ClassScript.Proofs.ClassSafety
import ClassScript.Proofs.ReceiverCalls
import ClassScript.Proofs.CodeRules
import ClassScript.Proofs.Courses
import ClassScript.Proofs.Events
import ClassScript.Proofs.Fuel
import ClassScript.Proofs.Positions
import ClassScript.Proofs.Initializers
import ClassScript.Proofs.StaticReports
import ClassScript.Proofs.Diagnostics
import ClassScript.Proofs.MethodFrames
import ClassScript.Proofs.SuperCalls
import ClassScript.Proofs.Compatibility
import ClassScript.Proofs.CheckerInvariants
import ClassScript.Proofs.GenericTypes
import ClassScript.Proofs.TernaryCallees
import ClassScript.Proofs.Reachability
import ClassScript.Proofs.Respacing
import ClassScript.Proofs.Comments
import ClassScript.Proofs.FrameChains
import ClassScript.Proofs.Printing
import ClassScript.Proofs.ScopeHistories
import ClassScript.Proofs.SuperclassChains
import ClassScript.Proofs.CheckerSteps
import ClassScript.Proofs.KnownClasses
