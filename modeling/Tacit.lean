import Tacit.Main
import Tacit.Proofs.Eval.Steps
import Tacit.Proofs.Store.Growth
import Tacit.Proofs.Store.Text
import Tacit.Proofs.Builtin.Access
import Tacit.Proofs.Builtin.Odometer
import Tacit.Proofs.Eval.Agreement
import Tacit.Proofs.Eval.Depth
import Tacit.Proofs.Eval.Halting
import Tacit.Proofs.Eval.Nesting
import Tacit.Proofs.Eval.Pending
import Tacit.Proofs.Eval.Report
import Tacit.Proofs.Eval.Termination
import Tacit.Proofs.Session.Immutable
import Tacit.Proofs.Session.Names
import Tacit.Proofs.Session.Observation
import Tacit.Proofs.Session.Safe
import Tacit.Proofs.Session.Script
import Tacit.Proofs.Source.Derivable
import Tacit.Proofs.Source.ParseLines
import Tacit.Proofs.Source.ScanShown
import Tacit.Proofs.Source.Readback
import Tacit.Proofs.Eval.Interchange
import Tacit.Proofs.Eval.Transparency
import Tacit.Proofs.Session.Dialogue
import Tacit.Proofs.Builtin.Dispatch
import Tacit.Proofs.Eval.Calls
import Tacit.Proofs.Builtin.Candidates
import Tacit.Proofs.Eval.Filling
import Tacit.Proofs.Builtin.Resolution
import Tacit.Proofs.Eval.Completion
import Tacit.Proofs.Eval.Overloads
import Tacit.Proofs.Eval.Stages
import Tacit.Proofs.Eval.Abstraction
import Tacit.Proofs.Eval.Naming
import Tacit.Proofs.Eval.Scans
import Tacit.Proofs.Eval.Sums
import Tacit.Proofs.Eval.Wrapping
import Tacit.Proofs.Source.Scanned
import Tacit.Proofs.Source.Effects
import Tacit.Proofs.Source.Refused
import Tacit.Proofs.Eval.Atomic
import Tacit.Proofs.Session.Stages
import Tacit.Proofs.Eval.Fusion
import Tacit.Proofs.Eval.Picking
import Tacit.Proofs.Double.Text
