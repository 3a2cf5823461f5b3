import WireSolve.Circuit.Draft
import WireSolve.Circuit.Matrices
import WireSolve.Circuit.RangeCheck
import WireSolve.Circuit.Session
import WireSolve.Circuit.Transcript
import WireSolve.Semantics
import WireSolve.Solve.Solution
import WireSolve.Solve.Turns
import WireSolve.Proofs.Assignment
import WireSolve.Proofs.Evaluation
import WireSolve.Proofs.Step.Rank1
import WireSolve.Proofs.Step.Gate
import WireSolve.Proofs.Solve.Invariant
import WireSolve.Proofs.Solve.Couples
import WireSolve.Proofs.Solve.Nesting
import WireSolve.Proofs.Blame
import WireSolve.Proofs.Chained
import WireSolve.Proofs.Shortcuts
import WireSolve.Proofs.Circuit.Check
import WireSolve.Proofs.Circuit.Layout
import WireSolve.Proofs.Circuit.Naming
import WireSolve.Proofs.Circuit.RangeCheck
import WireSolve.Proofs.Csr.Dense
import WireSolve.Proofs.Exact
import WireSolve.Proofs.Exported
import WireSolve.Proofs.Faithful
import WireSolve.Proofs.Hint.Builtin
import WireSolve.Proofs.Hint.Id
import WireSolve.Proofs.Linear
import WireSolve.Proofs.Multiplication
import WireSolve.Proofs.RangeCheck
import WireSolve.Proofs.Rendering
import WireSolve.Proofs.Repeated
import WireSolve.Proofs.Solve.Cycle
import WireSolve.Proofs.SourceMap
import WireSolve.Proofs.Structural
import WireSolve.Proofs.Text.Template
import WireSolve.Proofs.Turns
import WireSolve.Proofs.Verdict
import WireSolve.Proofs.WriteOnce
