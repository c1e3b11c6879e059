import Statechart.Element
import Statechart.Instance
import Statechart.Guard
import Statechart.Model
import Statechart.Path
import Statechart.Program
import Statechart.Compile
import Statechart.Machine
import Statechart.Build
import Statechart.Violation
import Statechart.Context
import Statechart.Validation
import Statechart.Run
import Statechart.Evaluator
import Statechart.Evaluation
import Statechart.Recorder
import Statechart.Script
import Statechart.Json
import Statechart.Json.Writer
import Statechart.Json.Reader
import Statechart.Hex
import Statechart.Uuid
import Statechart.Instant
import Statechart.Instant.Reader
import Statechart.Snapshot
import Statechart.Snapshot.Binary
import Statechart.Snapshot.Json
import Statechart.Quoted.Hidden
import Statechart.Quoted
import Statechart.Proofs.Confinement
import Statechart.Proofs.Configurations
import Statechart.Proofs.Completions
import Statechart.Proofs.Alternation
import Statechart.Proofs.Coherence
import Statechart.Proofs.Dispatch
import Statechart.Proofs.Answers
import Statechart.Proofs.Freshness
import Statechart.Proofs.Checkpoints
import Statechart.Proofs.Splicing
import Statechart.Proofs.RoundTrips
import Statechart.Proofs.Decoding
import Statechart.Proofs.JsonSnapshots
import Statechart.Proofs.Pacing
import Statechart.Proofs.Verdicts
import Statechart.Proofs.QualifiedNames
import Statechart.Proofs.Exits
import Statechart.Proofs.Renaming
import Statechart.Proofs.Orthogonality
import Statechart.Proofs.Crossings
import Statechart.Proofs.Readiness
import Statechart.Proofs.Recalling
import Statechart.Proofs.Branching
import Statechart.Proofs.Terminating
import Statechart.Proofs.Restoring
import Statechart.Proofs.Truncation
import Statechart.Proofs.Refusals
import Statechart.Proofs.Resolution
import Statechart.Proofs.Waypoints
