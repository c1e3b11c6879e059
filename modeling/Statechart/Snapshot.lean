import Statechart.Build
import Statechart.Instant
import Statechart.Uuid

/-!
# Snapshots

A snapshot keeps the records of an instance by the names of states and regions, as a tree. It stays meaningful for
another machine that has the same names in the same places.
-/

namespace Statechart

/-! ## Trees of names -/

mutual

inductive StateNode where
  | mk (name : String) (regions : List RegionNode)

/-- A region with the vertex recorded for it and its composite states. -/
inductive RegionNode where
  | mk (name : String) (current : Option String) (states : List StateNode)

end

namespace StateNode

def name : StateNode → String
  | .mk name _ => name

def regions : StateNode → List RegionNode
  | .mk _ regions => regions

end StateNode

namespace RegionNode

def name : RegionNode → String
  | .mk name _ _ => name

def current : RegionNode → Option String
  | .mk _ current _ => current

def states : RegionNode → List StateNode
  | .mk _ _ states => states

end RegionNode

structure Snapshot where
  version : UInt32
  id : Uuid
  timestamp : Instant
  machine : String
  terminated : Bool
  root : StateNode

namespace Snapshot

/-- The version of snapshots that are written and read here. -/
def currentVersion : UInt32 := 1

end Snapshot

/-! ## Errors -/

inductive CheckpointError where
  | serializationFailed (reason : String)
  | deserializationFailed (reason : String)
  | unsupportedVersion (found supported : UInt32)
  /-- A recorded name stands for nothing in the machine. -/
  | unknownElement (name : String)
  | machineMismatch (expected found : String)
deriving DecidableEq, Repr

def CheckpointError.message : CheckpointError → String
  | .serializationFailed reason => s!"Serialization failed: {reason}"
  | .deserializationFailed reason => s!"Deserialization failed: {reason}"
  | .unsupportedVersion found supported =>
    s!"Unsupported snapshot version {found.toNat}, supported: {supported.toNat}"
  | .unknownElement name => s!"Unknown element in snapshot: {name}"
  | .machineMismatch expected found => s!"Snapshot of machine {found} cannot be restored into {expected}"

/-- Only snapshots of the current version are accepted. -/
def Snapshot.checkVersion (s : Snapshot) : Except CheckpointError Snapshot :=
  if s.version = currentVersion then .ok s else .error (.unsupportedVersion s.version currentVersion)

namespace Model

variable {μ δ : Type} (m : Model μ δ)

/-! ## Capturing -/

mutual

/-- The records beneath a state, at most so many levels down. There is no answer where a record names a vertex that the
model does not have. -/
def captureState? : Nat → Instance δ → VertexId → Option StateNode
  | 0, _, _ => none
  | height + 1, i, v => do
    let record ← m.vertex? v
    let regions ← record.regions.mapM (captureRegion? height i)
    return .mk record.name regions

def captureRegion? : Nat → Instance δ → RegionId → Option RegionNode
  | 0, _, _ => none
  | height + 1, i, r => do
    let region ← m.region? r
    let current ← (i.current? r).mapM fun v => (m.vertex? v).map (·.name)
    let composite := region.vertices.filter fun v => !(m.regionsOf v).isEmpty
    let states ← composite.mapM (captureState? height i)
    return .mk region.name current states

end

/-- Two levels for every vertex are enough. -/
def capture? (i : Instance δ) (id : Uuid) (timestamp : Instant) : Option Snapshot := do
  let root ← m.captureState? (2 * m.vertices.size) i Statechart.root
  return { version := Snapshot.currentVersion, id, timestamp, machine := m.name, terminated := i.terminated, root }

/-! ## Restoring -/

def unknown (parent : Element) (name : String) : CheckpointError :=
  .unknownElement (m.qualifiedName parent ++ separator ++ name)

mutual

/-- The vertices to record, as the nodes beneath a state name them. -/
def resolveState (v : VertexId) : StateNode → Except CheckpointError (List (RegionId × VertexId))
  | .mk _ regions => resolveRegions v regions

def resolveRegions (v : VertexId) : List RegionNode → Except CheckpointError (List (RegionId × VertexId))
  | [] => .ok []
  | node :: rest => do
    match m.regionNamed? v node.name with
    | none => .error (m.unknown (.vertex v) node.name)
    | some r => return (← resolveRegion r node) ++ (← resolveRegions v rest)

def resolveRegion (r : RegionId) : RegionNode → Except CheckpointError (List (RegionId × VertexId))
  | .mk _ current states => do
    let recorded ← match current with
      | none => pure []
      | some name =>
        match m.vertexNamed? r name with
        | none => .error (m.unknown (.region r) name)
        | some v => pure [(r, v)]
    return recorded ++ (← resolveStates r states)

def resolveStates (r : RegionId) : List StateNode → Except CheckpointError (List (RegionId × VertexId))
  | [] => .ok []
  | node :: rest => do
    match m.vertexNamed? r node.name with
    | none => .error (m.unknown (.region r) node.name)
    | some v => return (← resolveState v node) ++ (← resolveStates r rest)

end

/-- Writes the records of a snapshot into an instance, after all its names have been resolved. -/
def restore (s : Snapshot) (i : Instance δ) : Except CheckpointError (Instance δ) := do
  if s.machine = m.name then
    let recorded ← m.resolveState Statechart.root s.root
    return (recorded.foldl (fun i (r, v) => i.setCurrent r v) i).setTerminated s.terminated
  else
    .error (.machineMismatch m.name s.machine)

end Model

end Statechart
