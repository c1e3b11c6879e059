import Statechart.Machine
import Statechart.Context

/-!
# Well-formed models

Each rule looks at one element and makes one check per condition, so that every violation is found and not only the
first. A model is well-formed if no check fails with an error.
-/

namespace Statechart

/-- A check passes or finds a violation. -/
abbrev Check := Option Violation

namespace Model

variable {μ δ : Type} (m : Model μ δ)

def ensure (holds : Bool) (element : Element) (fault : Fault) : Check :=
  if holds then none else some { element := m.qualifiedName element, fault }

/-! ## Rules -/

/-- A region has at most one initial vertex. -/
def regionRule (r : RegionId) : List Check :=
  let count := (m.verticesOf r).countP m.isInitial
  [m.ensure (count ≤ 1) (.region r) (.multipleInitials count)]

/-- A branch needs a way out and at most one else transition. Other pseudo states have no else transition, and those
that head a region have exactly one way out, without a condition. -/
def pseudoRule (v : VertexId) (kind : PseudoKind) : List Check :=
  let outgoing := m.outgoing v
  let elseCount := outgoing.countP m.isElse
  if kind.isBranch then
    [m.ensure (!outgoing.isEmpty) (.vertex v) (.noBranches kind),
      m.ensure (elseCount ≤ 1) (.vertex v) (.multipleElse kind elseCount)]
  else
    m.ensure (elseCount = 0) (.vertex v) (.unexpectedElse kind) ::
      if kind.isInitial then
        let isGuarded t := (m.transition? t).any fun record => !record.guard.isUnconditional && !record.isElse
        [m.ensure (outgoing.length = 1) (.vertex v) (.initialOutgoing kind outgoing.length),
          m.ensure (!outgoing.any isGuarded) (.vertex v) (.guardedInitial kind)]
      else []

/-- A state has at most one default region. One that is marked final is a leaf with no way out. -/
def stateRule (v : VertexId) (s : State μ δ) : List Check :=
  let defaults := s.regions.countP fun r => (m.region? r).any (·.name == defaultRegionName)
  m.ensure (defaults ≤ 1) (.vertex v) (.duplicateDefaultRegion defaults) ::
    if s.markedFinal then
      [m.ensure (m.outgoing v).isEmpty (.vertex v) .finalWithOutgoing,
        m.ensure s.isSimple (.vertex v) .finalWithRegions,
        m.ensure (s.entry.isEmpty && s.exit.isEmpty) (.vertex v) .finalWithBehavior]
    else []

def vertexRule (v : VertexId) : List Check :=
  match m.vertex? v with
  | none => []
  | some record =>
    match record.form with
    | .pseudo kind => m.pseudoRule v kind
    | .state content => m.stateRule v content

/-- A local transition leads to a vertex beneath its source. -/
def transitionRule (t : TransitionId) : List Check :=
  match m.transition? t with
  | none => []
  | some record =>
    match record.kind, record.target with
    | .withinSource, some target =>
      [m.ensure (record.source ≠ target && m.isAncestor record.source target) (.vertex record.source)
        (.localNotDescendant (m.qualifiedName (.vertex target)))]
    | _, _ => []

/-! ## All rules -/

/-- Regions first, then vertices, then transitions. -/
def checks : List Check :=
  m.regionIds.flatMap m.regionRule ++ m.vertexIds.flatMap m.vertexRule ++ m.transitionIds.flatMap m.transitionRule

def violations : List Violation := m.checks.filterMap id

def hasErrors (checks : List Check) : Bool := checks.any fun check => check.any Violation.isError

/-- Warnings do not count. -/
def isWellFormed : Bool := !hasErrors m.checks

/-! ## Reporting -/

variable {σ : Type} (c : Context σ)

def reportViolation (v : Violation) : EStateM MachineError σ Unit := fun s =>
  match v.severity with
  | .warning => .ok () (c.warn v.message s)
  | .error =>
    match c.tolerate (.illFormed v) s with
    | (true, s) => .ok () s
    | (false, s) => .error (.illFormed v) s

/-- Tells the sink of every violation, up to the first error that may not pass. -/
def validate : EStateM MachineError σ Unit := m.violations.forM (reportViolation c)

end Model

end Statechart
