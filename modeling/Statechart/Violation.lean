import Statechart.Element

/-!
# Violations

What can be wrong with an element of a model. Errors make the model ill-formed; warnings do not.
-/

namespace Statechart

inductive Severity where
  | warning
  | error
deriving DecidableEq, Repr

inductive Fault where
  | multipleInitials (count : Nat)
  | noBranches (kind : PseudoKind)
  | multipleElse (kind : PseudoKind) (count : Nat)
  /-- Only choices and junctions may have an else transition. -/
  | unexpectedElse (kind : PseudoKind)
  | initialOutgoing (kind : PseudoKind) (count : Nat)
  | guardedInitial (kind : PseudoKind)
  | duplicateDefaultRegion (count : Nat)
  | finalWithOutgoing
  | finalWithRegions
  | finalWithBehavior
  | localNotDescendant (target : String)
deriving DecidableEq, Repr

namespace Fault

def message : Fault → String
  | .multipleInitials count => s!"region has {count} initial vertices"
  | .noBranches kind => s!"{kind.text} has no outgoing transitions"
  | .multipleElse kind count => s!"{kind.text} has {count} else transitions"
  | .unexpectedElse kind => s!"{kind.text} cannot have an else transition"
  | .initialOutgoing kind count => s!"{kind.text} must have exactly one outgoing transition, found {count}"
  | .guardedInitial kind => s!"{kind.text} transition cannot have a guard"
  | .duplicateDefaultRegion count => s!"state has {count} regions named \"default\""
  | .finalWithOutgoing => "final state cannot have outgoing transitions"
  | .finalWithRegions => "final state cannot have regions"
  | .finalWithBehavior => "final state has entry or exit behavior that will still run"
  | .localNotDescendant target => s!"local transition target {target} is not a descendant of its source"

/-- The actions of a final state still run, so having some is no error. -/
def severity : Fault → Severity
  | .finalWithBehavior => .warning
  | _ => .error

end Fault

/-- A fault of the element with this qualified name. -/
structure Violation where
  element : String
  fault : Fault
deriving DecidableEq, Repr

namespace Violation

def severity (v : Violation) : Severity := v.fault.severity

def isError (v : Violation) : Bool := v.severity = .error

def message (v : Violation) : String := s!"{v.element}: {v.fault.message}"

end Violation

end Statechart
