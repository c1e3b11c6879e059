/-!
# Elements of a statechart

Vertices, regions and transitions live in a model and are addressed by their place in it. A vertex is a state or
a pseudo state; the kinds of pseudo states and of transitions are closed lists.
-/

namespace Statechart

/-! ## Identities -/

/-- The place of a vertex in its model, in order of creation. -/
structure VertexId where
  index : Nat
deriving DecidableEq, Repr

structure RegionId where
  index : Nat
deriving DecidableEq, Repr

structure TransitionId where
  index : Nat
deriving DecidableEq, Repr

/-- What can stand on the way from the root to a vertex. -/
inductive Element where
  | region (id : RegionId)
  | vertex (id : VertexId)
deriving DecidableEq, Repr

/-- Where a new vertex goes: into a region, or into a state's default region. -/
inductive Parent where
  | region (id : RegionId)
  | state (id : VertexId)
deriving DecidableEq, Repr

/-- The state that everything else stands beneath. -/
def root : VertexId := ⟨0⟩

/-- Stands between the names of a qualified name. -/
def separator : String := "."

/-- The name of a region that is made because a vertex was added to a state. -/
def defaultRegionName : String := "default"

/-! ## Kinds -/

inductive PseudoKind where
  /-- Picks one of its enabled branches by chance. -/
  | choice
  /-- Has exactly one enabled branch. -/
  | junction
  /-- The default way into a region. -/
  | initial
  /-- Brings back the region's last active state. -/
  | shallowHistory
  /-- Brings back the region's whole last configuration. -/
  | deepHistory
  /-- Entering it terminates the instance. -/
  | terminate
deriving DecidableEq, Repr

namespace PseudoKind

def isInitial : PseudoKind → Bool
  | .initial | .shallowHistory | .deepHistory => true
  | _ => false

def isHistory : PseudoKind → Bool
  | .shallowHistory | .deepHistory => true
  | _ => false

/-- A choice or a junction: where a compound transition goes on is decided on arrival. -/
def isBranch : PseudoKind → Bool
  | .choice | .junction => true
  | _ => false

def text : PseudoKind → String
  | .choice => "choice"
  | .junction => "junction"
  | .initial => "initial"
  | .shallowHistory => "shallow history"
  | .deepHistory => "deep history"
  | .terminate => "terminate"

theorem isBranch_eq_false_of_isInitial {k : PseudoKind} (h : k.isInitial = true) : k.isBranch = false := by
  cases k <;> simp_all [isInitial, isBranch]

end PseudoKind

inductive TransitionKind where
  /-- Leaves its source, up to what source and target share, and enters its target. -/
  | external
  /-- Runs its effects and nothing else. -/
  | internal
  /-- Stays in its source when the target is beneath it. -/
  | withinSource
deriving DecidableEq, Repr

end Statechart
