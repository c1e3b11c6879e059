import Statechart.Guard

/-!
# Models

A model holds the regions, vertices and transitions of one statechart. Ownership is a tree: a state owns regions, a
region owns vertices. A transition is listed at both of its ends.
-/

namespace Statechart

variable {μ δ : Type}

/-! ## Parts of a model -/

structure Region where
  name : String
  parent : VertexId
  vertices : List VertexId := []
deriving DecidableEq, Repr

/-- What a state has and a pseudo state has not. -/
structure State (μ δ : Type) where
  regions : List RegionId := []
  entry : List (Action μ δ) := []
  exit : List (Action μ δ) := []
  /-- Declared to be the end of its region. -/
  markedFinal : Bool := false

namespace State

def isSimple (s : State μ δ) : Bool := s.regions.isEmpty

def isComposite (s : State μ δ) : Bool := !s.regions.isEmpty

def isOrthogonal (s : State μ δ) : Bool := 1 < s.regions.length

end State

inductive Form (μ δ : Type) where
  | pseudo (kind : PseudoKind)
  | state (content : State μ δ)

structure Vertex (μ δ : Type) where
  name : String
  /-- The region that owns the vertex; the root alone has none. -/
  parent : Option RegionId
  form : Form μ δ
  outgoing : List TransitionId := []
  incoming : List TransitionId := []

namespace Vertex

def state? (v : Vertex μ δ) : Option (State μ δ) :=
  match v.form with
  | .state content => some content
  | .pseudo _ => none

def pseudoKind? (v : Vertex μ δ) : Option PseudoKind :=
  match v.form with
  | .state _ => none
  | .pseudo kind => some kind

/-- The regions that the vertex owns; a pseudo state owns none. -/
def regions (v : Vertex μ δ) : List RegionId :=
  match v.form with
  | .state content => content.regions
  | .pseudo _ => []

def isState (v : Vertex μ δ) : Bool := v.state?.isSome

def isInitial (v : Vertex μ δ) : Bool := v.pseudoKind?.any PseudoKind.isInitial

def isFinal (v : Vertex μ δ) : Bool := v.isState && v.outgoing.isEmpty

end Vertex

/-- A transition without a target is internal. -/
structure Transition (μ δ : Type) where
  source : VertexId
  target : Option VertexId
  kind : TransitionKind
  guard : Guard μ δ
  effects : List (Action μ δ) := []

namespace Transition

def isElse (t : Transition μ δ) : Bool := t.guard.isElse

end Transition

/-! ## The model -/

structure Model (μ δ : Type) where
  regions : Array Region := #[]
  vertices : Array (Vertex μ δ)
  transitions : Array (Transition μ δ) := #[]

namespace Model

def ofName (name : String) : Model μ δ :=
  { vertices := #[{ name, parent := none, form := .state {} }] }

def vertex? (m : Model μ δ) (v : VertexId) : Option (Vertex μ δ) := m.vertices[v.index]?

def region? (m : Model μ δ) (r : RegionId) : Option Region := m.regions[r.index]?

def transition? (m : Model μ δ) (t : TransitionId) : Option (Transition μ δ) := m.transitions[t.index]?

def vertexIds (m : Model μ δ) : List VertexId := (List.range m.vertices.size).map VertexId.mk

def regionIds (m : Model μ δ) : List RegionId := (List.range m.regions.size).map RegionId.mk

def transitionIds (m : Model μ δ) : List TransitionId := (List.range m.transitions.size).map TransitionId.mk

def name (m : Model μ δ) : String := ((m.vertex? root).map (·.name)).getD ""

def outgoing (m : Model μ δ) (v : VertexId) : List TransitionId := ((m.vertex? v).map (·.outgoing)).getD []

def parent? (m : Model μ δ) (v : VertexId) : Option RegionId := (m.vertex? v).bind (·.parent)

def regionsOf (m : Model μ δ) (v : VertexId) : List RegionId := ((m.vertex? v).map (·.regions)).getD []

def verticesOf (m : Model μ δ) (r : RegionId) : List VertexId := ((m.region? r).map (·.vertices)).getD []

def isInitial (m : Model μ δ) (v : VertexId) : Bool := (m.vertex? v).any (·.isInitial)

def isElse (m : Model μ δ) (t : TransitionId) : Bool := (m.transition? t).any (·.isElse)

theorem vertex?_isSome_iff {m : Model μ δ} {v : VertexId} : (m.vertex? v).isSome = true ↔ v.index < m.vertices.size := by
  simp [vertex?]

theorem mem_vertexIds {m : Model μ δ} {v : VertexId} : v ∈ m.vertexIds ↔ v.index < m.vertices.size := by
  cases v; simp [vertexIds]

end Model

end Statechart
