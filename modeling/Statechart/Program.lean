import Statechart.Model

/-!
# Programs

A program holds, for every region and vertex of a model, the steps run when it is left and when it is entered, and for
every transition the steps of its traversal. Most steps are settled when the program is made; the others look at the
instance when they run.
-/

namespace Statechart

variable {μ δ : Type}

/-! ## Steps -/

/-- On whose behalf an action runs. -/
inductive Cause where
  | entry (state : VertexId)
  | exit (state : VertexId)
  | effect (transition : TransitionId)
deriving DecidableEq, Repr

inductive Step (μ δ : Type) where
  | announceEnter (element : Element)
  | announceLeave (element : Element)
  | act (cause : Cause) (action : Action μ δ)
  /-- Records `state` as the active vertex of `region`. -/
  | record (region : RegionId) (state : VertexId)
  | terminate
  /-- Leaves the vertex recorded for the region, if there is one. -/
  | leaveRegion (region : RegionId)
  /-- Enters the region by its record, where history rules, or else by its initial vertex. -/
  | enterRegion (region : RegionId) (initial : Option VertexId) (kind : Option PseudoKind)
  | traverse (transition : TransitionId)

/-! ## Behaviours and routes -/

/-- The steps of one region or vertex. Entering it is `beginEnter` and then `endEnter`: between the two a transition
may lead further down. -/
structure Behavior (μ δ : Type) where
  leave : List (Step μ δ) := []
  beginEnter : List (Step μ δ) := []
  endEnter : List (Step μ δ) := []

def Behavior.enter (b : Behavior μ δ) : List (Step μ δ) := b.beginEnter ++ b.endEnter

/-- How a local transition goes on where `vertex` is the first vertex on its way that is not active in `region`. -/
structure Detour (μ δ : Type) where
  region : RegionId
  vertex : VertexId
  steps : List (Step μ δ)

/-- How a transition is traversed. -/
inductive Route (μ δ : Type) where
  | direct (steps : List (Step μ δ))
  /-- The first detour whose vertex is not active is taken, and the last one where all are. -/
  | detours (candidates : List (Detour μ δ))

/-- The steps that a route comes to for an instance. -/
def Route.steps (route : Route μ δ) (i : Instance δ) : List (Step μ δ) :=
  match route with
  | .direct steps => steps
  | .detours candidates =>
    match (candidates.find? fun d => i.current? d.region != some d.vertex).or candidates.getLast? with
    | some detour => detour.steps
    | none => []

/-! ## Programs -/

structure Program (μ δ : Type) where
  regions : Array (Behavior μ δ)
  vertices : Array (Behavior μ δ)
  routes : Array (Route μ δ)
  onInitialise : List (Step μ δ)

namespace Program

def vertex? (p : Program μ δ) (v : VertexId) : Option (Behavior μ δ) := p.vertices[v.index]?

def route? (p : Program μ δ) (t : TransitionId) : Option (Route μ δ) := p.routes[t.index]?

end Program

end Statechart
