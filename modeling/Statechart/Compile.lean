import Statechart.Path
import Statechart.Program

/-!
# From models to programs

Leaving and entering are settled region by region and vertex by vertex. A transition leaves and enters from the place
where the chains of its source and target part.
-/

namespace Statechart

namespace Model

variable {μ δ : Type} (m : Model μ δ)

/-! ## How regions are entered -/

/-- The vertex that a region is entered by: the first of an initial kind. -/
def head? (r : RegionId) : Option VertexId := (m.verticesOf r).find? m.isInitial

def headKind? (r : RegionId) : Option PseudoKind := (m.head? r).bind fun v => (m.vertex? v).bind (·.pseudoKind?)

/-- Some region above `r` is headed by deep history, so that entering `r` may mean bringing back its record. -/
def isUnderDeepHistory (r : RegionId) : Bool :=
  (m.region? r).any fun region => (m.path region.parent).any fun (above, _) => m.headKind? above == some .deepHistory

/-- Entering `r` by default always means entering its plain initial vertex. -/
def isEnteredPlainly (r : RegionId) : Bool := !m.isUnderDeepHistory r && m.headKind? r == some .initial

/-! ## Vertices and regions -/

def leaveRegion (r : RegionId) : List (Step μ δ) := [.leaveRegion r, .announceLeave (.region r)]

def leaveVertex (v : VertexId) : List (Step μ δ) :=
  match m.vertex? v with
  | none => []
  | some record =>
    match record.form with
    | .pseudo _ => [.announceLeave (.vertex v)]
    | .state content =>
      content.regions.flatMap leaveRegion ++ .announceLeave (.vertex v) :: content.exit.map (.act (.exit v))

def beginEnterRegion (r : RegionId) : List (Step μ δ) := [.announceEnter (.region r)]

def beginEnterVertex (v : VertexId) : List (Step μ δ) :=
  match m.vertex? v with
  | none => []
  | some record =>
    match record.form with
    | .pseudo kind => .announceEnter (.vertex v) :: if kind = .terminate then [.terminate] else []
    | .state content =>
      .announceEnter (.vertex v) :: content.entry.map (.act (.entry v)) ++
        match record.parent with
        | some r => [.record r v]
        | none => []

/-- What follows the entry of a pseudo state: the way on from one that heads a region. -/
def endEnterPseudo (v : VertexId) : List (Step μ δ) :=
  if m.isInitial v then ((m.outgoing v).head?.map Step.traverse).toList else []

/-- Entering `r` by default. Where `plainly r` the head is entered there and then, or else when the step runs. -/
def endEnterRegion (plainly : RegionId → Bool) (r : RegionId) : List (Step μ δ) :=
  match m.head? r with
  | some v =>
    if plainly r then m.beginEnterVertex v ++ m.endEnterPseudo v else [.enterRegion r (some v) (m.headKind? r)]
  | none => [.enterRegion r none none]

def endEnterVertex (plainly : RegionId → Bool) (v : VertexId) : List (Step μ δ) :=
  match m.vertex? v with
  | none => []
  | some record =>
    match record.form with
    | .pseudo _ => m.endEnterPseudo v
    | .state content => content.regions.flatMap fun r => beginEnterRegion r ++ m.endEnterRegion plainly r

def regionBehavior (plainly : RegionId → Bool) (r : RegionId) : Behavior μ δ :=
  { leave := leaveRegion r, beginEnter := beginEnterRegion r, endEnter := m.endEnterRegion plainly r }

def vertexBehavior (plainly : RegionId → Bool) (v : VertexId) : Behavior μ δ :=
  { leave := m.leaveVertex v, beginEnter := m.beginEnterVertex v, endEnter := m.endEnterVertex plainly v }

/-! ## Transitions -/

/-- How many vertices two chains share from the start. -/
def sharedLength : List VertexId → List VertexId → Nat
  | v :: vs, w :: ws => if v = w then sharedLength vs ws + 1 else 0
  | _, _ => 0

/-- The index of the first vertex to leave and enter. Where one chain is the start of the other, its last vertex is
left and entered again; and so is the state that owns both regions where the chains part into different regions. -/
def divergence (source target : List VertexId) : Nat :=
  let shared := sharedLength source target
  match source[shared]?, target[shared]? with
  | some v, some w => if m.parent? v ≠ m.parent? w then shared - 1 else shared
  | _, _ => min source.length target.length - 1

/-- Begins to enter each vertex of a chain. On the way, the regions that the chain does not take are entered by
default. -/
def cascade (plainly : RegionId → Bool) : List VertexId → List (Step μ δ)
  | [] => []
  | [v] => m.beginEnterVertex v
  | v :: w :: rest =>
    m.beginEnterVertex v ++
      ((m.regionsOf v).flatMap fun r =>
        beginEnterRegion r ++ if m.parent? w = some r then [] else m.endEnterRegion plainly r) ++
      cascade plainly (w :: rest)

def effectsOf (t : TransitionId) : List (Step μ δ) :=
  ((m.transition? t).map fun record => record.effects.map (.act (.effect t))).getD []

/-- After the leaving, the effects of `t` and the way down a chain to `target`. -/
def arrival (plainly : RegionId → Bool) (t : TransitionId) (chain : List VertexId) (target : VertexId) :
    List (Step μ δ) :=
  m.effectsOf t ++ m.cascade plainly chain ++ m.endEnterVertex plainly target

/-- One detour for each vertex on a chain below the source of a local transition. -/
def detours (plainly : RegionId → Bool) (t : TransitionId) (target : VertexId) : List VertexId → List (Detour μ δ)
  | [] => []
  | v :: rest =>
    match m.parent? v with
    | some region =>
      { region, vertex := v, steps := leaveRegion region ++ m.arrival plainly t (v :: rest) target } ::
        detours plainly t target rest
    | none => detours plainly t target rest

def below (source : VertexId) (chain : List VertexId) : List VertexId := (chain.dropWhile (· ≠ source)).tail

def route (plainly : RegionId → Bool) (t : TransitionId) : Route μ δ :=
  match m.transition? t with
  | none => .direct []
  | some record =>
    match record.target with
    | none => .direct (m.effectsOf t)
    | some target =>
      if record.kind = .withinSource ∧ record.source ≠ target ∧ m.isAncestor record.source target then
        .detours (m.detours plainly t target (below record.source (m.chain target)))
      else
        let source := m.chain record.source
        let chain := m.chain target
        let index := m.divergence source chain
        let left := (source[index]?.map m.leaveVertex).getD []
        .direct (left ++ m.arrival plainly t (chain.drop index) target)

/-! ## The program -/

/-- The program that enters by default, there and then, the regions where `plainly` holds. -/
def compileWith (plainly : RegionId → Bool) : Program μ δ :=
  { regions := (m.regionIds.map (m.regionBehavior plainly)).toArray
    vertices := (m.vertexIds.map (m.vertexBehavior plainly)).toArray
    routes := (m.transitionIds.map (m.route plainly)).toArray
    onInitialise := (m.vertexBehavior plainly root).enter }

def compile : Program μ δ := m.compileWith m.isEnteredPlainly

end Model

end Statechart
