import Statechart.Model

/-!
# Paths from the root

The path to a vertex lists, from the root down, each region entered on the way and the vertex chosen in it. Ancestry,
qualified names and activity are all read off it.
-/

namespace Statechart

namespace Model

variable {μ δ : Type} (m : Model μ δ)

/-! ## Paths -/

/-- The path to `v`, where at most `height` vertices stand above it. -/
def pathWithin? : Nat → VertexId → Option (List (RegionId × VertexId))
  | 0, _ => none
  | height + 1, v =>
    match m.vertex? v with
    | none => none
    | some record =>
      match record.parent with
      | none => some []
      | some r =>
        match m.region? r with
        | none => none
        | some region => (pathWithin? height region.parent).map (· ++ [(r, v)])

/-- The path to `v`; none if the model has no such vertex. No path is longer than there are vertices. -/
def path? (v : VertexId) : Option (List (RegionId × VertexId)) := m.pathWithin? m.vertices.size v

def path (v : VertexId) : List (RegionId × VertexId) := (m.path? v).getD []

/-- The vertices from the root down to `v`. -/
def chain (v : VertexId) : List VertexId := root :: (m.path v).map Prod.snd

/-! ## Ancestry -/

/-- The root, then each region and vertex on the path to `v`. -/
def ancestors? (v : VertexId) : Option (List Element) :=
  (m.path? v).map fun path => .vertex root :: path.flatMap fun (r, w) => [.region r, .vertex w]

def isAncestor? (ancestor v : VertexId) : Option Bool :=
  (m.ancestors? v).map (·.contains (.vertex ancestor))

/-- Whether `ancestor` stands on the way from the root to `v`; every vertex is an ancestor of itself. -/
def isAncestor (ancestor v : VertexId) : Bool := (m.isAncestor? ancestor v).getD false

/-! ## Names -/

def elementName? : Element → Option String
  | .region r => (m.region? r).map (·.name)
  | .vertex v => (m.vertex? v).map (·.name)

/-- The elements from the root down to this one. -/
def lineage? : Element → Option (List Element)
  | .vertex v => m.ancestors? v
  | .region r => (m.region? r).bind fun region => (m.ancestors? region.parent).map (· ++ [.region r])

/-- The names from the root down, joined by the separator. -/
def qualifiedName? (e : Element) : Option String :=
  ((m.lineage? e).bind (·.mapM m.elementName?)).map (String.intercalate separator)

def qualifiedName (e : Element) : String := (m.qualifiedName? e).getD ""

def findVertex? (name : String) : Option VertexId :=
  m.vertexIds.find? fun v => m.qualifiedName? (.vertex v) == some name

def findRegion? (name : String) : Option RegionId :=
  m.regionIds.find? fun r => m.qualifiedName? (.region r) == some name

/-! ## Activity -/

/-- Each region on the path records the vertex that the path takes. -/
def isActive? (i : Instance δ) (v : VertexId) : Option Bool :=
  (m.path? v).map (·.all fun (r, w) => i.current? r == some w)

def isActive (i : Instance δ) (v : VertexId) : Bool := (m.isActive? i v).getD false

/-- Whether every region of `v` has come to a final state; no pseudo state is ever complete. There is no answer where
that hangs on a vertex that the model does not have. -/
def isComplete? (i : Instance δ) (v : VertexId) : Option Bool :=
  (m.vertex? v).bind fun record =>
    match record.form with
    | .pseudo _ => some false
    | .state content => content.regions.allM fun r =>
      match i.current? r with
      | none => some false
      | some current => (m.vertex? current).map (·.isFinal)

end Model

end Statechart
