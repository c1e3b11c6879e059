import Statechart.Compile
import Statechart.Run

/-!
# Models without names

Names are for telling and for reporting. What a model compiles to, and what an evaluation reads of it, does not depend
on what the vertices are called.
-/

namespace Statechart

variable {μ δ : Type}

/-! ## Taking the names away -/

def Vertex.anonymous (record : Vertex μ δ) : Vertex μ δ := { record with name := "" }

def Model.anonymous (m : Model μ δ) : Model μ δ := { m with vertices := m.vertices.map Vertex.anonymous }

def MachineError.anonymous : MachineError → MachineError
  | .ambiguousTransition _ count => .ambiguousTransition "" count
  | .ambiguousBranch _ count => .ambiguousBranch "" count
  | .noBranch _ => .noBranch ""
  | error => error

def Halt.anonymous : Halt → Halt
  | .refused error => .refused error.anonymous
  | halt => halt

def Event.anonymous : Event μ δ → Event μ δ
  | .reported error => .reported error.anonymous
  | event => event

namespace Model

variable {m : Model μ δ}

/-! ## Reading an anonymous model -/

@[simp] theorem vertex?_anonymous (v : VertexId) : m.anonymous.vertex? v = (m.vertex? v).map Vertex.anonymous := by
  simp [anonymous, vertex?]

@[simp] theorem region?_anonymous (r : RegionId) : m.anonymous.region? r = m.region? r := rfl

@[simp] theorem transition?_anonymous (t : TransitionId) : m.anonymous.transition? t = m.transition? t := rfl

@[simp] theorem size_vertices_anonymous : m.anonymous.vertices.size = m.vertices.size := by simp [anonymous]

@[simp] theorem regionIds_anonymous : m.anonymous.regionIds = m.regionIds := rfl

@[simp] theorem transitionIds_anonymous : m.anonymous.transitionIds = m.transitionIds := rfl

@[simp] theorem vertexIds_anonymous : m.anonymous.vertexIds = m.vertexIds := by simp [vertexIds]

@[simp] theorem outgoing_anonymous (v : VertexId) : m.anonymous.outgoing v = m.outgoing v := by
  simp [outgoing, Function.comp_def, Vertex.anonymous]

@[simp] theorem parent?_anonymous (v : VertexId) : m.anonymous.parent? v = m.parent? v := by
  simp [parent?, Option.bind_map, Function.comp_def, Vertex.anonymous]

@[simp] theorem regionsOf_anonymous (v : VertexId) : m.anonymous.regionsOf v = m.regionsOf v := by
  simp [regionsOf, Function.comp_def, Vertex.anonymous, Vertex.regions]

@[simp] theorem verticesOf_anonymous (r : RegionId) : m.anonymous.verticesOf r = m.verticesOf r := rfl

@[simp] theorem isInitial_anonymous : m.anonymous.isInitial = m.isInitial := by
  funext v
  cases hv : m.vertex? v <;> simp [isInitial, hv, Vertex.anonymous, Vertex.isInitial, Vertex.pseudoKind?]

@[simp] theorem isElse_anonymous (t : TransitionId) : m.anonymous.isElse t = m.isElse t := rfl

@[simp] theorem pathWithin?_anonymous (height : Nat) (v : VertexId) :
    m.anonymous.pathWithin? height v = m.pathWithin? height v := by
  induction height generalizing v with
  | zero => rfl
  | succ height ih =>
    cases hv : m.vertex? v with
    | none => simp [pathWithin?, hv]
    | some record =>
      cases hp : record.parent with
      | none => simp [pathWithin?, hv, hp, Vertex.anonymous]
      | some r => simp [pathWithin?, hv, hp, Vertex.anonymous, ih]

@[simp] theorem path?_anonymous (v : VertexId) : m.anonymous.path? v = m.path? v := by simp [path?]

@[simp] theorem path_anonymous (v : VertexId) : m.anonymous.path v = m.path v := by simp [path]

@[simp] theorem chain_anonymous (v : VertexId) : m.anonymous.chain v = m.chain v := by simp [chain]

@[simp] theorem isAncestor_anonymous (a v : VertexId) : m.anonymous.isAncestor a v = m.isAncestor a v := by
  simp [isAncestor, isAncestor?, ancestors?]

@[simp] theorem isActive?_anonymous (i : Instance δ) (v : VertexId) : m.anonymous.isActive? i v = m.isActive? i v := by
  simp [isActive?]

@[simp] theorem isComplete?_anonymous (i : Instance δ) (v : VertexId) :
    m.anonymous.isComplete? i v = m.isComplete? i v := by
  cases hv : m.vertex? v with
  | none => simp [isComplete?, hv]
  | some record =>
    cases hf : record.form with
    | pseudo kind => simp [isComplete?, hv, hf, Vertex.anonymous]
    | state content =>
      simp [isComplete?, hv, hf, Vertex.anonymous, Function.comp_def, Vertex.isFinal, Vertex.isState, Vertex.state?]

/-! ## Compiling an anonymous model -/

@[simp] theorem head?_anonymous (r : RegionId) : m.anonymous.head? r = m.head? r := by
  simp [head?]

@[simp] theorem headKind?_anonymous (r : RegionId) : m.anonymous.headKind? r = m.headKind? r := by
  simp [headKind?, Option.bind_map, Function.comp_def, Vertex.anonymous, Vertex.pseudoKind?]

@[simp] theorem isEnteredPlainly_anonymous : m.anonymous.isEnteredPlainly = m.isEnteredPlainly := by
  funext r
  simp [isEnteredPlainly, isUnderDeepHistory]

@[simp] theorem leaveVertex_anonymous (v : VertexId) : m.anonymous.leaveVertex v = m.leaveVertex v := by
  cases hv : m.vertex? v with
  | none => simp [leaveVertex, hv]
  | some record => cases hf : record.form <;> simp [leaveVertex, hv, hf, Vertex.anonymous]

@[simp] theorem beginEnterVertex_anonymous (v : VertexId) : m.anonymous.beginEnterVertex v = m.beginEnterVertex v := by
  cases hv : m.vertex? v with
  | none => simp [beginEnterVertex, hv]
  | some record => cases hf : record.form <;> simp [beginEnterVertex, hv, hf, Vertex.anonymous]

@[simp] theorem endEnterPseudo_anonymous (v : VertexId) : m.anonymous.endEnterPseudo v = m.endEnterPseudo v := by
  simp [endEnterPseudo]

@[simp] theorem endEnterRegion_anonymous (plainly : RegionId → Bool) (r : RegionId) :
    m.anonymous.endEnterRegion plainly r = m.endEnterRegion plainly r := by
  simp [endEnterRegion]

@[simp] theorem endEnterVertex_anonymous (plainly : RegionId → Bool) (v : VertexId) :
    m.anonymous.endEnterVertex plainly v = m.endEnterVertex plainly v := by
  cases hv : m.vertex? v with
  | none => simp [endEnterVertex, hv]
  | some record => cases hf : record.form <;> simp [endEnterVertex, hv, hf, Vertex.anonymous]

@[simp] theorem divergence_anonymous (source target : List VertexId) :
    m.anonymous.divergence source target = m.divergence source target := by
  simp [divergence]

@[simp] theorem cascade_anonymous (plainly : RegionId → Bool) (l : List VertexId) :
    m.anonymous.cascade plainly l = m.cascade plainly l := by
  induction l with
  | nil => rfl
  | cons v l ih => cases l <;> simp_all [cascade]

@[simp] theorem effectsOf_anonymous (t : TransitionId) : m.anonymous.effectsOf t = m.effectsOf t := rfl

@[simp] theorem arrival_anonymous (plainly : RegionId → Bool) (t : TransitionId) (l : List VertexId) (u : VertexId) :
    m.anonymous.arrival plainly t l u = m.arrival plainly t l u := by
  simp [arrival]

@[simp] theorem detours_anonymous (plainly : RegionId → Bool) (t : TransitionId) (u : VertexId) (l : List VertexId) :
    m.anonymous.detours plainly t u l = m.detours plainly t u l := by
  induction l with
  | nil => rfl
  | cons v l ih => simp [detours, ih]

@[simp] theorem route_anonymous (plainly : RegionId → Bool) (t : TransitionId) :
    m.anonymous.route plainly t = m.route plainly t := by
  simp [route, funext leaveVertex_anonymous]

/-- Names leave no trace in a program. -/
theorem compile_anonymous : m.anonymous.compile = m.compile := by
  simp [compile, compileWith, vertexBehavior, regionBehavior]

end Model

end Statechart
