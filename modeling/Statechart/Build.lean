import Statechart.Machine

/-!
# Building machines

Each operation checks its arguments, adds to the model or changes it, and drops the program. The machine is the state
of the operations, and it stays what it has become when one of them fails.
-/

namespace Statechart

/-! ## Errors -/

inductive BuildError where
  | unknownVertex (id : VertexId)
  | unknownRegion (id : RegionId)
  | unknownTransition (id : TransitionId)
  /-- Only states own regions and actions. -/
  | notAState (name : String)
  | duplicateName (region name : String)
  | internalTarget (source target : String)
deriving DecidableEq, Repr

def BuildError.message : BuildError → String
  | .unknownVertex id => s!"Vertex VertexId({id.index}) does not belong to this state machine"
  | .unknownRegion id => s!"Region RegionId({id.index}) does not belong to this state machine"
  | .unknownTransition id => s!"Transition TransitionId({id.index}) does not belong to this state machine"
  | .notAState name => s!"Vertex '{name}' is not a state; only states own regions and entry/exit behavior"
  | .duplicateName region name => s!"A vertex named '{name}' already exists in region '{region}'"
  | .internalTarget source target =>
    s!"Internal transition from '{source}' cannot target another vertex ('{target}')"

/-- A building operation on a machine. -/
abbrev Build (μ δ : Type) := EStateM BuildError (Machine μ δ)

/-! ## Drafts of transitions -/

/-- A transition that has not been added yet. Without a target it is internal, and without a guard it gets the one
that is usual for its source. -/
structure Draft (μ δ : Type) where
  source : VertexId
  target : Option VertexId := none
  kind : TransitionKind := .external
  guard : Option (Guard μ δ) := none
  effects : List (Action μ δ) := []

namespace Draft

variable {μ δ : Type}

def between (source target : VertexId) : Draft μ δ := { source, target := some target }

def inside (source : VertexId) : Draft μ δ := { source }

def targeting (d : Draft μ δ) (target : VertexId) : Draft μ δ := { d with target := some target }

def ofKind (d : Draft μ δ) (kind : TransitionKind) : Draft μ δ := { d with kind }

def guarded (d : Draft μ δ) (guard : Guard μ δ) : Draft μ δ := { d with guard := some guard }

def when (d : Draft μ δ) (holds : Predicate μ δ) : Draft μ δ := d.guarded (.when holds)

def on [DecidableEq μ] (d : Draft μ δ) (message : μ) : Draft μ δ := d.guarded (.on message)

def otherwise (d : Draft μ δ) : Draft μ δ := d.guarded .otherwise

def effect (d : Draft μ δ) (action : Action μ δ) : Draft μ δ := { d with effects := d.effects ++ [action] }

end Draft

namespace Build

variable {μ δ : Type}

/-! ## Changing a model -/

/-- Changes the model. The program no longer fits it. -/
def change (f : Model μ δ → Model μ δ) : Build μ δ Unit :=
  modify fun m => { toModel := f m.toModel, program := none }

def vertex (id : VertexId) : Build μ δ (Vertex μ δ) := do
  match (← get).vertex? id with
  | some record => pure record
  | none => throw (.unknownVertex id)

/-- The content of a state; pseudo states have none. -/
def state (id : VertexId) : Build μ δ (State μ δ) := do
  let record ← vertex id
  match record.form with
  | .state content => pure content
  | .pseudo _ => throw (.notAState record.name)

end Build

namespace Model

variable {μ δ : Type} (m : Model μ δ)

def modifyVertex (id : VertexId) (f : Vertex μ δ → Vertex μ δ) : Model μ δ :=
  { m with vertices := m.vertices.modify id.index f }

def modifyState (id : VertexId) (f : State μ δ → State μ δ) : Model μ δ :=
  m.modifyVertex id fun record =>
    match record.form with
    | .state content => { record with form := .state (f content) }
    | .pseudo _ => record

def pushRegion (state : VertexId) (name : String) : Model μ δ :=
  let id : RegionId := ⟨m.regions.size⟩
  let m := m.modifyState state fun content => { content with regions := content.regions ++ [id] }
  { m with regions := m.regions.push { name, parent := state } }

def pushVertex (region : RegionId) (name : String) (form : Form μ δ) : Model μ δ :=
  let id : VertexId := ⟨m.vertices.size⟩
  { m with
    vertices := m.vertices.push { name, parent := some region, form }
    regions := m.regions.modify region.index fun record => { record with vertices := record.vertices ++ [id] } }

def pushTransition (t : Transition μ δ) : Model μ δ :=
  let id : TransitionId := ⟨m.transitions.size⟩
  let m := { m with transitions := m.transitions.push t }
  let m := m.modifyVertex t.source fun record => { record with outgoing := record.outgoing ++ [id] }
  match t.target with
  | some target => m.modifyVertex target fun record => { record with incoming := record.incoming ++ [id] }
  | none => m

def vertexNamed? (region : RegionId) (name : String) : Option VertexId :=
  (m.verticesOf region).find? fun v => (m.vertex? v).any (·.name == name)

def regionNamed? (v : VertexId) (name : String) : Option RegionId :=
  (m.regionsOf v).find? fun r => (m.region? r).any (·.name == name)

end Model

namespace Build

variable {μ δ : Type}

/-! ## Regions and vertices -/

def addRegion (owner : VertexId) (name : String) : Build μ δ RegionId := do
  let _ ← state owner
  let id := ⟨(← get).regions.size⟩
  change (·.pushRegion owner name)
  pure id

/-- The region that vertices added to a state go into; it is made where it is missing. -/
def defaultRegion (owner : VertexId) : Build μ δ RegionId := do
  let _ ← state owner
  match (← get).regionNamed? owner defaultRegionName with
  | some id => pure id
  | none => addRegion owner defaultRegionName

def regionOf (parent : Parent) : Build μ δ RegionId := do
  match parent with
  | .state owner => defaultRegion owner
  | .region id => if (← get).region? id |>.isSome then pure id else throw (.unknownRegion id)

/-- Adds a vertex whose name no other vertex of its region has. -/
def addVertex (parent : Parent) (name : String) (form : Form μ δ) : Build μ δ VertexId := do
  let region ← regionOf parent
  let m ← get
  if (m.vertexNamed? region name).isSome then
    throw (.duplicateName (((m.region? region).map (·.name)).getD "") name)
  change (·.pushVertex region name form)
  pure ⟨m.vertices.size⟩

def addState (parent : Parent) (name : String) : Build μ δ VertexId := addVertex parent name (.state {})

def addFinalState (parent : Parent) (name : String) : Build μ δ VertexId :=
  addVertex parent name (.state { markedFinal := true })

def addPseudoState (parent : Parent) (name : String) (kind : PseudoKind) : Build μ δ VertexId :=
  addVertex parent name (.pseudo kind)

/-- Gives a vertex another name, which its siblings must not have. -/
def rename (v : VertexId) (name : String) : Build μ δ Unit := do
  let record ← vertex v
  let m ← get
  if let some region := record.parent then
    if (m.verticesOf region).any fun sibling => sibling ≠ v && (m.vertex? sibling).any (·.name == name) then
      throw (.duplicateName (((m.region? region).map (·.name)).getD "") name)
  change (·.modifyVertex v fun record => { record with name })

/-! ## Behaviour -/

def onEntry (owner : VertexId) (action : Action μ δ) : Build μ δ Unit := do
  let _ ← state owner
  change (·.modifyState owner fun content => { content with entry := content.entry ++ [action] })

def onExit (owner : VertexId) (action : Action μ δ) : Build μ δ Unit := do
  let _ ← state owner
  change (·.modifyState owner fun content => { content with exit := content.exit ++ [action] })

/-! ## Transitions -/

/-- Pseudo states are left unconditionally, and states on completion, unless a draft says otherwise. -/
def usualGuard (source : Vertex μ δ) : Guard μ δ :=
  match source.form with
  | .pseudo _ => .always
  | .state _ => .completion

/-- Adds a transition. An internal one has no target: its own source as target is dropped, any other is an error. -/
def addTransition (draft : Draft μ δ) : Build μ δ TransitionId := do
  let source ← vertex draft.source
  if let some target := draft.target then
    let _ ← vertex target
  let m ← get
  let (kind, target) ← match draft.target with
    | none => pure (.internal, none)
    | some target =>
      if draft.kind = .internal then
        if target = draft.source then pure (.internal, none)
        else throw (.internalTarget (m.qualifiedName (.vertex draft.source)) (m.qualifiedName (.vertex target)))
      else pure (draft.kind, some target)
  let guard := draft.guard.getD (usualGuard source)
  change (·.pushTransition { source := draft.source, target, kind, guard, effects := draft.effects })
  pure ⟨m.transitions.size⟩

def addEffect (t : TransitionId) (action : Action μ δ) : Build μ δ Unit := do
  if ((← get).transition? t).isNone then
    throw (.unknownTransition t)
  change fun m => { m with
    transitions := m.transitions.modify t.index fun record => { record with effects := record.effects ++ [action] } }

end Build

end Statechart
