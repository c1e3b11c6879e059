import Statechart.Context
import Statechart.Program
import Statechart.Path

/-!
# Runs

The state of an evaluation in progress, what it notes down as it goes, and how it can stop short. An evaluation works
on the state and keeps what it has done when it stops.
-/

namespace Statechart

/-! ## Events -/

/-- What happens in the course of an evaluation. -/
inductive Event (μ δ : Type) where
  | entered (element : Element)
  | left (element : Element)
  | acted (cause : Cause)
  /-- A state was asked to consume a trigger. -/
  | offered (state : VertexId) (trigger : Trigger μ)
  /-- The steps of a transition are about to run. -/
  | fired (transition : TransitionId) (trigger : Trigger μ) (before : Instance δ)
  /-- The random source was asked for a choice among so many and gave this number. -/
  | drew (count value : Nat)
  | reported (error : MachineError)

/-- Why an evaluation stops short. -/
inductive Halt where
  /-- The sink did not let an error pass. -/
  | refused (error : MachineError)
  /-- A vertex is asked for that the model does not have; the instance belongs to another machine. -/
  | foreign (vertex : VertexId)
  /-- A transition is asked for that the model does not have. -/
  | dangling (transition : TransitionId)
  | outOfFuel
deriving DecidableEq, Repr

/-! ## Runs -/

structure Run (μ δ σ : Type) where
  inst : Instance δ
  /-- The state that the context works on. -/
  outside : σ
  /-- The states that the traversals in progress have led to. -/
  arrived : List VertexId := []
  /-- The latest first. -/
  events : List (Event μ δ) := []

/-- An evaluation, or a part of one. -/
abbrev Eval (μ δ σ : Type) := EStateM Halt (Run μ δ σ)

namespace Run

variable {μ δ σ : Type}

def note (event : Event μ δ) (run : Run μ δ σ) : Run μ δ σ := { run with events := event :: run.events }

def update (f : Instance δ → Instance δ) (run : Run μ δ σ) : Run μ δ σ := { run with inst := f run.inst }

@[simp] theorem inst_note (event : Event μ δ) (run : Run μ δ σ) : (run.note event).inst = run.inst := rfl

@[simp] theorem events_note (event : Event μ δ) (run : Run μ δ σ) :
    (run.note event).events = event :: run.events := rfl

@[simp] theorem inst_update (f : Instance δ → Instance δ) (run : Run μ δ σ) : (run.update f).inst = f run.inst := rfl

@[simp] theorem events_update (f : Instance δ → Instance δ) (run : Run μ δ σ) :
    (run.update f).events = run.events := rfl

end Run

namespace Eval

variable {μ δ σ : Type} (m : Model μ δ) (c : Context σ)

def note (event : Event μ δ) : Eval μ δ σ Unit := modify (·.note event)

def update (f : Instance δ → Instance δ) : Eval μ δ σ Unit := modify (·.update f)

def inst : Eval μ δ σ (Instance δ) := return (← get).inst

def announceEnter (element : Element) : Eval μ δ σ Unit :=
  modify fun run =>
    { run.note (.entered element) with outside := c.log (m.qualifiedName element ++ " enter") run.outside }

def announceLeave (element : Element) : Eval μ δ σ Unit :=
  modify fun run =>
    { run.note (.left element) with outside := c.log (m.qualifiedName element ++ " leave") run.outside }

def act (trigger : Trigger μ) (cause : Cause) (action : Action μ δ) : Eval μ δ σ Unit := do
  note (.acted cause)
  update (action trigger)

/-- Reports an error to the sink. The evaluation stops unless the sink lets it pass. -/
def report (error : MachineError) : Eval μ δ σ Unit := fun run =>
  match c.tolerate error run.outside with
  | (true, s) => .ok () { run.note (.reported error) with outside := s }
  | (false, s) => .error (.refused error) { run.note (.reported error) with outside := s }

/-- A number below `count`, from the random source. -/
def draw (count : Nat) : Eval μ δ σ Nat := fun run =>
  match c.random count run.outside with
  | (value, s) => .ok (value % count) { run.note (.drew count value) with outside := s }

def behavior (p : Program μ δ) (v : VertexId) : Eval μ δ σ (Behavior μ δ) :=
  match p.vertex? v with
  | some behavior => pure behavior
  | none => throw (.foreign v)

def vertex (v : VertexId) : Eval μ δ σ (Vertex μ δ) :=
  match m.vertex? v with
  | some record => pure record
  | none => throw (.foreign v)

def isActive (v : VertexId) : Eval μ δ σ Bool := do
  match m.isActive? (← inst) v with
  | some answer => pure answer
  | none => throw (.foreign v)

/-- The recorded vertex that completeness of `v` hangs on and the model does not have. -/
def foreignBeneath (v : VertexId) (i : Instance δ) : VertexId :=
  (((m.regionsOf v).filterMap i.current?).find? fun w => (m.vertex? w).isNone).getD v

def isComplete (v : VertexId) : Eval μ δ σ Bool := do
  let i ← inst
  match m.isComplete? i v with
  | some answer => pure answer
  | none => throw (.foreign (foreignBeneath m v i))

end Eval

end Statechart
