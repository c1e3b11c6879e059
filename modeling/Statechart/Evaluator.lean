import Statechart.Run

/-!
# The evaluator

Steps are performed one by one, and some of them lead to other sequences of steps. A trigger is offered to the active
states from the innermost outwards. Evaluations need not end, so each part works on a supply of fuel.
-/

namespace Statechart

namespace Eval

variable {μ δ σ : Type} (m : Model μ δ) (p : Program μ δ) (c : Context σ)

/-- How a sequence of steps comes to be performed. -/
structure Mode (μ : Type) where
  trigger : Trigger μ
  /-- The steps are part of a traversal. -/
  nested : Bool := false
  /-- A configuration below deep history is being brought back. -/
  deep : Bool := false

/-! ## Branches -/

/-- The transitions out of `v` whose guards hold. -/
def enabled (v : VertexId) (outgoing : List TransitionId) (trigger : Trigger μ) (i : Instance δ) : List TransitionId :=
  outgoing.filter fun t => (m.transition? t).any (·.guard.check v trigger i)

/-- The transition to follow from a branch: by chance from a choice, the only one from a junction, and the first else
transition where none is enabled. -/
def selectBranch (v : VertexId) (kind : PseudoKind) (outgoing : List TransitionId) (trigger : Trigger μ) :
    Eval μ δ σ (Option TransitionId) := do
  match enabled m v outgoing trigger (← inst), kind with
  | [], _ =>
    match outgoing.find? m.isElse with
    | some t => pure (some t)
    | none => do
      report c (.noBranch (m.qualifiedName (.vertex v)))
      pure none
  | [t], .junction => pure (some t)
  | candidates, .junction => do
    report c (.ambiguousBranch (m.qualifiedName (.vertex v)) candidates.length)
    pure none
  | candidates, _ => do
    let index ← draw c candidates.length
    pure candidates[index]?

/-! ## Steps, traversals and triggers -/

mutual

def perform : Nat → Mode μ → List (Step μ δ) → Eval μ δ σ Unit
  | _, _, [] => pure ()
  | 0, _, _ :: _ => throw .outOfFuel
  | fuel + 1, mode, step :: rest => do
    performStep fuel mode step
    perform fuel mode rest

def performStep : Nat → Mode μ → Step μ δ → Eval μ δ σ Unit
  | 0, _, _ => throw .outOfFuel
  | fuel + 1, mode, step =>
    match step with
    | .announceEnter element => announceEnter m c element
    | .announceLeave element => announceLeave m c element
    | .act cause action => act mode.trigger cause action
    | .record region state => update (·.setCurrent region state)
    | .terminate => update (·.setTerminated true)
    | .leaveRegion region => do
      match (← inst).current? region with
      | some v => perform fuel { mode with deep := false } (← behavior p v).leave
      | none => pure ()
    | .enterRegion region initial kind => do
      let i ← inst
      let recorded := if mode.deep || kind.any (·.isHistory) then i.current? region else none
      match recorded.or initial with
      | some v =>
        let steps ← behavior p v
        let mode := { mode with deep := mode.deep || kind == some .deepHistory }
        perform fuel mode steps.beginEnter
        perform fuel mode steps.endEnter
      | none => pure ()
    | .traverse t => traverse fuel mode t

/-- Follows a transition. When the outermost traversal is over, the states that it led to are tried for completion. -/
def traverse : Nat → Mode μ → TransitionId → Eval μ δ σ Unit
  | 0, _, _ => throw .outOfFuel
  | fuel + 1, mode, t => do
    follow fuel mode.trigger t
    unless mode.nested do
      let arrived ← modifyGet fun run => (run.arrived, { run with arrived := [] })
      completeAll fuel arrived

/-- Performs the steps of a transition, and goes on where it leads to a branch. -/
def follow : Nat → Trigger μ → TransitionId → Eval μ δ σ Unit
  | 0, _, _ => throw .outOfFuel
  | fuel + 1, trigger, t => do
    match m.transition? t, p.route? t with
    | some record, some route =>
      let i ← inst
      note (.fired t trigger i)
      perform fuel { trigger, nested := true } (route.steps i)
      match record.target with
      | none => pure ()
      | some target =>
        let reached ← vertex m target
        match reached.form with
        | .state _ => modify fun run => { run with arrived := run.arrived ++ [target] }
        | .pseudo kind =>
          if kind.isBranch then
            match ← selectBranch m c target kind reached.outgoing trigger with
            | some next => follow fuel trigger next
            | none => pure ()
    | _, _ => throw (.dangling t)

def completeAll : Nat → List VertexId → Eval μ δ σ Unit
  | _, [] => pure ()
  | 0, _ :: _ => throw .outOfFuel
  | fuel + 1, v :: rest => do
    complete fuel v
    completeAll fuel rest

/-- Offers a state its own completion, if it is active and complete and the instance has not terminated. -/
def complete : Nat → VertexId → Eval μ δ σ Unit
  | 0, _ => throw .outOfFuel
  | fuel + 1, v => do
    unless (← inst).terminated do
      if ← isActive m v then
        if ← isComplete m v then
          let _ ← offer fuel (.completion v) v

/-- Offers a trigger to the states active beneath `v`, and to `v` itself if none of them consumes it. A state that
has consumed nothing fires the one transition of its own that is enabled. -/
def offer : Nat → Trigger μ → VertexId → Eval μ δ σ Bool
  | 0, _, _ => throw .outOfFuel
  | fuel + 1, trigger, v => do
    let record ← vertex m v
    match record.form with
    | .pseudo _ => pure false
    | .state content =>
      if (← inst).terminated then pure false
      else
        note (.offered v trigger)
        let consumed ← if trigger.isCompletionOf v then pure false else offerBeneath fuel trigger v content.regions
        if consumed then
          complete fuel v
          pure true
        else
          match enabled m v record.outgoing trigger (← inst) with
          | [] => pure false
          | [t] => do
            traverse fuel { trigger } t
            pure true
          | several => do
            report c (.ambiguousTransition (m.qualifiedName (.vertex v)) several.length)
            pure false

/-- Offers a trigger region by region, as long as `v` stays active. -/
def offerBeneath : Nat → Trigger μ → VertexId → List RegionId → Eval μ δ σ Bool
  | _, _, _, [] => pure false
  | 0, _, _, _ :: _ => throw .outOfFuel
  | fuel + 1, trigger, v, r :: rest => do
    match (← inst).current? r with
    | none => offerBeneath fuel trigger v rest
    | some current =>
      if ← offer fuel trigger current then
        if ← isActive m v then
          unless (← inst).terminated do
            let _ ← offerBeneath fuel trigger v rest
        pure true
      else offerBeneath fuel trigger v rest

end

end Eval

end Statechart
