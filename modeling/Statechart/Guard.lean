import Statechart.Instance

/-!
# Triggers, actions and guards

A trigger is what makes a transition be considered. Actions and predicates are the caller's: an action may change
the instance, a predicate only reads it.
-/

namespace Statechart

/-! ## Triggers -/

inductive Trigger (μ : Type) where
  /-- An instance is being put into its first configuration. -/
  | initialise
  | message (content : μ)
  /-- A state has come to the end of all its regions. -/
  | completion (state : VertexId)
deriving DecidableEq, Repr

namespace Trigger

variable {μ : Type}

def message? : Trigger μ → Option μ
  | .message content => some content
  | _ => none

def isCompletionOf (trigger : Trigger μ) (v : VertexId) : Bool :=
  match trigger with
  | .completion state => state = v
  | _ => false

/-- `Initialise`, `Message(…)` with the message as `render` writes it, or `Completion(VertexId(…))`. -/
def text (render : μ → String) : Trigger μ → String
  | .initialise => "Initialise"
  | .message content => "Message(" ++ render content ++ ")"
  | .completion state => "Completion(VertexId(" ++ toString state.index ++ "))"

theorem isCompletionOf_iff {trigger : Trigger μ} {v : VertexId} :
    trigger.isCompletionOf v = true ↔ trigger = .completion v := by
  cases trigger <;> simp [isCompletionOf]

end Trigger

/-! ## Actions and guards -/

/-- What the caller does to an instance on entry, on exit or along a transition. -/
abbrev Action (μ δ : Type) := Trigger μ → Instance δ → Instance δ

/-- A question that the caller asks of a trigger and an instance. -/
abbrev Predicate (μ δ : Type) := Trigger μ → Instance δ → Bool

/-- When a transition may be taken. -/
inductive Guard (μ δ : Type) where
  /-- On completion of the transition's source. -/
  | completion
  | always
  /-- Only where no other branch can be taken. -/
  | otherwise
  | when (holds : Predicate μ δ)

namespace Guard

variable {μ δ : Type}

def on [DecidableEq μ] (expected : μ) : Guard μ δ := .when fun trigger _ => trigger.message? = some expected

def isElse : Guard μ δ → Bool
  | .otherwise => true
  | _ => false

def isUnconditional : Guard μ δ → Bool
  | .always => true
  | _ => false

/-- Whether a transition out of `source` with this guard is enabled; an else guard never is by itself. -/
def check (guard : Guard μ δ) (source : VertexId) (trigger : Trigger μ) (i : Instance δ) : Bool :=
  match guard with
  | .completion => trigger.isCompletionOf source
  | .always => true
  | .otherwise => false
  | .when holds => holds trigger i

def text : Guard μ δ → String
  | .completion => "Completion"
  | .always => "Always"
  | .otherwise => "Else"
  | .when _ => "When(..)"

end Guard

end Statechart
