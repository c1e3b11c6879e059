import Statechart.Violation

/-!
# Contexts

A context is what the caller lends to an evaluation: a sink that is told what happens and decides which errors may
pass, and a source of random numbers. Both work on a state of the caller's choice.
-/

namespace Statechart

/-! ## Errors -/

inductive MachineError where
  /-- The model has changed since it was compiled, and compiling is left to the caller. -/
  | notCompiled
  | ambiguousTransition (state : String) (count : Nat)
  | ambiguousBranch (junction : String) (count : Nat)
  /-- No branch is enabled and there is no else transition. -/
  | noBranch (pseudoState : String)
  | illFormed (violation : Violation)
deriving DecidableEq, Repr

def MachineError.message : MachineError → String
  | .notCompiled => "State machine has not been compiled since its last change"
  | .ambiguousTransition state count => s!"{count} transitions are enabled from state {state}"
  | .ambiguousBranch junction count => s!"{count} branches are enabled from junction {junction}"
  | .noBranch pseudoState => s!"No branch is enabled from {pseudoState} and it has no else transition"
  | .illFormed violation => s!"Ill-formed model: {violation.message}"

/-! ## Contexts -/

/-- The sink and the random source, working on a state of type `σ`. -/
structure Context (σ : Type) where
  /-- Machines that have changed are compiled before an evaluation. -/
  autoCompile : Bool := true
  log : String → σ → σ
  warn : String → σ → σ
  /-- Takes notice of an error and says whether it may pass. An error that may not pass ends the call, and a sink that
  hands back another in its place keeps that one in its state. -/
  tolerate : MachineError → σ → Bool × σ
  /-- A number for a choice among this many; of a greater one only the remainder counts. -/
  random : Nat → σ → Nat × σ

namespace Context

variable {σ : Type}

def text (c : Context σ) : String := "Context \x7b auto_compile: " ++ toString c.autoCompile ++ ", .. \x7d"

/-- A sink that lets nothing pass and keeps nothing, and a source that always picks the first branch. -/
def strict : Context Unit where
  log _ s := s
  warn _ s := s
  tolerate _ s := (false, s)
  random _ s := (0, s)

end Context

end Statechart
