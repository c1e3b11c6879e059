import Statechart.Evaluator
import Statechart.Machine

/-!
# Initialising and evaluating

An instance is put into its first configuration and is then given messages. The machine has to be compiled for that,
which happens on the way if the context wants it.
-/

namespace Statechart

namespace Machine

variable {μ δ σ : Type} (m : Machine μ δ) (c : Context σ) (fuel : Nat)

/-! ## Compiled machines -/

/-- Enters the root of a machine that is compiled already. -/
def initialiseCompiled : Eval μ δ σ Unit :=
  match m.program with
  | some p => Eval.perform m.toModel p c fuel { trigger := .initialise } p.onInitialise
  | none => throw (.refused .notCompiled)

/-- Offers a message to a machine that is compiled already and says whether any transition fired. A terminated
instance consumes nothing. -/
def evaluateCompiled (message : μ) : Eval μ δ σ Bool := do
  if (← Eval.inst).terminated then
    pure false
  else
    match m.program with
    | some p => Eval.offer m.toModel p c fuel (.message message) root
    | none => throw (.refused .notCompiled)

/-! ## Compiling on the way -/

/-- The machine, compiled; none if it would have to be compiled and the context leaves that to the caller. -/
def prepare? : Option (Machine μ δ) :=
  if m.isClean then some m else if c.autoCompile then some m.compile else none

/-- The machine afterwards, and what came of the call. -/
abbrev Outcome (μ δ σ α : Type) := Machine μ δ × EStateM.Result Halt (Run μ δ σ) α

def initialise (i : Instance δ) (s : σ) : Outcome μ δ σ Unit :=
  let run := { inst := i, outside := s }
  match m.prepare? c with
  | some m => (m, m.initialiseCompiled c fuel run)
  | none => (m, .error (.refused .notCompiled) run)

def evaluate (message : μ) (i : Instance δ) (s : σ) : Outcome μ δ σ Bool :=
  let run := { inst := i, outside := s }
  if i.terminated then (m, .ok false run)
  else
    match m.prepare? c with
    | some m => (m, m.evaluateCompiled c fuel message run)
    | none => (m, .error (.refused .notCompiled) run)

end Machine

end Statechart
