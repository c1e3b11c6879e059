import Statechart.Compile

/-!
# Machines

A machine is a model together with its program, as long as the model has not changed since the program was made.
-/

namespace Statechart

structure Machine (μ δ : Type) extends Model μ δ where
  /-- None before the first compilation and after every change of the model. -/
  program : Option (Program μ δ) := none

namespace Machine

variable {μ δ : Type}

def ofName (name : String) : Machine μ δ := { toModel := Model.ofName name }

/-- Nothing has changed since the machine was compiled. -/
def isClean (m : Machine μ δ) : Bool := m.program.isSome

def compile (m : Machine μ δ) : Machine μ δ := { m with program := some m.toModel.compile }

@[simp] theorem toModel_compile (m : Machine μ δ) : m.compile.toModel = m.toModel := rfl

@[simp] theorem isClean_compile (m : Machine μ δ) : m.compile.isClean = true := rfl

end Machine

end Statechart
