import Statechart.Context

/-!
# Recorders

A context that keeps what it is told, lets a given set of errors pass, and takes its random numbers from a list.
-/

namespace Statechart

/-- What has been recorded, the latest first. -/
structure Recorder where
  traces : List String := []
  warnings : List String := []
  errors : List MachineError := []
  /-- How many branches each choice was among. -/
  draws : List Nat := []
  /-- How many random numbers have been taken. -/
  taken : Nat := 0
deriving Repr

namespace Recorder

/-- Which errors a sink lets pass; a silent sink lets none pass and keeps nothing. -/
inductive Sink where
  | silent
  | recording (passes : MachineError → Bool)

/-- Where random numbers come from. -/
inductive Source where
  /-- Any number will do, and nothing is kept. -/
  | silent
  /-- Over and over the numbers of a list, or always zero if there are none. -/
  | cycling (values : List Nat)

namespace Sink

def log (sink : Sink) (line : String) (r : Recorder) : Recorder :=
  match sink with
  | .silent => r
  | .recording _ => { r with traces := line :: r.traces }

def warn (sink : Sink) (line : String) (r : Recorder) : Recorder :=
  match sink with
  | .silent => r
  | .recording _ => { r with warnings := line :: r.warnings }

def tolerate (sink : Sink) (error : MachineError) (r : Recorder) : Bool × Recorder :=
  match sink with
  | .silent => (false, r)
  | .recording passes => (passes error, { r with errors := error :: r.errors })

end Sink

def Source.random (source : Source) (count : Nat) (r : Recorder) : Nat × Recorder :=
  match source with
  | .silent => (0, r)
  | .cycling values =>
    (values[r.taken % values.length]?.getD 0, { r with draws := count :: r.draws, taken := r.taken + 1 })

def context (sink : Sink) (source : Source) (autoCompile : Bool) : Context Recorder where
  autoCompile
  log := sink.log
  warn := sink.warn
  tolerate := sink.tolerate
  random := source.random

/-- Forgets all that has been recorded, but not how many random numbers have been taken. -/
def clear (r : Recorder) : Recorder := { taken := r.taken }

end Recorder

end Statechart
