import Statechart.Guard

/-!
# Scripted actions and conditions

Actions and conditions as data, for machines that are described and not programmed. They work on a journal of lines
and on integer variables of 64 bits.
-/

namespace Statechart

/-! ## Memory -/

structure Memory where
  /-- The latest line first. -/
  journal : List String := []
  /-- Each variable that was ever set, once. -/
  values : List (String × Int64) := []
deriving DecidableEq

namespace Memory

def write (line : String) (memory : Memory) : Memory := { memory with journal := line :: memory.journal }

/-- A variable that was never set is zero. -/
def get (memory : Memory) (name : String) : Int64 := (memory.values.lookup name).getD 0

def assign (name : String) (value : Int64) : List (String × Int64) → List (String × Int64)
  | [] => [(name, value)]
  | (other, old) :: rest => if other = name then (name, value) :: rest else (other, old) :: assign name value rest

def set (name : String) (value : Int64) (memory : Memory) : Memory :=
  { memory with values := assign name value memory.values }

end Memory

/-- An instance of a scripted machine. Its messages are texts. -/
abbrev ScriptInstance := Instance Memory

/-! ## Actions -/

inductive Command where
  | log (line : String)
  | logTrigger (line : String)
  | logCurrent (region : RegionId)
  | increment (name : String) (amount : Int64)
  | set (name : String) (value : Int64)
  | terminate (value : Bool)
  | setCurrent (region : RegionId) (vertex : VertexId)
deriving DecidableEq

def Trigger.label : Trigger String → String
  | .initialise => "initialise"
  | .message content => "message:" ++ content
  | .completion state => "completion:" ++ toString state.index

namespace Command

def remember (f : Memory → Memory) (i : ScriptInstance) : ScriptInstance := { i with data := f i.data }

def run (command : Command) : Action String Memory := fun trigger i =>
  match command with
  | .log line => remember (.write line) i
  | .logTrigger line => remember (.write (line ++ "/" ++ trigger.label)) i
  | .logCurrent region =>
    let current := match i.current? region with
      | some v => toString v.index
      | none => "none"
    remember (.write (toString region.index ++ "=" ++ current)) i
  | .increment name amount => remember (fun memory => memory.set name (memory.get name + amount)) i
  | .set name value => remember (.set name value) i
  | .terminate value => i.setTerminated value
  | .setCurrent region v => i.setCurrent region v

end Command

/-! ## Conditions -/

inductive Comparison where
  | lt | le | eq | ne | ge | gt
deriving DecidableEq, Repr

def Comparison.holds (comparison : Comparison) (a b : Int64) : Bool :=
  match comparison with
  | .lt => a < b
  | .le => a ≤ b
  | .eq => a == b
  | .ne => a != b
  | .ge => b ≤ a
  | .gt => b < a

inductive TriggerKind where
  | initialise | message | completion
deriving DecidableEq, Repr

def Trigger.kind {μ : Type} : Trigger μ → TriggerKind
  | .initialise => .initialise
  | .message _ => .message
  | .completion _ => .completion

inductive Condition where
  | message (content : String)
  | trigger (kind : TriggerKind)
  | compare (name : String) (comparison : Comparison) (value : Int64)
  | logged (line : String)
  | current (region : RegionId) (vertex : VertexId)
  | terminated (value : Bool)
  | const (value : Bool)
  | all (conditions : List Condition)
  | any (conditions : List Condition)
  | not (condition : Condition)

namespace Condition

mutual

def holds (trigger : Trigger String) (i : ScriptInstance) : Condition → Bool
  | .message content => trigger.message? = some content
  | .trigger kind => trigger.kind = kind
  | .compare name comparison value => comparison.holds (i.data.get name) value
  | .logged line => i.data.journal.contains line
  | .current region v => i.current? region = some v
  | .terminated value => i.terminated == value
  | .const value => value
  | .all conditions => allHold trigger i conditions
  | .any conditions => someHolds trigger i conditions
  | .not condition => !holds trigger i condition

def allHold (trigger : Trigger String) (i : ScriptInstance) : List Condition → Bool
  | [] => true
  | condition :: rest => holds trigger i condition && allHold trigger i rest

def someHolds (trigger : Trigger String) (i : ScriptInstance) : List Condition → Bool
  | [] => false
  | condition :: rest => holds trigger i condition || someHolds trigger i rest

end

end Condition

end Statechart
