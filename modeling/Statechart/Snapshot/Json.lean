import Statechart.Instant.Reader
import Statechart.Json.Reader
import Statechart.Json.Writer
import Statechart.Snapshot

/-!
# Snapshots as JSON

Snapshots and their nodes are objects with a fixed order of members. They are read in any order and with foreign
members among their own, or as arrays of the values alone.
-/

namespace Statechart

/-! ## Writing -/

namespace Json

def ofString (s : String) : Json := .text (some s)

def ofOption : Option String → Json
  | some s => ofString s
  | none => .null

def ofMembers (members : List (String × Json)) : Json := .object (members.map fun (name, value) => (some name, value))

end Json

mutual

def StateNode.toJson : StateNode → Json
  | .mk name regions => Json.ofMembers [("name", Json.ofString name), ("regions", .array (regionNodesToJson regions))]

def RegionNode.toJson : RegionNode → Json
  | .mk name current states =>
    Json.ofMembers
      [("name", Json.ofString name), ("current", Json.ofOption current), ("states", .array (stateNodesToJson states))]

def stateNodesToJson : List StateNode → List Json
  | [] => []
  | node :: rest => node.toJson :: stateNodesToJson rest

def regionNodesToJson : List RegionNode → List Json
  | [] => []
  | node :: rest => node.toJson :: regionNodesToJson rest

end

namespace Snapshot

def toJsonValue (s : Snapshot) : Json :=
  Json.ofMembers
    [("version", .natural s.version.toNat), ("id", Json.ofString s.id.text),
      ("timestamp", Json.ofString s.timestamp.text), ("machine", Json.ofString s.machine),
      ("terminated", .bool s.terminated), ("root", s.root.toJson)]

def toJson (s : Snapshot) : String := s.toJsonValue.render

end Snapshot

/-! ## Reading -/

namespace Json

def membersNamed (name : String) (members : List (Content × Json)) : List Json :=
  members.filterMap fun (other, value) => if other = some name then some value else none

/-- The value of one field in an object: none if the field is missing, and a failure if it is there twice. -/
def field? (members : List (Content × Json)) (name : String) : Option (Option Json) :=
  match membersNamed name members with
  | [] => some none
  | [value] => some (some value)
  | _ => none

/-- The values of fields in order. Each is optional in an object and required in an array, which has no others. An
object may have other members, as long as their names are sound. -/
def fields? (names : List String) : Json → Option (List (Option Json))
  | .object members =>
    if members.all (·.1.isSome) then names.mapM (field? members) else none
  | .array items => if items.length = names.length then some (items.map some) else none
  | _ => none

def textOption? : Json → Option (Option String)
  | .null => some none
  | .text content => content.map some
  | _ => none

end Json

mutual

/-- A state, within so many levels of objects and arrays. -/
def StateNode.ofJson? : Nat → Json → Option StateNode
  | depth + 2, value => do
    match ← value.fields? ["name", "regions"] with
    | [some name, some regions] =>
      return .mk (← name.string?) (← (← regions.items?).mapM (RegionNode.ofJson? depth))
    | _ => none
  | _, _ => none

def RegionNode.ofJson? : Nat → Json → Option RegionNode
  | depth + 2, value => do
    match ← value.fields? ["name", "current", "states"] with
    | [some name, current, some states] =>
      let current ← match current with
        | some current => current.textOption?
        | none => some none
      return .mk (← name.string?) current (← (← states.items?).mapM (StateNode.ofJson? depth))
    | _ => none
  | _, _ => none

end

namespace Snapshot

/-- How many levels of objects and arrays a text may have; more are refused. -/
def maxDepth : Nat := 127

def version? (value : Json) : Option UInt32 := do
  let version ← value.nat?
  if version < 4294967296 then return UInt32.ofNat version else none

/-- A snapshot of any version. -/
def ofJsonValue? (value : Json) : Option Snapshot := do
  match ← value.fields? ["version", "id", "timestamp", "machine", "terminated", "root"] with
  | [some version, some id, some timestamp, some machine, some terminated, some root] =>
    return {
      version := ← version? version
      id := ← Uuid.parse? (← id.string?)
      timestamp := ← Instant.parse? (← timestamp.string?)
      machine := ← machine.string?
      terminated := ← terminated.bool?
      root := ← StateNode.ofJson? (maxDepth - 1) root }
  | _ => none

def ofJson (text : String) : Except CheckpointError Snapshot :=
  match (Json.parse? text).bind ofJsonValue? with
  | some s => s.checkVersion
  | none => .error (.deserializationFailed "the text is no snapshot")

end Snapshot

end Statechart
