import Statechart.Instant.Reader
import Statechart.Snapshot

/-!
# Snapshots as bytes

Numbers have a fixed width, the lowest byte first. Texts and lists have their length in front, and an optional value has
a byte that says whether it is there.
-/

namespace Statechart

/-! ## Encoding -/

namespace Bytes

/-- The lowest so many bytes of a number. -/
def ofNat : Nat → Nat → List UInt8
  | 0, _ => []
  | width + 1, n => UInt8.ofNat (n % 256) :: ofNat width (n / 256)

def ofLength (n : Nat) : List UInt8 := ofNat 8 n

def ofText (text : String) : List UInt8 :=
  let bytes := text.toUTF8.data.toList
  ofLength bytes.length ++ bytes

def ofBool (b : Bool) : List UInt8 := [if b then 1 else 0]

def ofTextOption : Option String → List UInt8
  | none => [0]
  | some text => 1 :: ofText text

mutual

def ofStateNode : StateNode → List UInt8
  | .mk name regions => ofText name ++ ofLength regions.length ++ ofRegionNodes regions

def ofRegionNode : RegionNode → List UInt8
  | .mk name current states => ofText name ++ ofTextOption current ++ ofLength states.length ++ ofStateNodes states

def ofStateNodes : List StateNode → List UInt8
  | [] => []
  | node :: rest => ofStateNode node ++ ofStateNodes rest

def ofRegionNodes : List RegionNode → List UInt8
  | [] => []
  | node :: rest => ofRegionNode node ++ ofRegionNodes rest

end

end Bytes

def Snapshot.toBytes (s : Snapshot) : List UInt8 :=
  Bytes.ofNat 4 s.version.toNat ++ Bytes.ofLength s.id.bytes.length ++ s.id.bytes ++ Bytes.ofText s.timestamp.text ++
    Bytes.ofText s.machine ++ Bytes.ofBool s.terminated ++ Bytes.ofStateNode s.root

/-! ## Decoding -/

/-- Takes a value off the front of some bytes. -/
abbrev Decoder := StateT (List UInt8) Option

namespace Decoder

def byte : Decoder UInt8
  | [] => none
  | b :: rest => some (b, rest)

def nat : Nat → Decoder Nat
  | 0 => pure 0
  | width + 1 => do
    let low ← byte
    let high ← nat width
    pure (low.toNat + 256 * high)

def length : Decoder Nat := nat 8

/-- The next so many bytes, all of which must be there. -/
def take (n : Nat) : Decoder (List UInt8) := fun bytes =>
  if n ≤ bytes.length then some (bytes.splitAt n) else none

def text : Decoder String := do
  let bytes ← take (← length)
  String.fromUTF8? ⟨bytes.toArray⟩

def bool : Decoder Bool := do
  match ← byte with
  | 0 => pure false
  | 1 => pure true
  | _ => failure

def textOption : Decoder (Option String) := do
  if ← bool then some <$> text else pure none

def values {α : Type} (value : Decoder α) : Nat → Decoder (List α)
  | 0 => pure []
  | n + 1 => do
    let first ← value
    let rest ← values value n
    pure (first :: rest)

def list {α : Type} (value : Decoder α) : Decoder (List α) := do
  values value (← length)

def uuid : Decoder Uuid := do
  Uuid.ofBytes? (← take (← length))

def instant : Decoder Instant := do
  Instant.parse? (← text)

def regionNode (stateNode : Decoder StateNode) : Decoder RegionNode := do
  let name ← text
  let current ← textOption
  let states ← list stateNode
  pure (.mk name current states)

/-- A state, with states beneath it at most so many levels down. -/
def stateNode : Nat → Decoder StateNode
  | 0 => failure
  | depth + 1 => do
    let name ← text
    let regions ← list (regionNode (stateNode depth))
    pure (.mk name regions)

/-- A snapshot of any version. No nesting is deeper than there are bytes. -/
def snapshot : Decoder Snapshot := do
  let version ← nat 4
  let id ← uuid
  let timestamp ← instant
  let machine ← text
  let terminated ← bool
  let root ← stateNode (← get).length
  pure { version := UInt32.ofNat version, id, timestamp, machine, terminated, root }

end Decoder

/-- Reads a snapshot off the front of some bytes. What follows it does not matter. -/
def Snapshot.ofBytes (bytes : List UInt8) : Except CheckpointError Snapshot :=
  match Decoder.snapshot bytes with
  | some (s, _) => s.checkVersion
  | none => .error (.deserializationFailed "the bytes are no snapshot")

end Statechart
