import Statechart.Hex

/-!
# Universally unique identifiers

Sixteen bytes, written as hexadecimal digits in five groups.
-/

namespace Statechart

structure Uuid where
  bytes : List UInt8
  length_bytes : bytes.length = 16
deriving DecidableEq

namespace Uuid

def zero : Uuid := ⟨List.replicate 16 0, rfl⟩

def ofBytes? (bytes : List UInt8) : Option Uuid := if h : bytes.length = 16 then some ⟨bytes, h⟩ else none

theorem ofBytes?_bytes (u : Uuid) : ofBytes? u.bytes = some u := by
  simp [ofBytes?, u.length_bytes]

/-! ## Texts -/

def group (u : Uuid) (start count : Nat) : List Char := ((u.bytes.drop start).take count).flatMap Hex.ofByte

def toChars (u : Uuid) : List Char :=
  u.group 0 4 ++ '-' :: u.group 4 2 ++ '-' :: u.group 6 2 ++ '-' :: u.group 8 2 ++ '-' :: u.group 10 6

def text (u : Uuid) : String := String.ofList u.toChars

def hyphen? : List Char → Option (List Char)
  | '-' :: rest => some rest
  | _ => none

/-- Reads five groups with hyphens between them. -/
def ofGroups? (s : List Char) : Option Uuid := do
  let (a, s) ← Hex.readBytes 4 s
  let (b, s) ← Hex.readBytes 2 (← hyphen? s)
  let (c, s) ← Hex.readBytes 2 (← hyphen? s)
  let (d, s) ← Hex.readBytes 2 (← hyphen? s)
  let (e, s) ← Hex.readBytes 6 (← hyphen? s)
  if s.isEmpty then ofBytes? (a ++ b ++ c ++ d ++ e) else none

def urnPrefix : List Char := "urn:uuid:".toList

/-- What follows the prefix of a uniform resource name, which is written in either case. -/
def afterUrnPrefix? (s : List Char) : Option (List Char) :=
  if (s.take urnPrefix.length).map Char.toLower = urnPrefix then some (s.drop urnPrefix.length) else none

/-- Reads the digits without hyphens, or groups that stand alone, in braces or in a uniform resource name. -/
def ofChars? (s : List Char) : Option Uuid :=
  if s.length = 32 then (Hex.bytes? s).bind ofBytes?
  else
    match s with
    | '\x7b' :: rest => if rest.getLast? = some '\x7d' then ofGroups? rest.dropLast else none
    | s => ofGroups? ((afterUrnPrefix? s).getD s)

def parse? (text : String) : Option Uuid := ofChars? text.toList

end Uuid

end Statechart
