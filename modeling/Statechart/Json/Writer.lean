import Statechart.Hex
import Statechart.Json

/-!
# Writing JSON

Values are laid out over lines, two blanks deeper for each level. Empty arrays and objects stay on one line.
-/

namespace Statechart.Json

/-! ## Strings -/

/-- Quotes, backslashes and control characters are escaped, and nothing else is. -/
def escape (c : Char) : List Char :=
  match c with
  | '"' => ['\\', '"']
  | '\\' => ['\\', '\\']
  | '\n' => ['\\', 'n']
  | '\r' => ['\\', 'r']
  | '\t' => ['\\', 't']
  | '\x08' => ['\\', 'b']
  | '\x0c' => ['\\', 'f']
  | c => if c.toNat < 32 then ['\\', 'u', '0', '0', Hex.digit (c.toNat / 16), Hex.digit (c.toNat % 16)] else [c]

def writeContent : Content → List Char
  | some content => '"' :: content.toList.flatMap escape ++ ['"']
  | none => ['"', '\\', 'u', 'd', '8', '0', '0', '"']

/-! ## Values -/

def newline (depth : Nat) : List Char := '\n' :: List.replicate (2 * depth) ' '

mutual

def write (depth : Nat) : Json → List Char
  | .null => ['n', 'u', 'l', 'l']
  | .bool true => ['t', 'r', 'u', 'e']
  | .bool false => ['f', 'a', 'l', 's', 'e']
  | .natural value => Nat.toDigits 10 value
  | .number literal => literal
  | .text content => writeContent content
  | .array [] => ['[', ']']
  | .array (item :: rest) =>
    '[' :: newline (depth + 1) ++ write (depth + 1) item ++ writeItems (depth + 1) rest ++ newline depth ++ [']']
  | .object [] => ['\x7b', '\x7d']
  | .object (member :: rest) =>
    '\x7b' :: newline (depth + 1) ++ writeMember (depth + 1) member ++ writeMembers (depth + 1) rest ++
      newline depth ++ ['\x7d']

def writeItems (depth : Nat) : List Json → List Char
  | [] => []
  | item :: rest => ',' :: newline depth ++ write depth item ++ writeItems depth rest

def writeMember (depth : Nat) : Content × Json → List Char
  | (name, value) => writeContent name ++ [':', ' '] ++ write depth value

def writeMembers (depth : Nat) : List (Content × Json) → List Char
  | [] => []
  | member :: rest => ',' :: newline depth ++ writeMember depth member ++ writeMembers depth rest

end

def render (value : Json) : String := String.ofList (value.write 0)

end Statechart.Json
