/-!
# JSON values

What a JSON text says, as far as anything here asks for it. Numbers other than natural ones are kept as they are
written, and so is the order of members.
-/

namespace Statechart

/-- The content of a string; none where an escape is half of a surrogate pair, which stands for no character. -/
abbrev Json.Content := Option String

inductive Json where
  | null
  | bool (value : Bool)
  | natural (value : Nat)
  /-- A number with a sign, a fraction or an exponent. -/
  | number (literal : List Char)
  | text (content : Json.Content)
  | array (items : List Json)
  | object (members : List (Json.Content × Json))

namespace Json

/-! ## Looking into values -/

def nat? : Json → Option Nat
  | .natural value => some value
  | _ => none

def bool? : Json → Option Bool
  | .bool value => some value
  | _ => none

def string? : Json → Option String
  | .text content => content
  | _ => none

def items? : Json → Option (List Json)
  | .array items => some items
  | _ => none

end Json

end Statechart
