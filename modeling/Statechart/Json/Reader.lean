import Statechart.Hex
import Statechart.Json

/-!
# Reading JSON

A text is read to its end, with blanks allowed around every token. The reader takes what the grammar of JSON takes and
sets no limit to nesting.
-/

namespace Statechart.Json

/-! ## Strings -/

def isBlank (c : Char) : Bool := c == ' ' || c == '\n' || c == '\r' || c == '\t'

def skipBlanks (s : List Char) : List Char := s.dropWhile isBlank

def codeUnit? (a b c d : Char) : Option Nat := do
  return ((← Hex.value? a) * 4096 + (← Hex.value? b) * 256 + (← Hex.value? c) * 16 + (← Hex.value? d))

/-- A part of a string: a character that is written out or has an escape of its own, or a code unit. -/
inductive Piece where
  | char (c : Char)
  | unit (code : Nat)

def unescape? : Char → Option Char
  | '"' => some '"'
  | '\\' => some '\\'
  | '/' => some '/'
  | 'b' => some '\x08'
  | 'f' => some '\x0c'
  | 'n' => some '\n'
  | 'r' => some '\r'
  | 't' => some '\t'
  | _ => none

/-- Reads the pieces of a string up to the closing quote. Control characters have to be escaped. -/
def readPieces : List Char → Option (List Piece × List Char)
  | [] => none
  | '"' :: rest => some ([], rest)
  | '\\' :: 'u' :: a :: b :: c :: d :: rest => do
    let code ← codeUnit? a b c d
    let (pieces, rest) ← readPieces rest
    return (.unit code :: pieces, rest)
  | '\\' :: c :: rest => do
    let c ← unescape? c
    let (pieces, rest) ← readPieces rest
    return (.char c :: pieces, rest)
  | c :: rest =>
    if c == '\\' || c.toNat < 32 then none
    else do
      let (pieces, rest) ← readPieces rest
      return (.char c :: pieces, rest)

def isHighSurrogate (code : Nat) : Bool := 0xD800 ≤ code && code < 0xDC00

def isLowSurrogate (code : Nat) : Bool := 0xDC00 ≤ code && code < 0xE000

/-- The characters that pieces stand for. Code units beyond the first plane come in pairs. -/
def assemble : List Piece → Option (List Char)
  | [] => some []
  | .char c :: rest => (assemble rest).map (c :: ·)
  | .unit high :: .unit low :: rest =>
    if isHighSurrogate high && isLowSurrogate low then
      (assemble rest).map (Char.ofNat (0x10000 + (high - 0xD800) * 1024 + (low - 0xDC00)) :: ·)
    else if isHighSurrogate high || isLowSurrogate high then none
    else (assemble (.unit low :: rest)).map (Char.ofNat high :: ·)
  | .unit code :: rest =>
    if isHighSurrogate code || isLowSurrogate code then none else (assemble rest).map (Char.ofNat code :: ·)

/-- Reads a string whose opening quote has been read. -/
def readContent (s : List Char) : Option (Content × List Char) := do
  let (pieces, rest) ← readPieces s
  return ((assemble pieces).map String.ofList, rest)

/-! ## Numbers -/

def readDigits (s : List Char) : Option (List Char × List Char) :=
  match s.span Char.isDigit with
  | ([], _) => none
  | (digits, rest) => some (digits, rest)

/-- Reads the digits before any point. They do not start with a zero unless that is all. -/
def readWhole (s : List Char) : Option (List Char × List Char) := do
  let (digits, rest) ← readDigits s
  if digits.head? == some '0' && digits.length != 1 then none else return (digits, rest)

def readFraction : List Char → Option (List Char × List Char)
  | '.' :: s => do
    let (digits, rest) ← readDigits s
    return ('.' :: digits, rest)
  | s => some ([], s)

def readExponent : List Char → Option (List Char × List Char)
  | c :: s =>
    if c == 'e' || c == 'E' then do
      let (sign, s) := match s with
        | '+' :: s => (['+'], s)
        | '-' :: s => (['-'], s)
        | s => ([], s)
      let (digits, rest) ← readDigits s
      return (c :: sign ++ digits, rest)
    else some ([], c :: s)
  | [] => some ([], [])

def readNumber (s : List Char) : Option (Json × List Char) := do
  let (sign, s) := match s with
    | '-' :: s => (['-'], s)
    | s => ([], s)
  let (whole, s) ← readWhole s
  let (fraction, s) ← readFraction s
  let (exponent, s) ← readExponent s
  if sign.isEmpty && fraction.isEmpty && exponent.isEmpty then return (.natural (Nat.ofDigitChars 10 whole 0), s)
  else return (.number (sign ++ whole ++ fraction ++ exponent), s)

/-! ## Values -/

mutual

/-- Reads a value, on the fuel of at least one more than there are characters. -/
def readValue : Nat → List Char → Option (Json × List Char)
  | 0, _ => none
  | fuel + 1, s =>
    match skipBlanks s with
    | 'n' :: 'u' :: 'l' :: 'l' :: rest => some (.null, rest)
    | 't' :: 'r' :: 'u' :: 'e' :: rest => some (.bool true, rest)
    | 'f' :: 'a' :: 'l' :: 's' :: 'e' :: rest => some (.bool false, rest)
    | '"' :: rest => do
      let (content, rest) ← readContent rest
      return (.text content, rest)
    | '[' :: rest =>
      match skipBlanks rest with
      | ']' :: rest => some (.array [], rest)
      | rest => do
        let (item, rest) ← readValue fuel rest
        let (items, rest) ← readItems fuel rest
        return (.array (item :: items), rest)
    | '\x7b' :: rest =>
      match skipBlanks rest with
      | '\x7d' :: rest => some (.object [], rest)
      | rest => do
        let (member, rest) ← readMember fuel rest
        let (members, rest) ← readMembers fuel rest
        return (.object (member :: members), rest)
    | s => readNumber s

def readItems : Nat → List Char → Option (List Json × List Char)
  | 0, _ => none
  | fuel + 1, s =>
    match skipBlanks s with
    | ']' :: rest => some ([], rest)
    | ',' :: rest => do
      let (item, rest) ← readValue fuel rest
      let (items, rest) ← readItems fuel rest
      return (item :: items, rest)
    | _ => none

def readMember : Nat → List Char → Option ((Content × Json) × List Char)
  | 0, _ => none
  | fuel + 1, s =>
    match skipBlanks s with
    | '"' :: rest => do
      let (name, rest) ← readContent rest
      match skipBlanks rest with
      | ':' :: rest => do
        let (value, rest) ← readValue fuel rest
        return ((name, value), rest)
      | _ => none
    | _ => none

def readMembers : Nat → List Char → Option (List (Content × Json) × List Char)
  | 0, _ => none
  | fuel + 1, s =>
    match skipBlanks s with
    | '\x7d' :: rest => some ([], rest)
    | ',' :: rest => do
      let (member, rest) ← readMember fuel rest
      let (members, rest) ← readMembers fuel rest
      return (member :: members, rest)
    | _ => none

end

/-- The value that a text says; none if it is no JSON text. -/
def parse? (text : String) : Option Json := do
  let s := text.toList
  let (value, rest) ← readValue (s.length + 1) s
  if (skipBlanks rest).isEmpty then return value else none

end Statechart.Json
