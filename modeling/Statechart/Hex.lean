/-!
# Hexadecimal digits

Digits are written in lower case and read in either case.
-/

namespace Statechart.Hex

def digit (n : Nat) : Char := if n < 10 then Char.ofNat ('0'.toNat + n) else Char.ofNat ('a'.toNat + (n - 10))

def value? (c : Char) : Option Nat :=
  if c.isDigit then some (c.toNat - '0'.toNat)
  else if 'a' ≤ c ∧ c ≤ 'f' then some (c.toNat - 'a'.toNat + 10)
  else if 'A' ≤ c ∧ c ≤ 'F' then some (c.toNat - 'A'.toNat + 10)
  else none

theorem value?_digit {n : Nat} (h : n < 16) : value? (digit n) = some n := by
  have : ∀ n : Fin 16, value? (digit n) = some n.val := by decide
  exact this ⟨n, h⟩

def ofByte (b : UInt8) : List Char := [digit (b.toNat / 16), digit (b.toNat % 16)]

def readBytes : Nat → List Char → Option (List UInt8 × List Char)
  | 0, s => some ([], s)
  | n + 1, a :: b :: s => do
    let high ← value? a
    let low ← value? b
    let (bytes, rest) ← readBytes n s
    return (UInt8.ofNat (16 * high + low) :: bytes, rest)
  | _ + 1, _ => none

/-- The bytes that a text of digits writes. -/
def bytes? (s : List Char) : Option (List UInt8) := do
  let (bytes, rest) ← readBytes (s.length / 2) s
  if rest.isEmpty then return bytes else none

theorem readBytes_flatMap_ofByte (bytes : List UInt8) (rest : List Char) :
    readBytes bytes.length (bytes.flatMap ofByte ++ rest) = some (bytes, rest) := by
  induction bytes with
  | nil => rfl
  | cons b bytes ih =>
    have hb : b.toNat < 256 := b.toNat_lt
    have hq : 16 * (b.toNat / 16) + b.toNat % 16 = b.toNat := by omega
    simp only [List.flatMap_cons, ofByte, List.cons_append, List.nil_append, List.length_cons, readBytes]
    rw [value?_digit (by omega), value?_digit (by omega)]
    simp only [Option.bind_eq_bind, Option.bind_some]
    rw [ih]
    simp [hq]

end Statechart.Hex
