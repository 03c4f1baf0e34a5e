import SignedRefs.Bytes
import SignedRefs.Text.Quoted

/-!
# Hexadecimal Text

Identifiers are shown and read in base 16. `Hex.encode` writes two lower-case digits for each
byte; `Hex.decode` reads digits of either letter case from the UTF-8 bytes of a text and reports
the first fault: an odd number of digits before anything else, then the first byte that is no
digit.
-/

namespace SignedRefs.Hex

/-- The digit with a value below sixteen. -/
def digit (value : Nat) : Char :=
  if value < 10 then Char.ofNat (48 + value) else Char.ofNat (87 + value)

/-- The two digits of each byte. -/
def digits (bytes : Bytes) : List Char :=
  bytes.flatMap fun byte => [digit (byte.toNat / 16), digit (byte.toNat % 16)]

/-- The bytes in lower-case digits. -/
def encode (bytes : Bytes) : String := String.ofList (digits bytes)

/-- Why a text is not hexadecimal. -/
inductive Fault
  /-- The text has an odd number of bytes. -/
  | oddLength
  /-- The byte at this position is no digit. -/
  | invalidDigit (byte : UInt8) (position : Nat)
deriving DecidableEq

/-- The text of a fault; the byte is shown as the character of its number. -/
def Fault.message : Fault → String
  | .oddLength => "Odd number of digits"
  | .invalidDigit byte position =>
    "Invalid character " ++ Text.quotedChar (Char.ofNat byte.toNat) ++ " at position " ++
      toString position

/-- The value of a digit, whatever its letter case. -/
def digitValue? (byte : UInt8) : Option Nat :=
  let code := byte.toNat
  if 48 ≤ code ∧ code ≤ 57 then some (code - 48)
  else if 97 ≤ code ∧ code ≤ 102 then some (code - 87)
  else if 65 ≤ code ∧ code ≤ 70 then some (code - 55)
  else none

/-- The value of the digit at a position. -/
def digitAt (byte : UInt8) (position : Nat) : Except Fault Nat :=
  match digitValue? byte with
  | some value => .ok value
  | none => .error (.invalidDigit byte position)

/-- Reads pairs of digits, the first of which stands at `position`. -/
def decodePairs (position : Nat) : Bytes → Except Fault Bytes
  | high :: low :: rest => do
    let h ← digitAt high position
    let l ← digitAt low (position + 1)
    let tail ← decodePairs (position + 2) rest
    return UInt8.ofNat (16 * h + l) :: tail
  | _ => .ok []

/-- The bytes that a text names. -/
def decode (text : String) : Except Fault Bytes :=
  let source := Bytes.ofText text
  if source.length % 2 = 1 then .error .oddLength else decodePairs 0 source

end SignedRefs.Hex
