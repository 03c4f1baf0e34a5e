import SignedRefs.Bytes

/-!
# JSON Values

Configuration and policy files, and the readable form of messages, are JSON. A value keeps the
entries of an object in the order in which they are written, repeated names included, and numbers as
they are spelled. A string may hold what is no character: half of a surrogate pair, written by its
number. Such a string is no text, but it still has bytes.
-/

namespace SignedRefs.Json

/-! ### Strings -/

/-- A piece of a string. -/
inductive StringItem
  /-- A character. -/
  | char (c : Char)
  /-- A control character that is not written by its number, as it should be. -/
  | control (c : Char)
  /-- Half of a surrogate pair whose other half is missing. -/
  | surrogate (unit : Nat)
deriving DecidableEq

/-- The character of a piece, if it is a proper one. -/
def StringItem.char? : StringItem → Option Char
  | .char c => some c
  | _ => none

/-- The bytes of a piece: the UTF-8 form of a character, and the same pattern for half of a pair. -/
def StringItem.bytes : StringItem → Bytes
  | .char c | .control c => Bytes.ofText (String.singleton c)
  | .surrogate unit =>
    [UInt8.ofNat (0xe0 + unit / 4096), UInt8.ofNat (0x80 + unit / 64 % 64),
      UInt8.ofNat (0x80 + unit % 64)]

/-- What a string holds. -/
abbrev Content := List StringItem

/-- The content that spells a text. -/
def Content.ofText (text : String) : Content := text.toList.map .char

/-- The text that a content spells, if all of it is proper characters. -/
def Content.text? (content : Content) : Option String :=
  (content.mapM StringItem.char?).map String.ofList

/-- The bytes of a content. -/
def Content.bytes (content : Content) : Bytes := content.flatMap StringItem.bytes

/-! ### Numbers -/

/-- Whether there is a digit and nothing but digits. -/
def isDigits (chars : List Char) : Bool := !chars.isEmpty && chars.all Char.isDigit

/-- Whether the characters are an exponent, or there is none. -/
def isExponent : List Char → Bool
  | [] => true
  | mark :: rest =>
    (mark == 'e' || mark == 'E') &&
      match rest with
      | '+' :: digits | '-' :: digits => isDigits digits
      | digits => isDigits digits

/-- Whether the characters are decimal places and an exponent, either of which may be missing. -/
def isFraction : List Char → Bool
  | '.' :: rest =>
    isDigits (rest.takeWhile Char.isDigit) && isExponent (rest.dropWhile Char.isDigit)
  | rest => isExponent rest

/-- Whether the characters are a whole number without a sign, with no zero in front, and then a
fraction. -/
def isUnsignedNumber (chars : List Char) : Bool :=
  let whole := chars.takeWhile Char.isDigit
  isDigits whole && (whole.head? != some '0' || whole.length == 1) &&
    isFraction (chars.dropWhile Char.isDigit)

/-- Whether the characters spell a number. -/
def isNumber : List Char → Bool
  | '-' :: rest => isUnsignedNumber rest
  | chars => isUnsignedNumber chars

/-! ### Values -/

/-- A JSON value. -/
inductive Value
  /-- The absence of a value. -/
  | null
  /-- A truth value. -/
  | bool (value : Bool)
  /-- A number as it is spelled. -/
  | number (spelling : List Char)
  /-- A string. -/
  | string (content : Content)
  /-- A sequence of values. -/
  | array (items : List Value)
  /-- A sequence of names with values. -/
  | object (entries : List (Content × Value))

namespace Value

/-- A text as a value. -/
def ofText (text : String) : Value := .string (Content.ofText text)

/-- A natural number as a value. -/
def ofNat (n : Nat) : Value := .number (Nat.toDigits 10 n)

/-- Bytes as an array of numbers. -/
def ofBytes (bytes : Bytes) : Value := .array (bytes.map fun byte => ofNat byte.toNat)

/-- An object with these fields. -/
def ofFields (fields : List (String × Value)) : Value :=
  .object (fields.map fun (name, value) => (Content.ofText name, value))

/-- The text, if it is one. -/
def text? : Value → Option String
  | .string content => content.text?
  | _ => none

/-- The number below a bound, if it is spelled with digits only. -/
def nat? (bound : Nat) : Value → Option Nat
  | .number spelling =>
    if isDigits spelling then
      let n := Nat.ofDigitChars 10 spelling 0
      if n < bound then some n else none
    else none
  | _ => none

/-- The items, if it is an array. -/
def items? : Value → Option (List Value)
  | .array items => some items
  | _ => none

/-- The bytes of a string, or of an array of numbers below 256. -/
def bytes? : Value → Option Bytes
  | .string content => some content.bytes
  | .array items => items.mapM fun item => (item.nat? 256).map UInt8.ofNat
  | _ => none

end Value

end SignedRefs.Json
