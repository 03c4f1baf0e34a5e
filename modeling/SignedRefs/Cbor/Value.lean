import SignedRefs.Bytes

/-!
# CBOR Values

The values that records are made of before they become bytes. Integers carry their sign in the
constructor, as they do on the wire, so every `Value` integer has 64 bits of magnitude. Floating
point numbers and tagged values can be read but have no canonical form.
-/

namespace SignedRefs.Cbor

/-- A CBOR value. Entries of a map are in the order in which they were given or read. -/
inductive Value
  /-- A number that is not negative. -/
  | unsigned (magnitude : UInt64)
  /-- The number `-1 - magnitude`. -/
  | negative (magnitude : UInt64)
  /-- A byte string. -/
  | bytes (value : Bytes)
  /-- A text. -/
  | text (value : String)
  /-- A sequence of values. -/
  | array (items : List Value)
  /-- A sequence of keys with values. -/
  | map (entries : List (Value × Value))
  /-- A truth value. -/
  | bool (value : Bool)
  /-- The absence of a value. -/
  | null
  /-- A floating point number; which one never matters. -/
  | float
  /-- A value with a number that says how to take it. -/
  | tag (number : UInt64) (content : Value)

namespace Value

/-- The integer as a value, if it fits. -/
def ofInt? (value : Int) : Option Value :=
  if 0 ≤ value ∧ value < UInt64.size then some (.unsigned (UInt64.ofNat value.toNat))
  else if -(UInt64.size : Int) ≤ value ∧ value < 0 then
    some (.negative (UInt64.ofNat (-1 - value).toNat))
  else none

/-- A signed 64-bit number as a value. -/
def ofInt64 (value : Int64) : Value :=
  if 0 ≤ value.toInt then .unsigned (UInt64.ofNat value.toInt.toNat)
  else .negative (UInt64.ofNat (-1 - value.toInt).toNat)

/-- An entry whose key is a number. -/
def entry (key : UInt64) (value : Value) : Value × Value := (.unsigned key, value)

end Value

end SignedRefs.Cbor
