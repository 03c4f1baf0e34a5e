import SignedRefs.Cbor.Value
import SignedRefs.SortedMap

/-!
# The Canonical Form of a CBOR Value

Every value without floats and tags has one canonical form: each length and number in its shortest
form, all lengths given ahead, and the entries of a map in ascending order of their encoded keys, no
two of which are equal. Signatures are made over these bytes, so all peers have to agree on them.

Where a value has several faults, `encode` reports the one it meets first: items of an array in
order; in a map first all keys in the order given, then equal keys, then the values in the order of
their keys.
-/

namespace SignedRefs.Cbor

/-- Why a value has no canonical form. -/
inductive EncodeFault
  /-- There is a floating point number in it. -/
  | float
  /-- There is a tagged value in it. -/
  | unsupported
  /-- Two keys of a map are equal. -/
  | duplicateKey
deriving DecidableEq

/-- The words for a fault. -/
def EncodeFault.message : EncodeFault → String
  | .float => "floats are not canonical"
  | .unsupported => "unsupported CBOR value"
  | .duplicateKey => "duplicate map key"

/-- The kinds of items, as the three highest bits of an item's first byte number them. -/
inductive Major
  | unsigned
  | negative
  | bytes
  | text
  | array
  | map
  | tag
  | simple
deriving DecidableEq

/-- The number of a kind. -/
def Major.code : Major → Nat
  | .unsigned => 0
  | .negative => 1
  | .bytes => 2
  | .text => 3
  | .array => 4
  | .map => 5
  | .tag => 6
  | .simple => 7

/-- The first byte of an item: its kind and five bits of information. -/
def initialByte (major : Major) (info : Nat) : UInt8 := UInt8.ofNat (32 * major.code + info)

/-- The head of an item in its shortest form: the number goes into the first byte if it is below 24,
else into the one, two, four or eight bytes after it. -/
def writeHead (major : Major) (value : Nat) : Bytes :=
  if value < 24 then [initialByte major value]
  else if value < UInt8.size then initialByte major 24 :: Bytes.ofNatBigEndian 1 value
  else if value < UInt16.size then initialByte major 25 :: Bytes.ofNatBigEndian 2 value
  else if value < UInt32.size then initialByte major 26 :: Bytes.ofNatBigEndian 4 value
  else initialByte major 27 :: Bytes.ofNatBigEndian 8 value

/-- The form of a map, given the forms of its keys and values in the order of the entries. -/
def assembleMap (parts : List (Except EncodeFault Bytes × Except EncodeFault Bytes)) :
    Except EncodeFault Bytes := do
  let keyed ← parts.mapM fun part => return (← part.1, part.2)
  let sorted := SortedMap.ofList keyed
  if sorted.size < keyed.length then throw .duplicateKey
  let entries ← sorted.entries.mapM fun e => return e.1 ++ (← e.2)
  return writeHead .map keyed.length ++ entries.flatten

mutual

/-- The canonical form of a value. -/
def encode : Value → Except EncodeFault Bytes
  | .unsigned n => .ok (writeHead .unsigned n.toNat)
  | .negative n => .ok (writeHead .negative n.toNat)
  | .bytes value => .ok (writeHead .bytes value.length ++ value)
  | .text value => .ok (writeHead .text (Bytes.ofText value).length ++ Bytes.ofText value)
  | .array items =>
    match encodeItems items [] with
    | .error fault => .error fault
    | .ok parts => .ok (writeHead .array items.length ++ parts.flatten)
  | .map entries => assembleMap (encodeEntries entries [])
  | .bool value => .ok [initialByte .simple (if value then 21 else 20)]
  | .null => .ok [initialByte .simple 22]
  | .float => .error .float
  | .tag _ _ => .error .unsupported

/-- The forms of values in order, after those that are `done`, latest first. -/
def encodeItems : List Value → (done : List Bytes) → Except EncodeFault (List Bytes)
  | [], done => .ok done.reverse
  | item :: rest, done =>
    match encode item with
    | .error fault => .error fault
    | .ok bytes => encodeItems rest (bytes :: done)

/-- The forms of keys and values in order, after those that are `done`, latest first. -/
def encodeEntries : List (Value × Value) →
    (done : List (Except EncodeFault Bytes × Except EncodeFault Bytes)) →
    List (Except EncodeFault Bytes × Except EncodeFault Bytes)
  | [], done => done.reverse
  | (key, value) :: rest, done => encodeEntries rest ((encode key, encode value) :: done)

end

end SignedRefs.Cbor
