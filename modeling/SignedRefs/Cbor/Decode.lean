import SignedRefs.Cbor.Encode

/-!
# Reading CBOR

`readItem` reads one item from the front of a byte string, in any of the forms that CBOR allows:
numbers and lengths in more bytes than needed, strings in chunks, arrays and maps that end at a
break, keys in any order. `decode` is strict: it accepts a byte string only if it is the canonical
form of what it says.

Arrays, maps and tags may be nested 256 deep.
-/

namespace SignedRefs.Cbor

/-- Why a byte string is not the canonical form of a value. -/
inductive DecodeFault
  /-- The front of it is no item. -/
  | malformed
  /-- What it says has no canonical form. -/
  | encoding (fault : EncodeFault)
  /-- What it says has another canonical form. -/
  | notCanonical
deriving DecidableEq

/-! ### Heads -/

/-- The kind with a number. -/
def Major.ofCode : Nat → Major
  | 0 => .unsigned
  | 1 => .negative
  | 2 => .bytes
  | 3 => .text
  | 4 => .array
  | 5 => .map
  | 6 => .tag
  | _ => .simple

/-- The head of an item. -/
structure Head where
  /-- The kind of the item. -/
  major : Major
  /-- The five bits after the kind. -/
  info : Nat
  /-- The number that the head carries. -/
  value : Nat
deriving DecidableEq

/-- Whether the head carries no number: the item goes on until a break, or is one. -/
def Head.isOpen (head : Head) : Bool := head.info == 31

/-- The first `count` bytes and the rest, if there are that many. -/
def splitAt? (count : Nat) (input : Bytes) : Option (Bytes × Bytes) :=
  let front := input.take count
  if front.length = count then some (front, input.drop count) else none

/-- Reads the head of an item. -/
def readHead : Bytes → Option (Head × Bytes)
  | [] => none
  | byte :: rest =>
    let major := Major.ofCode (byte.toNat / 32)
    let info := byte.toNat % 32
    if info < 24 then some (⟨major, info, info⟩, rest)
    else if info < 28 then
      match splitAt? (Nat.pow 2 (info - 24)) rest with
      | none => none
      | some (digits, rest) => some (⟨major, info, Bytes.bigEndian digits⟩, rest)
    else if info = 31 then some (⟨major, info, 0⟩, rest)
    else none

/-! ### Strings -/

/-- The bytes of a chunk if they may stand in a string of this kind: those of a text are well formed
on their own. -/
def checkChunk (major : Major) (chunk : Bytes) : Option Bytes :=
  if major = .text ∧ (Bytes.text? chunk).isNone then none else some chunk

/-- Reads chunks up to the break that ends the outermost of `nested` open strings. The chunks
already read are `done`, latest first. Every step consumes a byte, which bounds `fuel`. -/
def readChunks (major : Major) :
    (fuel nested : Nat) → (done : List Bytes) → Bytes → Option (Bytes × Bytes)
  | 0, _, _, _ => none
  | fuel + 1, nested, done, input =>
    match readHead input with
    | none => none
    | some (head, rest) =>
      if head.major = .simple ∧ head.isOpen then
        if nested ≤ 1 then some (done.reverse.flatten, rest)
        else readChunks major fuel (nested - 1) done rest
      else if head.major ≠ major then none
      else if head.isOpen then readChunks major fuel (nested + 1) done rest
      else
        match splitAt? head.value rest with
        | none => none
        | some (chunk, rest) =>
          match checkChunk major chunk with
          | none => none
          | some chunk => readChunks major fuel nested (chunk :: done) rest

/-- Reads the content of a string after its head. -/
def readString (head : Head) (rest : Bytes) : Option (Bytes × Bytes) :=
  if head.isOpen then readChunks head.major (rest.length + 1) 1 [] rest
  else
    match splitAt? head.value rest with
    | none => none
    | some (content, rest) => (checkChunk head.major content).map (·, rest)

/-! ### Items -/

/-- A reader of one item. -/
abbrev Reader := Bytes → Option (Value × Bytes)

/-- Whether the next byte is a break; then what follows it. -/
def readBreak? : Bytes → Option Bytes
  | byte :: rest => if byte = initialByte .simple 31 then some rest else none
  | [] => none

/-- Reads a number of items after those that are `done`, latest first. -/
def readItems (item : Reader) : (count : Nat) → (done : List Value) → Bytes →
    Option (List Value × Bytes)
  | 0, done, input => some (done.reverse, input)
  | count + 1, done, input =>
    match item input with
    | none => none
    | some (value, rest) => readItems item count (value :: done) rest

/-- Reads items up to a break. Every item has a byte at least, which bounds `fuel`. -/
def readItemsToBreak (item : Reader) : (fuel : Nat) → (done : List Value) → Bytes →
    Option (List Value × Bytes)
  | 0, _, _ => none
  | fuel + 1, done, input =>
    match readBreak? input with
    | some rest => some (done.reverse, rest)
    | none =>
      match item input with
      | none => none
      | some (value, rest) => readItemsToBreak item fuel (value :: done) rest

/-- Reads a number of entries after those that are `done`, latest first. -/
def readEntries (item : Reader) : (count : Nat) → (done : List (Value × Value)) → Bytes →
    Option (List (Value × Value) × Bytes)
  | 0, done, input => some (done.reverse, input)
  | count + 1, done, input =>
    match item input with
    | none => none
    | some (key, rest) =>
      match item rest with
      | none => none
      | some (value, rest) => readEntries item count ((key, value) :: done) rest

/-- Reads entries up to a break. Every entry has a byte at least, which bounds `fuel`. -/
def readEntriesToBreak (item : Reader) : (fuel : Nat) → (done : List (Value × Value)) → Bytes →
    Option (List (Value × Value) × Bytes)
  | 0, _, _ => none
  | fuel + 1, done, input =>
    match readBreak? input with
    | some rest => some (done.reverse, rest)
    | none =>
      match item input with
      | none => none
      | some (key, rest) =>
        match item rest with
        | none => none
        | some (value, rest) => readEntriesToBreak item fuel ((key, value) :: done) rest

/-- The item for a head of the last kind: a truth value, an absent value or a float. The value that
is undefined reads as absent. -/
def simpleItem? (head : Head) : Option Value :=
  if head.info ≤ 24 then
    match head.value with
    | 20 => some (.bool false)
    | 21 => some (.bool true)
    | 22 => some .null
    | 23 => some .null
    | _ => none
  else if head.isOpen then none
  else some .float

/-- The longest digits of a number that is read as one, in bytes. -/
def bigNumberBytes : Nat := 16

/-- The digits of a number too big for a head: tag 2 or 3 before a byte string of known length, not
longer than 16 bytes. -/
def readBigDigits? (number : Nat) (rest : Bytes) : Option (Head × Bytes) :=
  if number = 2 ∨ number = 3 then
    match readHead rest with
    | some (head, rest) =>
      if head.major = .bytes ∧ ¬head.isOpen ∧ head.value ≤ bigNumberBytes then some (head, rest)
      else none
    | none => none
  else none

/-- The number that tag 2, or for a negative one tag 3, gives to its digits. It is an integer if it
fits a head and else stays tagged; the magnitude of a negative one is below `2 ^ 127`. -/
def bigNumber? (number : Nat) (digits : Bytes) : Option Value :=
  let magnitude := Bytes.bigEndian digits
  if number = 3 ∧ Nat.pow 2 127 ≤ magnitude then none
  else if magnitude < UInt64.size then
    some (if number = 2 then .unsigned (UInt64.ofNat magnitude)
      else .negative (UInt64.ofNat magnitude))
  else some (.tag (UInt64.ofNat number) (.bytes digits))

/-- Reads an item whose parts are read by `inner`; without it, the item may have no parts. -/
def readItemWith (inner : Option Reader) : Reader := fun input =>
  match readHead input with
  | none => none
  | some (head, rest) =>
    match head.major with
    | .unsigned =>
      if head.isOpen then none else some (.unsigned (UInt64.ofNat head.value), rest)
    | .negative =>
      if head.isOpen then none else some (.negative (UInt64.ofNat head.value), rest)
    | .bytes => (readString head rest).map fun (content, rest) => (.bytes content, rest)
    | .text =>
      match readString head rest with
      | none => none
      | some (content, rest) => (Bytes.text? content).map fun text => (.text text, rest)
    | .array =>
      match inner with
      | none => none
      | some item =>
        let items :=
          if head.isOpen then readItemsToBreak item (rest.length + 1) [] rest
          else readItems item head.value [] rest
        items.map fun (items, rest) => (.array items, rest)
    | .map =>
      match inner with
      | none => none
      | some item =>
        let entries :=
          if head.isOpen then readEntriesToBreak item (rest.length + 1) [] rest
          else readEntries item head.value [] rest
        entries.map fun (entries, rest) => (.map entries, rest)
    | .tag =>
      if head.isOpen then none
      else
        match readBigDigits? head.value rest with
        | some (digitsHead, rest) =>
          match splitAt? digitsHead.value rest with
          | none => none
          | some (digits, rest) => (bigNumber? head.value digits).map (·, rest)
        | none =>
          match inner with
          | none => none
          | some item =>
            (item rest).map fun (content, rest) =>
              (.tag (UInt64.ofNat head.value) content, rest)
    | .simple => (simpleItem? head).map (·, rest)

/-- Reads an item with at most `depth` levels of arrays, maps and tags around a leaf. -/
def readItem : (depth : Nat) → Reader
  | 0 => readItemWith none
  | depth + 1 => readItemWith (some (readItem depth))

/-- How deep items may be nested. -/
def maxDepth : Nat := 256

/-! ### The strict reader -/

/-- The value whose canonical form the bytes are. -/
def decode (input : Bytes) : Except DecodeFault Value :=
  match readItem maxDepth input with
  | none => .error .malformed
  | some (value, _) =>
    match encode value with
    | .error fault => .error (.encoding fault)
    | .ok bytes => if bytes == input then .ok value else .error .notCanonical

end SignedRefs.Cbor
