import SignedRefs.Cbor.Value

/-!
# Fields of a Record

A record is a map whose keys are numbers. `Fields` gives typed access to such a map: each access
says which key it wants, in which form, and what to call the field if it is missing or has another
form.
-/

namespace SignedRefs.Cbor

/-- Why a value lacks a field of a record. -/
inductive FieldFault
  /-- The value is no map. -/
  | expectedMap (record : String)
  /-- The field is missing or has another form. -/
  | invalid (record field : String)
deriving DecidableEq

/-- The words for a fault. -/
def FieldFault.message : FieldFault → String
  | .expectedMap record => record ++ ": expected map"
  | .invalid record field => record ++ ": invalid " ++ field

/-- The entries of a record. -/
structure Fields where
  /-- What the record is called in messages. -/
  record : String
  /-- The entries. -/
  entries : List (Value × Value)

namespace Fields

/-- The fields of a value, which has to be a map. -/
def ofValue (record : String) : Value → Except FieldFault Fields
  | .map entries => .ok ⟨record, entries⟩
  | _ => .error (.expectedMap record)

/-- The fault of a field. -/
def invalid {α : Type} (fields : Fields) (field : String) : Except FieldFault α :=
  .error (.invalid fields.record field)

/-- Whether a value is the key with a number. -/
def isKey (key : UInt64) : Value → Bool
  | .unsigned n => n == key
  | _ => false

/-- The value of the first entry with a key. -/
def get? (fields : Fields) (key : UInt64) : Option Value :=
  (fields.entries.find? fun e => isKey key e.1).map Prod.snd

/-- A number that is not negative. -/
def unsigned (fields : Fields) (key : UInt64) (field : String) : Except FieldFault UInt64 :=
  match fields.get? key with
  | some (.unsigned n) => .ok n
  | _ => fields.invalid field

/-- A number with a sign. -/
def signed (fields : Fields) (key : UInt64) (field : String) : Except FieldFault Int64 :=
  match fields.get? key with
  | some (.unsigned n) =>
    if n.toNat < UInt64.size / 2 then .ok (Int64.ofInt n.toNat) else fields.invalid field
  | some (.negative n) =>
    if n.toNat < UInt64.size / 2 then .ok (Int64.ofInt (-1 - n.toNat)) else fields.invalid field
  | _ => fields.invalid field

/-- A byte string of `n` bytes. -/
def bytes (n : Nat) (fields : Fields) (key : UInt64) (field : String) :
    Except FieldFault (FixedBytes n) :=
  match fields.get? key with
  | some (.bytes value) =>
    match FixedBytes.ofBytes? value with
    | some value => .ok value
    | none => fields.invalid field
  | _ => fields.invalid field

/-- A byte string of `n` bytes that may be left out or be null. -/
def bytes? (n : Nat) (fields : Fields) (key : UInt64) (field : String) :
    Except FieldFault (Option (FixedBytes n)) :=
  match fields.get? key with
  | none | some .null => .ok none
  | some _ => (fields.bytes n key field).map some

/-- A text. -/
def text (fields : Fields) (key : UInt64) (field : String) : Except FieldFault String :=
  match fields.get? key with
  | some (.text value) => .ok value
  | _ => fields.invalid field

/-- A text that may be left out or be null. -/
def text? (fields : Fields) (key : UInt64) (field : String) :
    Except FieldFault (Option String) :=
  match fields.get? key with
  | none | some .null => .ok none
  | some _ => (fields.text key field).map some

/-- A map. -/
def map (fields : Fields) (key : UInt64) (field : String) :
    Except FieldFault (List (Value × Value)) :=
  match fields.get? key with
  | some (.map entries) => .ok entries
  | _ => fields.invalid field

end Fields

end SignedRefs.Cbor
