import SignedRefs.Hash.Blake3
import SignedRefs.Hex

/-!
# Object Names

An object is named by 20 bytes: the first bytes of the BLAKE3 hash of its content
(`ObjectId.digest`).
-/

namespace SignedRefs

/-- The name of an object. -/
structure ObjectId where
  /-- The 20 bytes of the name. -/
  value : FixedBytes 20
deriving DecidableEq

namespace ObjectId

/-- Objects are ordered by the bytes of their names. -/
instance : Ord ObjectId := ⟨compareOn value⟩

instance : Std.TransOrd ObjectId := inferInstanceAs (Std.TransCmp (compareOn value))

instance : Std.LawfulEqOrd ObjectId where
  eq_of_compare {a b} h := by
    cases a; cases b
    exact congrArg ObjectId.mk (Std.LawfulEqOrd.eq_of_compare (α := FixedBytes 20) h)

/-- The bytes of the name. -/
def bytes (id : ObjectId) : Bytes := id.value.bytes

/-- The name in hexadecimal. -/
def hex (id : ObjectId) : String := Hex.encode id.bytes

/-- The first seven digits of the name. -/
def short (id : ObjectId) : String := String.ofList ((Hex.digits (id.bytes.take 4)).take 7)

/-- The name as it appears in diagnostics. -/
def label (id : ObjectId) : String := "Oid(" ++ id.short ++ ")"

/-- Why a text or a byte string is not the name of an object. -/
inductive Fault
  /-- The text does not have 40 bytes. -/
  | wrongLength (text : String)
  /-- The text is not hexadecimal. -/
  | notHex (text : String) (fault : Hex.Fault)
  /-- There are this many bytes. -/
  | byteCount (count : Nat)
deriving DecidableEq

/-- The text of a fault. -/
def Fault.message : Fault → String
  | .wrongLength text => Text.quoted text ++ ": expected 40 hex characters"
  | .notHex text fault => Text.quoted text ++ ": " ++ fault.message
  | .byteCount count => "expected 20 bytes, got " ++ toString count

/-- The name made of these bytes. -/
def ofBytes (bytes : Bytes) : Except Fault ObjectId :=
  match FixedBytes.ofBytes? bytes with
  | some value => .ok ⟨value⟩
  | none => .error (.byteCount bytes.length)

/-- Reads 40 hexadecimal digits. -/
def ofText (text : String) : Except Fault ObjectId :=
  if text.utf8ByteSize ≠ 40 then .error (.wrongLength text)
  else
    match Hex.decode text with
    | .error fault => .error (.notHex text fault)
    | .ok bytes => ofBytes bytes

/-- The name of an object with this content. -/
def digest (content : Bytes) : ObjectId :=
  ⟨⟨(Blake3.hash content).take 20, by simp⟩⟩

end ObjectId

end SignedRefs
