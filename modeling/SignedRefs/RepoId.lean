import SignedRefs.Hash.Blake3
import SignedRefs.Hex

/-!
# Repository Names

A repository is named by 32 bytes: the BLAKE3 hash of the document that founds it
(`RepoId.derive`).
-/

namespace SignedRefs

/-- The name of a repository. -/
structure RepoId where
  /-- The 32 bytes of the name. -/
  value : FixedBytes 32
deriving DecidableEq

namespace RepoId

/-- Repositories are ordered by the bytes of their names. -/
instance : Ord RepoId := ⟨compareOn value⟩

instance : Std.TransOrd RepoId := inferInstanceAs (Std.TransCmp (compareOn value))

instance : Std.LawfulEqOrd RepoId where
  eq_of_compare {a b} h := by
    cases a; cases b
    exact congrArg RepoId.mk (Std.LawfulEqOrd.eq_of_compare (α := FixedBytes 32) h)

/-- The bytes of the name. -/
def bytes (id : RepoId) : Bytes := id.value.bytes

/-- The name in hexadecimal. -/
def hex (id : RepoId) : String := Hex.encode id.bytes

/-- The name as it appears in diagnostics. -/
def label (id : RepoId) : String := "RepoId(" ++ Hex.encode (id.bytes.take 8) ++ ")"

/-- Why a text is not the name of a repository. -/
inductive Fault
  /-- The text is not hexadecimal. -/
  | notHex (fault : Hex.Fault)
  /-- The text does not name 32 bytes. -/
  | wrongLength (text : String)
deriving DecidableEq

/-- The text of a fault. -/
def Fault.message : Fault → String
  | .notHex fault => fault.message
  | .wrongLength text => Text.quoted text ++ ": expected 32 bytes"

/-- Reads 64 hexadecimal digits. -/
def ofText (text : String) : Except Fault RepoId :=
  match Hex.decode text with
  | .error fault => .error (.notHex fault)
  | .ok bytes =>
    match FixedBytes.ofBytes? bytes with
    | some value => .ok ⟨value⟩
    | none => .error (.wrongLength text)

/-- The name of the repository founded by a document. -/
def derive (document : Bytes) : RepoId :=
  ⟨⟨Blake3.hash document, Blake3.length_hash document⟩⟩

end RepoId

end SignedRefs
