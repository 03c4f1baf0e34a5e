import SignedRefs.Identity
import SignedRefs.Json.Reader
import SignedRefs.RepoId

/-!
# Identifiers in JSON

Identities are hexadecimal texts of either letter case. A repository is an array of 32 numbers.
-/

namespace SignedRefs

open Json

/-- The identity that a text names. -/
def PeerId.ofJson? (value : Value) : Option PeerId :=
  value.text?.bind fun text => (PeerId.ofText text).toOption

/-- The repository with these bytes. -/
def RepoId.ofJson? (value : Value) : Option RepoId := do
  let bytes ← (Value.array (← value.items?)).bytes?
  return ⟨← FixedBytes.ofBytes? bytes⟩

end SignedRefs
