import SignedRefs.Json.Identifier
import SignedRefs.Json.Writer
import SignedRefs.Sync.Message

/-!
# Messages as JSON

The readable form of a message is an object with one entry: the kind of the message and its fields.
Bytes are an array of numbers and are also read from a string; identities are hexadecimal texts; a
repository is an array of 32 numbers.
-/

namespace SignedRefs

open Json

/-! ### Reading -/

/-- The request in a value. -/
def Request.ofJson? (value : Value) : Option Request := do
  match ← value.tagged? with
  | ("Namespaces", body) =>
    let fields ← Record.ofValue? ["repo"] body
    return .namespaces (← fields.get? "repo" RepoId.ofJson?)
  | ("Manifest", body) =>
    let fields ← Record.ofValue? ["repo", "identity"] body
    return .manifest (← fields.get? "repo" RepoId.ofJson?)
      (← fields.get? "identity" PeerId.ofJson?)
  | ("Push", body) =>
    let fields ← Record.ofValue? ["repo", "identity", "manifest"] body
    return .push (← fields.get? "repo" RepoId.ofJson?) (← fields.get? "identity" PeerId.ofJson?)
      (← fields.get? "manifest" Value.bytes?)
  | _ => none

/-- The response in a value. A manifest that is missing from an object counts as null. -/
def Response.ofJson? (value : Value) : Option Response := do
  match ← value.tagged? with
  | ("Namespaces", body) =>
    let fields ← Record.ofValue? ["identities"] body
    let identities ← fields.get? "identities" Value.items?
    return .namespaces (← identities.mapM PeerId.ofJson?)
  | ("Manifest", body) =>
    let fields ← Record.ofValue? ["manifest"] body
    if fields.positional then
      return .manifest (← fields.get? "manifest" (Value.orNull? Value.bytes?))
    else return .manifest (← fields.getD "manifest" (Value.orNull? Value.bytes?) none)
  | ("Accepted", body) =>
    let fields ← Record.ofValue? ["sequence"] body
    return .accepted (UInt64.ofNat (← fields.get? "sequence" (Value.nat? UInt64.size)))
  | ("Error", body) =>
    let fields ← Record.ofValue? ["code", "message"] body
    return .error (← fields.get? "code" fun value => value.choice?.bind ErrorCode.ofText?)
      (← fields.get? "message" Value.text?)
  | _ => none

/-! ### Writing -/

/-- A message of some kind. -/
def taggedValue (kind : String) (fields : List (String × Value)) : Value :=
  .ofFields [(kind, .ofFields fields)]

/-- The request as a value. -/
def Request.toJson : Request → Value
  | .namespaces repo => taggedValue "Namespaces" [("repo", .ofBytes repo.bytes)]
  | .manifest repo identity =>
    taggedValue "Manifest" [("repo", .ofBytes repo.bytes), ("identity", .ofText identity.hex)]
  | .push repo identity encoded =>
    taggedValue "Push" [("repo", .ofBytes repo.bytes), ("identity", .ofText identity.hex),
      ("manifest", .ofBytes encoded)]

/-- The response as a value. -/
def Response.toJson : Response → Value
  | .namespaces identities =>
    taggedValue "Namespaces" [("identities", .array (identities.map fun id => .ofText id.hex))]
  | .manifest encoded =>
    taggedValue "Manifest" [("manifest", (encoded.map Value.ofBytes).getD .null)]
  | .accepted sequence => taggedValue "Accepted" [("sequence", .ofNat sequence.toNat)]
  | .error code text =>
    taggedValue "Error" [("code", .ofText code.text), ("message", .ofText text)]

end SignedRefs
