import SignedRefs.Json.Identifier
import SignedRefs.Json.Writer
import SignedRefs.Tracking.Registry

/-!
# Policy Files

A registry is kept in a JSON file with its version, the policies by identity and, if there are any,
the untracked identities. Reading a file tracks its identities one after another in ascending order,
so of several that claim one alias the last keeps it; an identity with a policy is not untracked,
whatever the file says.
-/

namespace SignedRefs

/-- What a policy file says. -/
structure PolicyFile where
  /-- The version of its layout, whose value is not checked. -/
  version : Nat
  /-- The policies. -/
  policies : SortedMap PeerId Policy
  /-- The untracked identities. -/
  untracked : SortedSet PeerId

namespace PolicyFile

open Json

/-- The version of new files. -/
def currentVersion : Nat := 1

/-! ### Reading -/

/-- The scope that a word names. -/
def readScope (value : Value) : Option Scope :=
  value.choice?.bind fun word => (Scope.ofText word).toOption

/-- The alias that a text is. -/
def readAlias (value : Value) : Option Alias :=
  value.text?.bind fun text => (Alias.ofText text).toOption

/-- A policy. -/
def readPolicy (value : Value) : Option Policy := do
  let fields ← Record.ofValue? ["scope", "alias"] value
  let scope ← fields.get? "scope" readScope
  let name ← fields.getD "alias" (Value.orNull? readAlias) none
  return ⟨scope, name⟩

/-- Policies under the texts of their identities; of equal identities the last counts. -/
def readPolicies : Value → Option (SortedMap PeerId Policy)
  | .object entries =>
    (entries.mapM fun (name, value) => do
      return (← PeerId.ofJson? (.string name), ← readPolicy value)).map SortedMap.ofList
  | _ => none

/-- A set of identities. -/
def readIdentities (value : Value) : Option (SortedSet PeerId) := do
  return SortedSet.ofList (← (← value.items?).mapM PeerId.ofJson?)

/-- A whole file. -/
def ofJson? (value : Value) : Option PolicyFile := do
  let fields ← Record.ofValue? ["version", "policies", "untracked"] value
  let version ← fields.get? "version" (Value.nat? UInt32.size)
  let policies ← fields.get? "policies" readPolicies
  let untracked ← fields.getD "untracked" readIdentities .empty
  return ⟨version, policies, untracked⟩

/-! ### Writing -/

/-- A policy as a value. -/
def policyValue (policy : Policy) : Value :=
  .ofFields (("scope", .ofText policy.scope.text) ::
    (policy.name.map fun name => ("alias", Value.ofText name.text)).toList)

/-- The file as a value. -/
def toJson (file : PolicyFile) : Value :=
  .ofFields ([("version", .ofNat file.version),
      ("policies", .ofFields (file.policies.entries.map fun (id, p) => (id.hex, policyValue p)))] ++
    if file.untracked.isEmpty then []
    else [("untracked", .array (file.untracked.toList.map fun id => .ofText id.hex))])

end PolicyFile

namespace Registry

/-- The registry that a policy file describes. -/
def ofPolicyFile (file : PolicyFile) : Registry :=
  let tracked := file.policies.entries.foldl (fun r e => r.track e.1 e.2.name e.2.scope) empty
  { tracked with untracked := file.untracked.filter fun id _ => !tracked.policies.contains id }

/-- Reads a policy file, given its text if there is such a file. -/
def load : (text : Option String) → Except TrackingError Registry
  | none => .error .noFile
  | some text =>
    match (Json.Value.parse? text).bind PolicyFile.ofJson? with
    | none => .error .unreadable
    | some file => .ok (ofPolicyFile file)

/-- The text of the policy file that describes a registry. -/
def save (r : Registry) : String :=
  (PolicyFile.toJson ⟨PolicyFile.currentVersion, r.policies, r.untracked⟩).pretty

end Registry

end SignedRefs
