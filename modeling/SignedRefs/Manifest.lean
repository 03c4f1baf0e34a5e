import SignedRefs.Record.Signed
import SignedRefs.Ref.Name

/-!
# Signed Manifests

A `Manifest` is a numbered snapshot of all refs in one identity's namespace of one repository. Its
owner signs the canonical form of it, and the `SignedManifest` is what peers exchange: a map with
the repository under 0, the identity under 1, the sequence number under 2 and the refs under 3.

The record of the signed refs, `refs/rad/sigrefs`, is never among the refs: it stands for the name
of the encoded manifest itself (`SignedManifest.recordId`).
-/

namespace SignedRefs

/-- All refs of a namespace at some point. -/
structure Manifest where
  /-- The repository. -/
  repo : RepoId
  /-- The owner of the namespace. -/
  identity : PeerId
  /-- The number of the snapshot; a later one replaces an earlier one. -/
  sequence : UInt64
  /-- The refs with their targets. -/
  refs : SortedMap RefName ObjectId
deriving DecidableEq

namespace Manifest

/-- The most refs that a manifest may list. -/
def maxRefs : Nat := 4096

/-- Checks the rules that hold for every signed manifest. -/
def validate (m : Manifest) : Except RecordError Unit :=
  if m.refs.contains .signedRefs then .error (.malformed .listsItself)
  else if maxRefs < m.refs.size then .error (.malformed (.tooManyRefs m.refs.size maxRefs))
  else .ok ()

/-! ### Canonical form -/

/-- A ref as an entry of a CBOR map. -/
def refEntry (ref : RefName × ObjectId) : Cbor.Value × Cbor.Value :=
  (.text ref.1.text, .bytes ref.2.bytes)

/-- The manifest as a CBOR value. -/
def toValue (m : Manifest) : Cbor.Value :=
  .map [Cbor.Value.entry 0 (.bytes m.repo.bytes), Cbor.Value.entry 1 (.bytes m.identity.bytes),
    Cbor.Value.entry 2 (.unsigned m.sequence),
    Cbor.Value.entry 3 (.map (m.refs.entries.map refEntry))]

/-- The ref of an entry of a CBOR map. -/
def ofRefEntry (entry : Cbor.Value × Cbor.Value) : Except Malformed (RefName × ObjectId) :=
  match entry with
  | (.text name, target) =>
    match RefName.ofText name with
    | .error error => .error (.refName error)
    | .ok name =>
      match target with
      | .bytes target =>
        match ObjectId.ofBytes target with
        | .error fault => .error (.refTarget fault)
        | .ok target => .ok (name, target)
      | _ => .error .refTargetNotBytes
  | _ => .error .refNameNotText

/-- The manifest of a CBOR value. Entries under other keys than the four are not looked at. -/
def ofValue (value : Cbor.Value) : Except RecordError Manifest := do
  let fields ← (Cbor.Fields.ofValue "manifest" value).mapError .ofField
  let entries ← (fields.map 3 "refs").mapError .ofField
  let refs ← (entries.mapM ofRefEntry).mapError .malformed
  let repo ← (fields.bytes 32 0 "repo").mapError .ofField
  let identity ← (fields.bytes 32 1 "identity").mapError .ofField
  let sequence ← (fields.unsigned 2 "sequence").mapError .ofField
  let manifest : Manifest := ⟨⟨repo⟩, ⟨identity⟩, sequence, SortedMap.ofList refs⟩
  manifest.validate
  return manifest

/-- The bytes that the owner signs. -/
def signingBytes (m : Manifest) : Except RecordError Bytes := do
  m.validate
  (Cbor.encode m.toValue).mapError .encoding

/-! ### Reading refs -/

/-- The target of a branch. -/
def head? (m : Manifest) (branch : String) : Option ObjectId :=
  match BranchName.ofText branch with
  | .ok branch => m.refs.get? (.head branch)
  | .error _ => none

/-- All branches with their targets, by name. -/
def heads (m : Manifest) : List (BranchName × ObjectId) :=
  m.refs.entries.filterMap fun
    | (.head branch, target) => some (branch, target)
    | _ => none

/-- The identity document. -/
def identityDocument? (m : Manifest) : Option ObjectId := m.refs.get? .identityDocument

/-- All patches with the latest change known of each, by id. -/
def patches (m : Manifest) : List (ObjectId × ObjectId) :=
  m.refs.entries.filterMap fun
    | (.patch id, target) => some (id, target)
    | _ => none

/-- The latest change known of a patch. -/
def patch? (m : Manifest) (id : ObjectId) : Option ObjectId := m.refs.get? (.patch id)

end Manifest

/-! ### Signed manifests -/

/-- A manifest with a signature, which need not be its owner's. -/
structure SignedManifest where
  /-- The manifest. -/
  manifest : Manifest
  /-- The signature. -/
  signature : Signature
deriving DecidableEq

/-- Signs a manifest; the key has to be its owner's. -/
def Manifest.sign (m : Manifest) (keys : Keypair) : Except RecordError SignedManifest :=
  let id := keys.peerId
  if id ≠ m.identity then .error (.notOwner id m.identity)
  else do return ⟨m, keys.sign (← m.signingBytes)⟩

namespace SignedManifest

/-- Checks that the signature is the owner's over a manifest that follows the rules. -/
def verify (s : SignedManifest) : Except RecordError Unit := do
  s.manifest.identity.verify (← s.manifest.signingBytes) s.signature

/-- The form in which the manifest is sent. -/
def encode (s : SignedManifest) : Except RecordError Bytes :=
  return (← s.manifest.signingBytes) ++ s.signature.bytes

/-- The signed manifest of a byte string. The signature is not checked. -/
def decode (bytes : Bytes) : Except RecordError SignedManifest :=
  match splitSignature? bytes with
  | none => .error (.malformed .tooShort)
  | some (body, signature) => do
    let value ← (Cbor.decode body).mapError .ofDecode
    return ⟨← Manifest.ofValue value, signature⟩

/-- The name of the encoded manifest, the target of `refs/rad/sigrefs`. -/
def recordId (s : SignedManifest) : Except RecordError ObjectId :=
  return ObjectId.digest (← s.encode)

end SignedManifest

end SignedRefs
