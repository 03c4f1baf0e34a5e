import SignedRefs.Manifest
import SignedRefs.Ref.Namespaced

/-!
# Namespaces and Snapshots

A `Namespace` is an accepted signed manifest with the name of its record and the time at which it
was received. It lists the refs of the manifest and, among them, `refs/rad/sigrefs` with that name.
A `Snapshot` is all namespaces of a repository at one moment.
-/

namespace SignedRefs

/-- A signed manifest with the name of its record. -/
structure Namespace where
  /-- The signed manifest. -/
  signed : SignedManifest
  /-- The name of its encoded form. -/
  record : ObjectId
  /-- When it was received, in milliseconds. -/
  receivedAt : Int64
  /-- The name is that of the encoded form. -/
  record_eq : signed.recordId = .ok record
deriving DecidableEq

namespace Namespace

/-- The namespace of a signed manifest, which has to follow the rules for manifests. -/
def ofSigned (signed : SignedManifest) (receivedAt : Int64) : Except RecordError Namespace :=
  match h : signed.recordId with
  | .ok record => .ok ⟨signed, record, receivedAt, h⟩
  | .error error => .error error

/-- The manifest. -/
def manifest (n : Namespace) : Manifest := n.signed.manifest

/-- The repository. -/
def repo (n : Namespace) : RepoId := n.manifest.repo

/-- The owner. -/
def identity (n : Namespace) : PeerId := n.manifest.identity

/-- The number of the snapshot. -/
def sequence (n : Namespace) : UInt64 := n.manifest.sequence

/-- All refs with their targets in the order of their names, `refs/rad/sigrefs` included. -/
def refs (n : Namespace) : List (NamespacedRef × ObjectId) :=
  (n.manifest.refs.insert .signedRefs n.record).entries.map fun (name, target) =>
    (⟨n.identity, name⟩, target)

end Namespace

/-- All namespaces of a repository at one moment. -/
structure Snapshot where
  /-- The repository. -/
  repo : RepoId
  /-- The namespaces under their identities. -/
  namespaces : SortedMap PeerId Namespace

namespace Snapshot

/-- The namespace of an identity. -/
def get? (s : Snapshot) (identity : PeerId) : Option Namespace := s.namespaces.get? identity

/-- The names that the namespaces give for the latest change of a patch. -/
def patchTips (s : Snapshot) (id : ObjectId) : List ObjectId :=
  s.namespaces.values.filterMap fun n => n.manifest.patch? id

/-- Every patch that some namespace refers to, in ascending order. -/
def patchIds (s : Snapshot) : List ObjectId :=
  (SortedSet.ofList (s.namespaces.values.flatMap fun n => n.manifest.patches.map Prod.fst)).toList

end Snapshot

end SignedRefs
