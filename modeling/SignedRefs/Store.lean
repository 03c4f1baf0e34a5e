import SignedRefs.Store.Database

/-!
# The Store of Namespaces

A store keeps the current namespace for each repository and identity, in memory or in a database.
`Store.replace` is the only way in: it accepts a manifest if it belongs where it is written, follows
the rules, carries its owner's signature, and has a higher sequence number than the stored one. An
error leaves the store as it was.
-/

namespace SignedRefs

/-- Where a namespace is kept. -/
structure Place where
  /-- The repository. -/
  repo : RepoId
  /-- The owner. -/
  identity : PeerId
deriving DecidableEq

namespace Place

/-- Places are ordered by repository, then by identity. -/
instance : Ord Place := ⟨compareLex (compareOn repo) (compareOn identity)⟩

instance : Std.TransOrd Place :=
  inferInstanceAs (Std.TransCmp (compareLex (compareOn repo) (compareOn identity)))

instance : Std.LawfulEqOrd Place where
  eq_of_compare {a b} h := by
    have h : compareLex (compareOn repo) (compareOn identity) a b = .eq := h
    simp only [compareLex_eq_eq, compareOn, Std.LawfulEqOrd.compare_eq_iff_eq] at h
    cases a; cases b
    exact congr (congrArg Place.mk h.1) h.2

/-- The first place of a repository. -/
def lowest (repo : RepoId) : Place := ⟨repo, ⟨.replicate 32 0⟩⟩

/-- The last place of a repository. -/
def highest (repo : RepoId) : Place := ⟨repo, ⟨.replicate 32 0xff⟩⟩

/-- Whether a place is in the range from the first to the last one of a repository. -/
def inRange (repo : RepoId) (place : Place) : Bool :=
  (compare (lowest repo) place).isLE && (compare place (highest repo)).isLE

end Place

/-- Namespaces, kept in memory or in a database. -/
inductive Store
  /-- Namespaces in memory. -/
  | memory (namespaces : SortedMap Place Namespace)
  /-- Namespaces in a database. -/
  | database (db : Database)

namespace Store

/-- A store in memory without namespaces. -/
def inMemory : Store := .memory .empty

/-- A store in a new database. -/
def inDatabase : Store := .database .new

/-- The store in a database that may be of another version. -/
def openDatabase (db : Database) : Except StoreError Store := db.upgrade.map .database

/-! ### Keeping and finding namespaces -/

/-- The namespace of an identity. -/
def load : Store → RepoId → PeerId → Except StoreError (Option Namespace)
  | .memory namespaces, repo, identity => .ok (namespaces.get? ⟨repo, identity⟩)
  | .database db, repo, identity => db.load repo identity

/-- Keeps a namespace in the place of the one with the same repository and identity, unchecked. -/
def save : Store → Namespace → Except StoreError Store
  | .memory namespaces, new => .ok (.memory (namespaces.insert ⟨new.repo, new.identity⟩ new))
  | .database db, new => (db.save new).map .database

/-- The identities with a namespace in a repository, ascending. -/
def identities : Store → RepoId → Except StoreError (List PeerId)
  | .memory namespaces, repo =>
    .ok ((namespaces.keys.filter (Place.inRange repo)).map Place.identity)
  | .database db, repo => db.identities repo

/-- The namespaces of a repository at this moment. -/
def snapshot : Store → RepoId → Except StoreError Snapshot
  | .memory namespaces, repo =>
    let found := namespaces.entries.filter fun e => e.1.inRange repo
    .ok ⟨repo, SortedMap.ofList (found.map fun e => (e.1.identity, e.2))⟩
  | .database db, repo => (db.loadAll repo).map (⟨repo, ·⟩)

/-- The repositories with a namespace, ascending. -/
def repositories : Store → Except StoreError (List RepoId)
  | .memory namespaces => .ok (SortedSet.ofList (namespaces.keys.map Place.repo)).toList
  | .database db => db.repositories

/-- The namespace of an identity, which has to be there. -/
def get (store : Store) (repo : RepoId) (identity : PeerId) : Except StoreError Namespace := do
  match ← store.load repo identity with
  | some found => return found
  | none => throw (.notFound repo identity)

/-! ### Accepting manifests -/

/-- What a replacement did. -/
structure Replaced where
  /-- What was stored before. -/
  previous : Option Namespace
  /-- What is stored now. -/
  current : Namespace

/-- The namespace that a signed manifest makes if it may be written under this repository and
identity, whatever is stored there. -/
def check (now : Int64) (repo : RepoId) (identity : PeerId) (signed : SignedManifest) :
    Except StoreError Namespace :=
  let manifest := signed.manifest
  if manifest.identity ≠ identity then .error (.identityMismatch identity manifest.identity)
  else if manifest.repo ≠ repo then .error (.malformed (.otherRepository manifest.repo repo))
  else
    match signed.verify with
    | .error error => .error (.ofRecord identity error)
    | .ok () =>
      match Namespace.ofSigned signed now with
      | .error error => .error (.malformed (.record error))
      | .ok new => .ok new

/-- Writes a signed manifest under a repository and an identity. -/
def replace (store : Store) (now : Int64) (repo : RepoId) (identity : PeerId)
    (signed : SignedManifest) : Except StoreError (Replaced × Store) := do
  let new ← check now repo identity signed
  match ← store.load repo identity with
  | none => return (⟨none, new⟩, ← store.save new)
  | some current =>
    if new.sequence ≤ current.sequence then throw (.stale identity current new.sequence)
    else return (⟨some current, new⟩, ← store.save new)

/-- Writes a signed manifest under its own identity. -/
def put (store : Store) (now : Int64) (repo : RepoId) (signed : SignedManifest) :
    Except StoreError (Namespace × Store) :=
  (store.replace now repo signed.manifest.identity signed).map fun (replaced, store) =>
    (replaced.current, store)

end Store

/-! ### Walking through identities -/

/-- A list of identities with a position in it. -/
structure IdentityCursor where
  /-- All identities. -/
  identities : List PeerId
  /-- How many were passed. -/
  position : Nat

namespace IdentityCursor

/-- The cursor before the first identity. -/
def ofList (identities : List PeerId) : IdentityCursor := ⟨identities, 0⟩

/-- How many identities are left. -/
def remaining (c : IdentityCursor) : Nat := c.identities.length - c.position

/-- The next identity, and the cursor behind it. -/
def next (c : IdentityCursor) : Option PeerId × IdentityCursor :=
  match c.identities[c.position]? with
  | some id => (some id, { c with position := c.position + 1 })
  | none => (none, c)

/-- The cursor before the first identity again. -/
def restart (c : IdentityCursor) : IdentityCursor := { c with position := 0 }

end IdentityCursor

end SignedRefs
