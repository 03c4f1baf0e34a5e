import SignedRefs.Store.Error

/-!
# Namespaces in a Database

A database keeps one row for each repository and identity, in the raw bytes of its columns, and the
manifest in the form in which it was received. What is read is checked only as far as it has to be
understood, so a row may hold anything: an identity of any length, or a manifest of another owner. A
database whose table is missing refuses every access.

Opening a database brings it to the current version: it creates the table in a new one and refuses
one from the future.
-/

namespace SignedRefs

/-- The columns by which a row is found. -/
structure RowKey where
  /-- The repository. -/
  repo : Bytes
  /-- The identity. -/
  identity : Bytes
deriving DecidableEq

namespace RowKey

/-- Rows are ordered by repository, then by identity. -/
instance : Ord RowKey := ⟨compareLex (compareOn repo) (compareOn identity)⟩

instance : Std.TransOrd RowKey :=
  inferInstanceAs (Std.TransCmp (compareLex (compareOn repo) (compareOn identity)))

instance : Std.LawfulEqOrd RowKey where
  eq_of_compare {a b} h := by
    have h : compareLex (compareOn repo) (compareOn identity) a b = .eq := h
    simp only [compareLex_eq_eq, compareOn, Std.LawfulEqOrd.compare_eq_iff_eq] at h
    cases a; cases b
    exact congr (congrArg RowKey.mk h.1) h.2

end RowKey

/-- What a row holds beside its key. -/
structure Row where
  /-- The encoded manifest. -/
  manifest : Bytes
  /-- When it was received, in milliseconds. -/
  receivedAt : Int64
deriving DecidableEq

/-- A database, its table possibly missing. -/
structure Database where
  /-- The version of its layout. -/
  version : Nat
  /-- The rows of the table. -/
  table : Option (SortedMap RowKey Row)

namespace Database

/-- The key of a namespace. -/
def key (repo : RepoId) (identity : PeerId) : RowKey := ⟨repo.bytes, identity.bytes⟩

/-- A database without rows. -/
def new : Database := ⟨currentVersion, some .empty⟩

/-- Brings a database to the current version. -/
def upgrade (db : Database) : Except StoreError Database :=
  if currentVersion < db.version then .error (.migration (.newer db.version))
  else if db.version = currentVersion then .ok db
  else
    match db.table with
    | some _ => .error (.migration (.failedStep currentVersion))
    | none => .ok new

/-- The rows, unless the table is missing. -/
def rows (db : Database) : Except StoreError (SortedMap RowKey Row) :=
  match db.table with
  | some rows => .ok rows
  | none => .error .database

/-- The namespace in a row. -/
def readRow (row : Row) : Except StoreError Namespace :=
  match SignedManifest.decode row.manifest with
  | .error error => .error (.invalidData (.manifest error))
  | .ok signed =>
    match Namespace.ofSigned signed row.receivedAt with
    | .error error => .error (.invalidData (.record error))
    | .ok found => .ok found

/-- The identity in a column. -/
def readIdentity (column : Bytes) : Except StoreError PeerId :=
  match FixedBytes.ofBytes? column with
  | some key => .ok ⟨key⟩
  | none => .error (.invalidData .identityColumn)

/-- The repository in a column. -/
def readRepository (column : Bytes) : Except StoreError RepoId :=
  match FixedBytes.ofBytes? column with
  | some value => .ok ⟨value⟩
  | none => .error (.invalidData .repositoryColumn)

/-- The rows of a repository. -/
def rowsOf (db : Database) (repo : RepoId) : Except StoreError (List (RowKey × Row)) :=
  return (← db.rows).entries.filter fun e => e.1.repo == repo.bytes

/-- The namespace of an identity. -/
def load (db : Database) (repo : RepoId) (identity : PeerId) :
    Except StoreError (Option Namespace) := do
  match (← db.rows).get? (key repo identity) with
  | some row => return some (← readRow row)
  | none => return none

/-- Keeps a namespace in the place of the one with the same repository and identity. -/
def save (db : Database) (new : Namespace) : Except StoreError Database :=
  match new.signed.encode with
  | .error error => .error (.malformed (.record error))
  | .ok manifest => do
    let rows := (← db.rows).insert (key new.repo new.identity) ⟨manifest, new.receivedAt⟩
    return { db with table := some rows }

/-- The identities with a namespace in a repository, ascending. -/
def identities (db : Database) (repo : RepoId) : Except StoreError (List PeerId) := do
  (← db.rowsOf repo).mapM fun e => readIdentity e.1.identity

/-- All namespaces of a repository under their identities. -/
def loadAll (db : Database) (repo : RepoId) :
    Except StoreError (SortedMap PeerId Namespace) := do
  let found ← (← db.rowsOf repo).mapM fun e => do
    return (← readIdentity e.1.identity, ← readRow e.2)
  return SortedMap.ofList found

/-- The repositories with a namespace, ascending. -/
def repositories (db : Database) : Except StoreError (List RepoId) := do
  (SortedSet.ofList ((← db.rows).keys.map RowKey.repo)).toList.mapM readRepository

end Database

end SignedRefs
