import SignedRefs.Namespace

/-!
# Errors of the Store

Why a store does not accept a manifest or does not answer, as causes. The wording is in
`StoreError.message`.
-/

namespace SignedRefs

/-- Why a manifest is not one that can be stored. -/
inductive StoreMalformed
  /-- It belongs to another repository than the one it is written to. -/
  | otherRepository (found expected : RepoId)
  /-- The manifest itself is wrong. -/
  | record (error : RecordError)
deriving DecidableEq

/-- What is wrong with stored data. -/
inductive DataFault
  /-- The bytes of a manifest cannot be read. -/
  | manifest (error : RecordError)
  /-- A manifest that was read has no name. -/
  | record (error : RecordError)
  /-- An identity does not have 32 bytes. -/
  | identityColumn
  /-- A repository does not have 32 bytes. -/
  | repositoryColumn
deriving DecidableEq

/-- Why a database cannot be brought to the current version. -/
inductive MigrationFault
  /-- It has a newer version. -/
  | newer (version : Nat)
  /-- A step fails. -/
  | failedStep (step : Nat)
deriving DecidableEq

/-- What can go wrong in a store. -/
inductive StoreError
  /-- The signature is not the owner's. -/
  | invalidSignature (identity : PeerId)
  /-- The manifest belongs to another identity than the one it is written under. -/
  | identityMismatch (expected found : PeerId)
  /-- The stored sequence number is at least as high. -/
  | stale (identity : PeerId) (current : Namespace) (received : UInt64)
  /-- There is no such namespace. -/
  | notFound (repo : RepoId) (identity : PeerId)
  /-- The manifest cannot be stored. -/
  | malformed (cause : StoreMalformed)
  /-- The database refuses the access. -/
  | database
  /-- The stored data is wrong. -/
  | invalidData (fault : DataFault)
  /-- The database cannot be brought to the current version. -/
  | migration (fault : MigrationFault)
deriving DecidableEq

/-- The words for a cause. -/
def StoreMalformed.message : StoreMalformed → String
  | .otherRepository found expected =>
    "manifest for repository " ++ found.hex ++ " written to " ++ expected.hex
  | .record error => error.message

/-- The words for a fault. -/
def DataFault.message : DataFault → String
  | .manifest error => "stored manifest: " ++ error.message
  | .record error => error.message
  | .identityColumn => "identity column is not 32 bytes"
  | .repositoryColumn => "repo column is not 32 bytes"

/-- The version that databases are brought to. -/
def currentVersion : Nat := 1

/-- The words for a fault. -/
def MigrationFault.message : MigrationFault → String
  | .newer version =>
    "database schema v" ++ toString version ++ " is newer than supported v" ++
      toString currentVersion
  | .failedStep step => "v" ++ toString step

/-- The text of an error. -/
def StoreError.message : StoreError → String
  | .invalidSignature identity => "invalid signature on manifest for " ++ identity.hex
  | .identityMismatch expected found =>
    "manifest for " ++ found.hex ++ " cannot be stored under " ++ expected.hex
  | .stale identity current received =>
    "stale manifest for " ++ identity.hex ++ ": stored sequence " ++
      toString current.sequence ++ ", received " ++ toString received
  | .notFound repo identity => "namespace " ++ identity.hex ++ " not found in " ++ repo.hex
  | .malformed cause => "malformed manifest: " ++ cause.message
  | .database => "database error"
  | .invalidData fault => "invalid data: " ++ fault.message
  | .migration fault => "migration error: " ++ fault.message

/-- The error for a manifest whose check fails: a bad key counts as a bad signature. -/
def StoreError.ofRecord (identity : PeerId) : RecordError → StoreError
  | .signature => .invalidSignature identity
  | .identity _ => .invalidSignature identity
  | .unusableKey _ => .invalidSignature identity
  | .notOwner _ _ => .invalidSignature identity
  | .notAuthor _ _ => .invalidSignature identity
  | error => .malformed (.record error)

end SignedRefs
