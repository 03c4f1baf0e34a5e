import SignedRefs.Ref.Update
import SignedRefs.Sync.Exchange

/-!
# The Outcome of Fetching One Namespace

`Answer.apply` says what the answer to the request for an identity's manifest does to the local
store, and reports it as an `Outcome`. The store changes only if a newer manifest is applied.
-/

namespace SignedRefs

/-- Why nothing was done. -/
inductive SkipReason
  /-- The peer has no namespace for the identity. -/
  | notFound
  /-- The same manifest is already stored. -/
  | upToDate (sequence : UInt64)
deriving DecidableEq

/-- Why a namespace could not be fetched. -/
inductive FailReason
  /-- The signature is wrong, or the manifest is another identity's. -/
  | invalidSignature
  /-- The stored manifest is another one with a number at least as high. -/
  | stale (stored received : UInt64)
  /-- The bytes are no manifest. -/
  | unreadable (error : RecordError)
  /-- The manifest cannot be stored. -/
  | malformed (cause : StoreMalformed)
  /-- The peer did not answer in time. -/
  | timeout
  /-- The request or its answer went wrong. -/
  | exchange (error : SyncError)
  /-- The peer reports an error. -/
  | rejected (text : String)
  /-- The local store has a problem. -/
  | store (error : StoreError)
deriving DecidableEq

/-- The text of a reason. -/
def FailReason.message : FailReason → String
  | .invalidSignature => "invalid signature"
  | .stale stored received =>
    "stale sequence " ++ toString received ++ " (stored " ++ toString stored ++ ")"
  | .unreadable error => "malformed manifest: " ++ error.message
  | .malformed cause => "malformed manifest: " ++ cause.message
  | .timeout => "request timed out"
  | .exchange error => "transport: " ++ error.message
  | .rejected text => "rejected by peer: " ++ text
  | .store error => "store: " ++ error.message

/-- What became of a namespace. -/
inductive Outcome
  /-- A newer manifest was stored. -/
  | applied (sequence : UInt64) (updates : List RefUpdate)
  /-- There was nothing to do. -/
  | skipped (reason : SkipReason)
  /-- It could not be fetched. -/
  | failed (reason : FailReason)
deriving DecidableEq

namespace Outcome

/-- Whether a manifest was stored. -/
def isApplied : Outcome → Bool
  | .applied _ _ => true
  | _ => false

/-- Whether there was nothing to do. -/
def isSkipped : Outcome → Bool
  | .skipped _ => true
  | _ => false

/-- Whether the namespace could not be fetched. -/
def isFailed : Outcome → Bool
  | .failed _ => true
  | _ => false

/-- The refs that changed. -/
def updates : Outcome → List RefUpdate
  | .applied _ updates => updates
  | _ => []

end Outcome

/-- Why the store did not take a manifest over. The same manifest again is no failure. -/
def Outcome.ofStoreError (signed : SignedManifest) : StoreError → Outcome
  | .stale _ current received =>
    if current.signed = signed then .skipped (.upToDate received)
    else .failed (.stale current.sequence received)
  | .invalidSignature _ => .failed .invalidSignature
  | .identityMismatch _ _ => .failed .invalidSignature
  | .malformed cause => .failed (.malformed cause)
  | error => .failed (.store error)

/-- Writes an encoded manifest to the store. -/
def Store.applyEncoded (store : Store) (now : Int64) (repo : RepoId) (identity : PeerId)
    (encoded : Bytes) : Outcome × Store :=
  match SignedManifest.decode encoded with
  | .error error => (.failed (.unreadable error), store)
  | .ok signed =>
    match store.replace now repo identity signed with
    | .error error => (.ofStoreError signed error, store)
    | .ok (replaced, store) =>
      let before :=
        match replaced.previous with
        | some previous => previous.manifest.refs
        | none => .empty
      let updates := RefUpdate.diff before replaced.current.manifest.refs
      (.applied replaced.current.sequence updates, store)

/-- What comes of a request: nothing in time, or a reply. -/
inductive Answer
  /-- Nothing came in time. -/
  | timedOut
  /-- Something came. -/
  | replied (reply : Reply)

/-- Does what the answer to the request for a manifest asks for. -/
def Answer.apply (answer : Answer) (store : Store) (now : Int64) (repo : RepoId)
    (identity : PeerId) : Outcome × Store :=
  match answer with
  | .timedOut => (.failed .timeout, store)
  | .replied reply =>
    match reply.manifest with
    | .error (.rejected _ text) => (.failed (.rejected text), store)
    | .error error => (.failed (.exchange error), store)
    | .ok none => (.skipped .notFound, store)
    | .ok (some encoded) => store.applyEncoded now repo identity encoded

end SignedRefs
