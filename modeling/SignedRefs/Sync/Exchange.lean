import SignedRefs.Store
import SignedRefs.Sync.Error

/-!
# Exchanges

An exchange is a request and its response. This module has both ends: how a store answers
(`Store.respond`), and what the asking peer makes of a response (`Reply.identities`,
`Reply.manifest`, `Reply.accepted`). A pushed manifest is taken over under the same rules as any
other.
-/

namespace SignedRefs

/-! ### Answering -/

/-- The kind of error to report when a manifest is not taken over. -/
def StoreError.code : StoreError → ErrorCode
  | .stale .. => .stale
  | .invalidSignature _ => .invalidSignature
  | .identityMismatch .. => .invalidSignature
  | .malformed _ => .malformed
  | .notFound .. => .notFound
  | _ => .internal

namespace Store

/-- The answer to the question for identities. -/
def respondNamespaces (store : Store) (repo : RepoId) : Response :=
  match store.identities repo with
  | .ok identities => .namespaces (identities.take Limit.identities)
  | .error error => .failure .internal error.message

/-- The answer to the question for a manifest. -/
def respondManifest (store : Store) (repo : RepoId) (identity : PeerId) : Response :=
  match store.load repo identity with
  | .ok none => .manifest none
  | .ok (some found) =>
    match found.signed.encode with
    | .ok encoded => .manifest (some encoded)
    | .error error => .failure .internal error.message
  | .error error => .failure .internal error.message

/-- The answer to a pushed manifest, and the store afterwards. -/
def respondPush (store : Store) (now : Int64) (repo : RepoId) (identity : PeerId)
    (encoded : Bytes) : Response × Store :=
  match SignedManifest.decode encoded with
  | .error error => (.failure .malformed error.message, store)
  | .ok signed =>
    match store.replace now repo identity signed with
    | .ok (replaced, store) => (.accepted replaced.current.sequence, store)
    | .error error => (.failure error.code error.message, store)

/-- The answer to a request, and the store afterwards. -/
def respond (store : Store) (now : Int64) (request : Request) : Response × Store :=
  match request.validate with
  | .error fault => (.failure .limitExceeded fault.message, store)
  | .ok () =>
    match request with
    | .namespaces repo => (store.respondNamespaces repo, store)
    | .manifest repo identity => (store.respondManifest repo identity, store)
    | .push repo identity encoded => store.respondPush now repo identity encoded

end Store

/-! ### Understanding answers -/

/-- What comes back for a request. -/
abbrev Reply := Except SyncError Response

namespace Reply

/-- The response, if it keeps the limits and reports no error. -/
def checked (reply : Reply) : Except SyncError Response :=
  match reply with
  | .error error => .error error
  | .ok response =>
    match response.validate with
    | .error fault => .error (.response (.limit fault))
    | .ok () =>
      match response with
      | .error code text => .error (.rejected code text)
      | response => .ok response

/-- The error for a response of another kind. -/
def unexpected {α : Type} (expected : Expected) (response : Response) : Except SyncError α :=
  .error (.response (.unexpected expected response.position))

/-- The identities that a peer lists. -/
def identities (reply : Reply) : Except SyncError (List PeerId) :=
  match reply.checked with
  | .error error => .error error
  | .ok (.namespaces identities) => .ok identities
  | .ok other => unexpected .namespaces other

/-- The manifest that a peer sends, if it has one. -/
def manifest (reply : Reply) : Except SyncError (Option Bytes) :=
  match reply.checked with
  | .error error => .error error
  | .ok (.manifest encoded) => .ok encoded
  | .ok other => unexpected .manifest other

/-- The number of the manifest that a peer took over. -/
def accepted (reply : Reply) : Except SyncError UInt64 :=
  match reply.checked with
  | .error error => .error error
  | .ok (.accepted sequence) => .ok sequence
  | .ok other => unexpected .accepted other

end Reply

end SignedRefs
