import SignedRefs.Identity
import SignedRefs.RepoId

/-!
# Messages

Peers talk in requests, each of which gets one response. A message has to keep within limits on what
it carries; `Response.failure` cuts the text of an error so that it does.
-/

namespace SignedRefs

/-! ### Limits -/

namespace Limit

/-- The most identities in a list. -/
def identities : Nat := 1024

/-- The longest encoded manifest, in bytes. -/
def manifestBytes : Nat := 1024 * 1024

/-- The longest text of an error, in bytes. -/
def errorBytes : Nat := 1024

end Limit

/-- Which limit a message breaks. -/
inductive LimitFault
  /-- There are too many identities in a list. -/
  | identities
  /-- A manifest is too long. -/
  | manifest
  /-- The text of an error is too long. -/
  | errorText
deriving DecidableEq

/-- The words for a fault. -/
def LimitFault.message : LimitFault → String
  | .identities => "too many namespaces listed"
  | .manifest => "manifest too large"
  | .errorText => "error message too long"

/-! ### Requests -/

/-- What a peer can be asked for. -/
inductive Request
  /-- The identities with a namespace in a repository. -/
  | namespaces (repo : RepoId)
  /-- The signed manifest of an identity. -/
  | manifest (repo : RepoId) (identity : PeerId)
  /-- To take over a signed manifest. -/
  | push (repo : RepoId) (identity : PeerId) (encoded : Bytes)
deriving DecidableEq

/-- Checks the limits for requests. -/
def Request.validate : Request → Except LimitFault Unit
  | .push _ _ encoded =>
    if Limit.manifestBytes < encoded.length then .error .manifest else .ok ()
  | _ => .ok ()

/-! ### Responses -/

/-- The kinds of errors that a peer reports. -/
inductive ErrorCode
  /-- There is no such thing. -/
  | notFound
  /-- The peer holds the same or a newer manifest. -/
  | stale
  /-- The signature is wrong. -/
  | invalidSignature
  /-- The manifest cannot be read or stored. -/
  | malformed
  /-- The request breaks a limit. -/
  | limitExceeded
  /-- The peer itself has a problem. -/
  | internal
deriving DecidableEq

namespace ErrorCode

/-- Whether the same request would fail again. -/
def isPermanent : ErrorCode → Bool
  | .internal => false
  | _ => true

/-- The word for a kind. -/
def text : ErrorCode → String
  | .notFound => "NotFound"
  | .stale => "Stale"
  | .invalidSignature => "InvalidSignature"
  | .malformed => "Malformed"
  | .limitExceeded => "LimitExceeded"
  | .internal => "Internal"

/-- All kinds. -/
def all : List ErrorCode :=
  [.notFound, .stale, .invalidSignature, .malformed, .limitExceeded, .internal]

/-- The kind with a word. -/
def ofText? (text : String) : Option ErrorCode := all.find? fun code => code.text == text

end ErrorCode

/-- What a peer answers. -/
inductive Response
  /-- The identities with a namespace. -/
  | namespaces (identities : List PeerId)
  /-- The encoded manifest, if there is one. -/
  | manifest (encoded : Option Bytes)
  /-- The manifest with this number was taken over. -/
  | accepted (sequence : UInt64)
  /-- The request failed. -/
  | error (code : ErrorCode) (text : String)
deriving DecidableEq

namespace Response

/-- Checks the limits for responses. -/
def validate : Response → Except LimitFault Unit
  | .namespaces identities =>
    if Limit.identities < identities.length then .error .identities else .ok ()
  | .manifest (some encoded) =>
    if Limit.manifestBytes < encoded.length then .error .manifest else .ok ()
  | .error _ text => if Limit.errorBytes < text.utf8ByteSize then .error .errorText else .ok ()
  | _ => .ok ()

/-- The first characters of a text that take up at most `room` bytes together. -/
def fitting : (room : Nat) → List Char → List Char
  | _, [] => []
  | room, c :: rest => if room < c.utf8Size then [] else c :: fitting (room - c.utf8Size) rest

/-- A failure, its text cut after the last character that ends within the limit. -/
def failure (code : ErrorCode) (text : String) : Response :=
  .error code (String.ofList (fitting Limit.errorBytes text.toList))

/-- The position of a response among the kinds of responses. -/
def position : Response → Nat
  | .namespaces _ => 0
  | .manifest _ => 1
  | .accepted _ => 2
  | .error _ _ => 3

end Response

end SignedRefs
