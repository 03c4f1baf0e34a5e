import SignedRefs.Cbor.Decode
import SignedRefs.Cbor.Fields
import SignedRefs.Identity
import SignedRefs.ObjectId
import SignedRefs.Ref.Branch
import SignedRefs.RepoId

/-!
# Errors of Signed Records

What can be wrong with an identifier, a ref name or a signed record, as causes. The wording is in
`RecordError.message`.
-/

namespace SignedRefs

/-- Why bytes or fields do not make a record. -/
inductive Malformed
  /-- The bytes leave no room for a record before the signature. -/
  | tooShort
  /-- The body cannot be read as CBOR. -/
  | cbor
  /-- The body is not the canonical form of what it says. -/
  | notCanonical
  /-- A field is missing or has another form. -/
  | field (fault : Cbor.FieldFault)
  /-- A key among the refs is no text. -/
  | refNameNotText
  /-- A key among the refs is no ref name. -/
  | refName (error : NameError)
  /-- A value among the refs is no byte string. -/
  | refTargetNotBytes
  /-- A value among the refs is no object name. -/
  | refTarget (fault : ObjectId.Fault)
  /-- The record of the signed refs is listed among them. -/
  | listsItself
  /-- There are this many refs, more than allowed. -/
  | tooManyRefs (count limit : Nat)
  /-- The bytes leave no room for a change before the signature. -/
  | changeTooShort
  /-- The kind of a change has this unknown number. -/
  | unknownKind (kind : UInt64)
  /-- A change that opens a patch names a parent. -/
  | openWithParent
  /-- A change that continues a patch names no parent. -/
  | missingParent
  /-- The title of a patch is too long. -/
  | titleTooLong
  /-- The reason for closing a patch is too long. -/
  | reasonTooLong
deriving DecidableEq

/-- What is wrong with an identifier, a name or a record. -/
inductive RecordError
  /-- A text names no identity. -/
  | identity (fault : PeerId.Fault)
  /-- An identity is no public key, so nothing can be verified under it. -/
  | unusableKey (id : PeerId)
  /-- A key signs a namespace that another key owns. -/
  | notOwner (key owner : PeerId)
  /-- A key signs a change that names another author. -/
  | notAuthor (key author : PeerId)
  /-- A signature does not verify. -/
  | signature
  /-- A text or byte string names no object. -/
  | objectId (fault : ObjectId.Fault)
  /-- A text names no repository. -/
  | repoId (fault : RepoId.Fault)
  /-- A text is no ref name. -/
  | refName (error : NameError)
  /-- Bytes or fields make no record. -/
  | malformed (cause : Malformed)
  /-- A value has no canonical form. -/
  | encoding (fault : Cbor.EncodeFault)
deriving DecidableEq

/-- The words for a text that is no ref name. -/
def refNameMessage (error : NameError) : String := "invalid ref name: " ++ error.message

/-- The words for a text or byte string that names no object. -/
def objectIdMessage (fault : ObjectId.Fault) : String := "invalid object id: " ++ fault.message

/-- The words for a cause. -/
def Malformed.message : Malformed → String
  | .tooShort => "too short"
  | .cbor => "cbor"
  | .notCanonical => "non-canonical encoding or trailing bytes"
  | .field fault => fault.message
  | .refNameNotText => "ref name must be text"
  | .refName error => refNameMessage error
  | .refTargetNotBytes => "ref target must be bytes"
  | .refTarget fault => objectIdMessage fault
  | .listsItself => "refs/rad/sigrefs cannot be listed in its own manifest"
  | .tooManyRefs count limit =>
    toString count ++ " refs exceeds the limit of " ++ toString limit
  | .changeTooShort => "change: too short"
  | .unknownKind kind => "change: unknown kind " ++ toString kind
  | .openWithParent => "change: open change cannot have a parent"
  | .missingParent => "change: only the open change may omit its parent"
  | .titleTooLong => "change: title too long"
  | .reasonTooLong => "change: reason too long"

/-- The text of an error. -/
def RecordError.message : RecordError → String
  | .identity fault => "invalid identity: " ++ fault.message
  | .unusableKey id => "invalid identity: " ++ id.hex
  | .notOwner key owner =>
    "invalid identity: key " ++ key.hex ++ " does not own namespace " ++ owner.hex
  | .notAuthor key author =>
    "invalid identity: key " ++ key.hex ++ " cannot sign for " ++ author.hex
  | .signature => "invalid signature"
  | .objectId fault => objectIdMessage fault
  | .repoId fault => "invalid repository id: " ++ fault.message
  | .refName error => refNameMessage error
  | .malformed cause => "malformed manifest: " ++ cause.message
  | .encoding fault => "encoding error: " ++ fault.message

namespace RecordError

/-- The error of a field. -/
def ofField (fault : Cbor.FieldFault) : RecordError := .malformed (.field fault)

/-- The error of a body. -/
def ofDecode : Cbor.DecodeFault → RecordError
  | .malformed => .malformed .cbor
  | .encoding fault => .encoding fault
  | .notCanonical => .malformed .notCanonical

end RecordError

end SignedRefs
