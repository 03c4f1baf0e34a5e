import SignedRefs.Node.Error
import SignedRefs.Sync.Outcome

/-!
# Reporting Errors

An error is reported by its kind, its text, and the record that stands in the way if there is one.
The kind of an error that comes from another part names both parts, with a slash between them. Where
all the words belong to the file system or to the database, there is no text; where some of them do,
the text ends before them.
-/

namespace SignedRefs

/-- The text up to the first place where a subject is followed by a colon and a space, the subject
included. -/
def upTo? (subject text : String) : Option String :=
  match text.splitOn (subject ++ ": ") with
  | before :: _ :: _ => some (before ++ subject)
  | _ => none

/-- The text without the words of the record reader or, if it has none, of the database. -/
def ownWords (text : String) : String :=
  (upTo? "cbor" text).getD ((upTo? "database error" text).getD text)

/-- Errors that can be reported. -/
class Reported (ε : Type) where
  /-- The word for the kind of an error. -/
  kind : ε → String
  /-- The text of an error. -/
  text? : ε → Option String
  /-- The record that stands in the way. -/
  obstacle? : ε → Option ObjectId := fun _ => none

namespace Reported

instance : Reported RecordError where
  kind
    | .identity _ | .unusableKey _ | .notOwner .. | .notAuthor .. => "InvalidIdentity"
    | .signature => "InvalidSignature"
    | .objectId _ => "InvalidOid"
    | .repoId _ => "InvalidRepoId"
    | .refName _ => "InvalidRefName"
    | .malformed _ => "MalformedManifest"
    | .encoding _ => "Encoding"
  text? error := some error.message

instance : Reported TrackingError where
  kind
    | .invalidIdentity _ => "InvalidIdentity"
    | .invalidAlias .. => "InvalidAlias"
    | .unknownAlias _ => "UnknownAlias"
    | .invalidScope _ => "InvalidScope"
    | .unreadable => "Serialization"
    | .noFile => "Io"
  text?
    | .unreadable | .noFile => none
    | error => some error.message

instance : Reported StoreError where
  kind
    | .invalidSignature _ => "InvalidSignature"
    | .identityMismatch .. => "IdentityMismatch"
    | .stale .. => "StaleManifest"
    | .notFound .. => "NotFound"
    | .malformed _ => "MalformedManifest"
    | .database => "Database"
    | .invalidData _ => "InvalidData"
    | .migration _ => "Migration"
  text?
    | .database | .migration (.failedStep _) => none
    | error => some error.message
  obstacle?
    | .stale _ current _ => some current.record
    | _ => none

instance : Reported PatchError where
  kind
    | .notFound _ => "NotFound"
    | .malformedChange _ => "MalformedChange"
    | .invalidRoot _ => "InvalidRoot"
    | .tooManyChanges .. => "TooManyChanges"
    | .graph _ => "Graph"
    | .record error => "Core/" ++ kind error
  text? error := some error.message

instance : Reported SyncError where
  kind
    | .connection .. => "Connection"
    | .delivery _ => "Transport"
    | .listingTimeout _ => "Timeout"
    | .response _ => "InvalidMessage"
    | .rejected .. => "Rejected"
    | .store error => "Store/" ++ kind error
    | .record error => "Core/" ++ kind error
  text? error := some error.message

instance : Reported LimitFault where
  kind _ := "limit"
  text? fault := some fault.message

instance : Reported FailReason where
  kind
    | .invalidSignature => "InvalidSignature"
    | .stale .. => "Stale"
    | .unreadable _ | .malformed _ => "Malformed"
    | .timeout => "Timeout"
    | .exchange _ => "Transport"
    | .rejected _ => "Rejected"
    | .store _ => "Store"
  text? reason := some reason.message

instance : Reported BindFault where
  kind
    | .invalidName .. => "InvalidRemoteName"
    | .taken .. => "NameConflict"
  text? fault := some fault.message

instance : Reported NodeError where
  kind
    | .record error => "Core/" ++ kind error
    | .tracking error => "Tracking/" ++ kind error
    | .store error => "Store/" ++ kind error
    | .sync error => "Sync/" ++ kind error
    | .patch error => "Patch/" ++ kind error
    | .remote fault => kind fault
    | .unknownRemote _ => "UnknownRemote"
    | .patchNotFound _ => "PatchNotFound"
  text? error := some error.message

end Reported

end SignedRefs
