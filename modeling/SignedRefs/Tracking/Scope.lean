import SignedRefs.Record.Error
import SignedRefs.Tracking.Alias

/-!
# Scopes

How widely a peer replicates. As the policy for an identity, `none` blocks it and the other two mark
it as tracked. As the scope of a fetch, `trusted` asks for the tracked identities, and `all` also
for those that the other peer offers.

The errors of tracking are collected here as well.
-/

namespace SignedRefs

/-- How widely a peer replicates. -/
inductive Scope
  /-- Nothing. -/
  | none
  /-- Tracked identities. -/
  | trusted
  /-- Whatever is offered and not refused. -/
  | all
deriving DecidableEq

/-- What can go wrong with tracking. -/
inductive TrackingError
  /-- A text names no identity. -/
  | invalidIdentity (fault : PeerId.Fault)
  /-- A text is no alias. -/
  | invalidAlias (text : String) (fault : AliasFault)
  /-- Nobody has this alias. -/
  | unknownAlias (text : String)
  /-- A text is no scope. -/
  | invalidScope (text : String)
  /-- The text of a policy file does not have its form. -/
  | unreadable
  /-- There is no policy file. -/
  | noFile
deriving DecidableEq

/-- The text of an error. -/
def TrackingError.message : TrackingError → String
  | .invalidIdentity fault => "invalid identity: " ++ (RecordError.identity fault).message
  | .invalidAlias text fault => "invalid alias " ++ Text.quoted text ++ ": " ++ fault.message
  | .unknownAlias text => "unknown alias: " ++ text
  | .invalidScope text => "invalid scope: " ++ text
  | .unreadable => "serialization error"
  | .noFile => "I/O error"

namespace Scope

/-- The scope that holds unless another one is given. -/
def standard : Scope := .trusted

/-- Whether an identity with this policy is fetched. -/
def isTracked : Scope → Bool
  | .none => false
  | _ => true

/-- The word for a scope. -/
def text : Scope → String
  | .none => "none"
  | .trusted => "trusted"
  | .all => "all"

/-- Reads the word for a scope. -/
def ofText (text : String) : Except TrackingError Scope :=
  if text = "none" then .ok .none
  else if text = "trusted" then .ok .trusted
  else if text = "all" then .ok .all
  else .error (.invalidScope text)

end Scope

end SignedRefs
