import SignedRefs.Patch
import SignedRefs.Remote
import SignedRefs.Sync.Error
import SignedRefs.Tracking.Scope

/-!
# Errors of a Node

Every part of a node has its own errors; a `NodeError` says which part it comes from.
-/

namespace SignedRefs

/-- What can go wrong in a node. -/
inductive NodeError
  /-- A record is wrong. -/
  | record (error : RecordError)
  /-- A tracking decision is wrong. -/
  | tracking (error : TrackingError)
  /-- The store has a problem. -/
  | store (error : StoreError)
  /-- Something went wrong with another peer. -/
  | sync (error : SyncError)
  /-- A patch is wrong. -/
  | patch (error : PatchError)
  /-- A remote is not bound. -/
  | remote (fault : BindFault)
  /-- There is no such remote. -/
  | unknownRemote (name : String)
  /-- There is no such patch. -/
  | patchNotFound (id : ObjectId)
deriving DecidableEq

/-- The text of an error. -/
def NodeError.message : NodeError → String
  | .record error => "core error: " ++ error.message
  | .tracking error => "tracking error: " ++ error.message
  | .store error => "storage error: " ++ error.message
  | .sync error => "sync error: " ++ error.message
  | .patch error => "patch error: " ++ error.message
  | .remote fault => fault.message
  | .unknownRemote name => "no remote named " ++ Text.quoted name
  | .patchNotFound id => "patch " ++ id.hex ++ " not found"

end SignedRefs
