import SignedRefs.Graph
import SignedRefs.Namespace

/-!
# Patches

A patch as it is read from the stored namespaces: what it proposes in its successive revisions, and
how it ended if it did. What can go wrong while a patch is authored or read is a `PatchError`.
-/

namespace SignedRefs

/-- How far a patch has come. -/
inductive PatchStatus
  /-- It has its first revision only. -/
  | proposed
  /-- It has further revisions. -/
  | updated
  /-- A revision is contained in the target branch. -/
  | merged
  /-- It was closed. -/
  | closed
deriving DecidableEq

namespace PatchStatus

/-- Whether nothing moves a patch out of the state. -/
def isTerminal : PatchStatus → Bool
  | .merged | .closed => true
  | _ => false

/-- The word for the state. -/
def text : PatchStatus → String
  | .proposed => "proposed"
  | .updated => "updated"
  | .merged => "merged"
  | .closed => "closed"

end PatchStatus

/-- One proposal within a patch. -/
structure Revision where
  /-- The change that made the proposal. -/
  id : ObjectId
  /-- The commit that it builds on. -/
  base : ObjectId
  /-- The commit that it proposes. -/
  head : ObjectId
  /-- Who made it. -/
  author : PeerId
  /-- The change before it; the first revision has none. -/
  parent : Option ObjectId
  /-- When its author says it was made, in milliseconds. -/
  timestamp : Int64
deriving DecidableEq

/-- How a patch ended. -/
inductive Resolution
  /-- The head of a revision is contained in the target branch of `into`. -/
  | merged (revision : ObjectId) (into : PeerId)
  /-- Someone entitled to it closed the patch. -/
  | closed (author : PeerId) (reason : String)
deriving DecidableEq

/-- A patch. -/
structure Patch where
  /-- The change that opened it. -/
  id : ObjectId
  /-- Who opened it. -/
  author : PeerId
  /-- The branch that it is meant for. -/
  target : BranchName
  /-- What it is called. -/
  title : String
  /-- The first proposal, made by the change that opened it. -/
  root : Revision
  /-- The further proposals, in the order of their changes. -/
  later : List Revision
  /-- How far it has come. -/
  status : PatchStatus
  /-- How it ended. -/
  resolution : Option Resolution
  /-- The last change, on which new ones build. -/
  tip : ObjectId
deriving DecidableEq

namespace Patch

/-- All proposals in the order of their changes. -/
def revisions (p : Patch) : List Revision := p.root :: p.later

/-- The last proposal. -/
def latest (p : Patch) : Revision := p.later.getLast?.getD p.root

/-- The proposal made by a change. -/
def revision? (p : Patch) (id : ObjectId) : Option Revision :=
  p.revisions.find? fun revision => revision.id == id

/-- What is proposed, in order. -/
def heads (p : Patch) : List ObjectId := p.revisions.map Revision.head

/-- Whether it ended in a merge. -/
def isMerged (p : Patch) : Bool := p.status == .merged

end Patch

/-! ### Errors -/

/-- What can go wrong while a patch is authored or read. -/
inductive PatchError
  /-- There is no such patch. -/
  | notFound (id : ObjectId)
  /-- A change breaks the rules for changes. -/
  | malformedChange (error : RecordError)
  /-- The change that names the patch does not open one. -/
  | invalidRoot (id : ObjectId)
  /-- The patch has more changes than are looked at. -/
  | tooManyChanges (id : ObjectId) (limit : Nat)
  /-- The object graph does not answer. -/
  | graph (fault : GraphFault)
  /-- A record is wrong. -/
  | record (error : RecordError)
deriving DecidableEq

/-- The text of an error. -/
def PatchError.message : PatchError → String
  | .notFound id => "patch " ++ id.hex ++ " not found"
  | .malformedChange error => "malformed change: " ++ error.message
  | .invalidRoot id => "patch " ++ id.hex ++ " does not start with an open change"
  | .tooManyChanges id limit =>
    "patch " ++ id.hex ++ " has more than " ++ toString limit ++ " changes"
  | .graph fault => "object graph error: " ++ fault.message
  | .record error => error.message

end SignedRefs
