import SignedRefs.Patch.Settlement

/-!
# Reading Patches

A patch has no stored state of its own. `Patch.inspect` reads it from a snapshot: it collects the
changes that the namespaces lead to, replays them in order, and settles how the patch ended. The
patch's author and the delegates may close it, and it is merged when a revision is contained in the
target branch of one of them. Since that is found out anew each time, a patch can become merged
without any change having been written to it.
-/

namespace SignedRefs

namespace Patch

/-- The revision that a change makes. -/
def revisionOf? (id : ObjectId) (change : Change) : Option Revision :=
  match change.action with
  | .revise base head => some ⟨id, base, head, change.author, change.parent, change.timestamp⟩
  | _ => none

/-- Whether a change closes the patch by right. -/
def isHonouredClose (author : PeerId) (delegates : SortedSet PeerId) (change : Change) : Bool :=
  match change.action with
  | .close _ => change.author == author || delegates.contains change.author
  | _ => false

/-- The heads of the target branch in the namespaces of the author and the delegates. -/
def targetTips (snapshot : Snapshot) (delegates : SortedSet PeerId) (author : PeerId)
    (target : BranchName) : List (PeerId × ObjectId) :=
  (delegates.insert author).toList.filterMap fun peer => do
    let namespc ← snapshot.get? peer
    let tip ← namespc.manifest.refs.get? (.head target)
    return (peer, tip)

/-- The first owner of a tip that contains a commit. -/
def containedIn? (graph : ObjectGraph) (head : ObjectId) :
    List (PeerId × ObjectId) → Except GraphFault (Option PeerId)
  | [] => .ok none
  | (peer, tip) :: tips => do
    if ← graph.isAncestor head tip then return some peer
    else containedIn? graph head tips

/-- The merged revisions, with the first owner of a tip that contains each. -/
def mergedRevisions (graph : ObjectGraph) (tips : List (PeerId × ObjectId))
    (revisions : List Revision) : Except GraphFault (SortedMap ObjectId PeerId) :=
  revisions.foldlM
    (fun merged revision => do
      match ← containedIn? graph revision.head tips with
      | some peer => return merged.insert revision.id peer
      | none => return merged)
    .empty

/-- The reason that a change gives for closing a patch. -/
def reasonOf (change : Change) : String :=
  match change.action with
  | .close reason => reason
  | _ => ""

/-- The state of a patch that ended like this, and how it ended in detail. -/
def conclude (events : Ending.Events) (updated : Bool) :
    Option Ending → PatchStatus × Option Resolution
  | none => (if updated then .updated else .proposed, none)
  | some (.merged revision) =>
    (.merged, (events.merged.get? revision).map fun into => .merged revision into)
  | some (.closed id) =>
    (.closed, (events.history.get? id).map fun change => .closed change.author (reasonOf change))

/-- Reads a patch. There is none if no namespace refers to it, or if the change that opens it is not
to be found. -/
def inspect (graph : ObjectGraph) (delegates : SortedSet PeerId) (snapshot : Snapshot)
    (id : ObjectId) : Except PatchError (Option Patch) :=
  match snapshot.patchTips id with
  | [] => .ok none
  | tips =>
    match History.collect graph id tips with
    | .error error => .error error
    | .ok history =>
      match history.get? id with
      | none => .ok none
      | some opening =>
        match opening.action with
        | .openPatch target title base head =>
          let order := history.order id
          let later := order.tail.filterMap fun change =>
            (history.get? change).map fun record => (change, record)
          let root : Revision := ⟨id, base, head, opening.author, none, opening.timestamp⟩
          let revisions := later.filterMap fun (change, record) => revisionOf? change record
          let closes := SortedSet.ofList <|
            (later.filter fun e => isHonouredClose opening.author delegates e.2).map Prod.fst
          match mergedRevisions graph (targetTips snapshot delegates opening.author target)
              (root :: revisions) with
          | .error fault => .error (.graph fault)
          | .ok merged =>
            let events : Ending.Events := ⟨history, closes, merged⟩
            let (status, resolution) :=
              conclude events (!revisions.isEmpty) (Ending.settle events order)
            .ok (some
              { id := id
                author := opening.author
                target := target
                title := title
                root := root
                later := revisions
                status := status
                resolution := resolution
                tip := order.getLast?.getD id })
        | _ => .error (.invalidRoot id)

/-- Every patch that the snapshot refers to and that can be read, by id. -/
def list (graph : ObjectGraph) (delegates : SortedSet PeerId) (snapshot : Snapshot) : List Patch :=
  snapshot.patchIds.filterMap fun id =>
    match inspect graph delegates snapshot id with
    | .ok patch => patch
    | .error _ => none

end Patch

end SignedRefs
