import SignedRefs.Patch.History

/-!
# How a Patch Ends

Two kinds of events end a patch: a revision turns out to be merged, and someone entitled to it
closes the patch. An event counts unless an honoured close is among the changes it builds on; a
close counts only if no merged revision is among them either. Events that count are concurrent with
one another: the one with the earliest time decides, and of equally early ones the first in order. A
merge then resolves to the last merged revision that counts.
-/

namespace SignedRefs

/-- An event that ends a patch. -/
inductive Ending
  /-- The revision made by this change is merged. -/
  | merged (revision : ObjectId)
  /-- This change closes the patch. -/
  | closed (change : ObjectId)
deriving DecidableEq

namespace Ending

/-- What may end a patch: its history, the honoured closes, and the merged revisions with the owners
of the branches that contain them. -/
structure Events where
  /-- The changes. -/
  history : History
  /-- The changes that close the patch by right. -/
  closes : SortedSet ObjectId
  /-- The merged revisions. -/
  merged : SortedMap ObjectId PeerId

/-- The event at a change, if there is one that counts. -/
def at? (events : Events) (id : ObjectId) : Option Ending :=
  let earlier := events.history.ancestors History.maxChanges id
  if events.merged.contains id then
    if earlier.any events.closes.contains then none else some (.merged id)
  else if events.closes.contains id then
    if earlier.any events.closes.contains || earlier.any events.merged.contains then none
    else some (.closed id)
  else none

/-- The events that count, in the order of their changes, with the times of these. -/
def surviving (events : Events) (order : List ObjectId) : List (Int64 × Ending) :=
  order.filterMap fun id => do
    let event ← at? events id
    let change ← events.history.get? id
    return (change.timestamp, event)

/-- The earlier of two events, the first one if they are equally early. -/
def earlier (a b : Int64 × Ending) : Int64 × Ending := if b.1 < a.1 then b else a

/-- The earliest event, of equally early ones the first. -/
def earliest? : List (Int64 × Ending) → Option Ending
  | [] => none
  | first :: rest => some (rest.foldl earlier first).2

/-- The revision of a merge. -/
def revision? : Ending → Option ObjectId
  | .merged revision => some revision
  | .closed _ => none

/-- The event that decides how the patch ends. -/
def settle (events : Events) (order : List ObjectId) : Option Ending :=
  let survivors := surviving events order
  match earliest? survivors with
  | none => none
  | some (.closed change) => some (.closed change)
  | some (.merged _) => (survivors.filterMap fun event => event.2.revision?).getLast?.map .merged

end Ending

end SignedRefs
