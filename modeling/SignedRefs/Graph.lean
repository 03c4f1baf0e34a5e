import SignedRefs.Change
import SignedRefs.SortedMap

/-!
# Object Graphs

Patches are read with the help of the version-control engine, which answers two questions: which
change an object name stands for, and whether one commit is an ancestor of another. An `ObjectGraph`
is anything that answers them, possibly with a fault. `MemoryGraph` is the graph that holds commits
and changes itself; there, ancestry is reachability over recorded parents.
-/

namespace SignedRefs

/-- Why a graph does not answer. -/
inductive GraphFault
  /-- The change with this name cannot be read. -/
  | brokenChange (id : ObjectId)
  /-- The commit with this name cannot be read. -/
  | brokenCommit (id : ObjectId)
deriving DecidableEq

/-- The words for a fault. -/
def GraphFault.message : GraphFault → String
  | .brokenChange id => "broken change " ++ id.hex
  | .brokenCommit id => "broken commit " ++ id.hex

/-- Something that knows commits and changes. -/
structure ObjectGraph where
  /-- The change that a name stands for, if it is known. -/
  change? : ObjectId → Except GraphFault (Option SignedChange)
  /-- Whether the first commit is an ancestor of the second or that commit itself. -/
  isAncestor : (ancestor descendant : ObjectId) → Except GraphFault Bool

/-! ### Graphs held in memory -/

/-- Commits with their parents, and changes under their names. -/
structure MemoryGraph where
  /-- The parents of every known commit. -/
  commits : SortedMap ObjectId (List ObjectId)
  /-- The known changes. -/
  changes : SortedMap ObjectId SignedChange

namespace MemoryGraph

/-- The graph that knows nothing. -/
def empty : MemoryGraph := ⟨.empty, .empty⟩

/-- Records a commit, over one with the same name. -/
def addCommit (g : MemoryGraph) (id : ObjectId) (parents : List ObjectId) : MemoryGraph :=
  { g with commits := g.commits.insert id parents }

/-- Records a change under its name; a change that breaks the rules has none. -/
def addChange (g : MemoryGraph) (change : SignedChange) :
    Except RecordError (ObjectId × MemoryGraph) :=
  match change.id with
  | .ok id => .ok (id, { g with changes := g.changes.insert id change })
  | .error error => .error error

/-- The recorded parents of a commit. -/
def parents (g : MemoryGraph) (id : ObjectId) : List ObjectId := (g.commits.get? id).getD []

/-- Searches the commits that are still to be visited, and those behind them, for a target. Each
step takes one from the list, and a commit is expanded only once, so as many steps as there are
recorded links, and one more for the start, visit everything. -/
def search (g : MemoryGraph) (target : ObjectId) :
    (fuel : Nat) → (seen : SortedSet ObjectId) → (pending : List ObjectId) → Bool
  | _, _, [] => false
  | 0, _, _ => false
  | fuel + 1, seen, id :: pending =>
    if id = target then true
    else if seen.contains id then g.search target fuel seen pending
    else g.search target fuel (seen.insert id) (g.parents id ++ pending)

/-- How many links to parents are recorded. -/
def linkCount (g : MemoryGraph) : Nat :=
  g.commits.values.foldr (fun parents count => parents.length + count) 0

/-- Whether the first commit is recorded and the second reaches it over recorded parents. -/
def isAncestor (g : MemoryGraph) (ancestor descendant : ObjectId) : Bool :=
  g.commits.contains ancestor && g.search ancestor (g.linkCount + 1) .empty [descendant]

/-- The graph as one that always answers. -/
def toObjectGraph (g : MemoryGraph) : ObjectGraph where
  change? id := .ok (g.changes.get? id)
  isAncestor ancestor descendant := .ok (g.isAncestor ancestor descendant)

end MemoryGraph

/-! ### Damaged graphs -/

namespace ObjectGraph

/-- The graph that, asked for some change, answers with the one under another name. -/
def swap (g : ObjectGraph) (names : SortedMap ObjectId ObjectId) : ObjectGraph where
  change? id := g.change? ((names.get? id).getD id)
  isAncestor := g.isAncestor

/-- The graph that cannot read the changes and commits with these names. -/
def damage (g : ObjectGraph) (broken : List ObjectId) : ObjectGraph where
  change? id := if broken.contains id then .error (.brokenChange id) else g.change? id
  isAncestor ancestor descendant :=
    if broken.contains ancestor then .error (.brokenCommit ancestor)
    else g.isAncestor ancestor descendant

end ObjectGraph

end SignedRefs
