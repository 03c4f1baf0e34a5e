import SignedRefs.Patch

/-!
# The History of a Patch

Every namespace may name the latest change of a patch that its owner knows of. `History.collect`
walks from these back towards the change that opened the patch and keeps what is authentic: each
change has to have the name it was found under, and to be signed by its author. What hangs on a
missing or forged change is never reached from the opening change and so falls away in
`History.order`, which lists the connected changes, parents first.

At most `History.maxChanges` changes are looked at.
-/

namespace SignedRefs

/-- Changes under their names. -/
abbrev History := SortedMap ObjectId Change

namespace History

/-- How many changes are looked at for one patch. -/
def maxChanges : Nat := 10000

/-! ### Collecting -/

/-- A walk through a graph: the names met, the authentic changes among them, and how many names may
still be met. -/
structure Walk where
  /-- The names met. -/
  seen : SortedSet ObjectId
  /-- The authentic changes among them. -/
  found : History

/-- Looks a change up; it has to have the name it was found under and to be signed by its author. -/
def authentic? (graph : ObjectGraph) (id : ObjectId) : Except GraphFault (Option Change) := do
  match ← graph.change? id with
  | none => return none
  | some signed =>
    match signed.id, signed.verify with
    | .ok found, .ok () => return if found = id then some signed.change else none
    | _, _ => return none

/-- Follows the parents of `id` until a change was met before, is not authentic, has no parent or is
the root. Only `room` more names may be met; what is left of it is part of the result. -/
def follow (graph : ObjectGraph) (root : ObjectId) :
    (room : Nat) → (id : ObjectId) → Walk → Except PatchError (Walk × Nat)
  | room, id, walk =>
    if walk.seen.contains id then .ok (walk, room)
    else
      match room with
      | 0 => .error (.tooManyChanges root maxChanges)
      | room + 1 =>
        let seen := walk.seen.insert id
        match authentic? graph id with
        | .error fault => .error (.graph fault)
        | .ok none => .ok ({ walk with seen := seen }, room)
        | .ok (some change) =>
          let walk : Walk := ⟨seen, walk.found.insert id change⟩
          match (if id = root then none else change.parent) with
          | none => .ok (walk, room)
          | some parent => follow graph root room parent walk

/-- Follows the parents of every tip in turn. -/
def followAll (graph : ObjectGraph) (root : ObjectId) :
    (tips : List ObjectId) → Walk → (room : Nat) → Except PatchError Walk
  | [], walk, _ => .ok walk
  | tip :: tips, walk, room =>
    match follow graph root room tip walk with
    | .error error => .error error
    | .ok (walk, room) => followAll graph root tips walk room

/-- The authentic changes that the tips lead to, the tips taken in descending order. -/
def collect (graph : ObjectGraph) (root : ObjectId) (tips : List ObjectId) :
    Except PatchError History :=
  (followAll graph root (SortedSet.ofList tips).toList.reverse ⟨.empty, .empty⟩ maxChanges).map
    Walk.found

/-! ### Ordering -/

/-- The changes that build on each change, by ascending name. The root builds on nothing. -/
def children (history : History) (root : ObjectId) : SortedMap ObjectId (List ObjectId) :=
  history.entries.foldr
    (fun (id, change) kids =>
      match change.parent with
      | some parent =>
        if id = root then kids else kids.insert parent (id :: (kids.get? parent).getD [])
      | none => kids)
    .empty

/-- Lists the smallest change that is ready, makes its children ready, and goes on. -/
def release (kids : SortedMap ObjectId (List ObjectId)) :
    (fuel : Nat) → (ready : SortedSet ObjectId) → List ObjectId
  | 0, _ => []
  | fuel + 1, ready =>
    match ready.uncons? with
    | none => []
    | some ((next, _), ready) =>
      next :: release kids fuel (ready.merge (SortedSet.ofList ((kids.get? next).getD [])))

/-- The changes connected to the root, parents first, and of those that are ready at a time the one
with the smallest name first. Each is released once, by its only parent. -/
def order (history : History) (root : ObjectId) : List ObjectId :=
  release (history.children root) (history.size + 1) (SortedSet.ofList [root])

/-- The changes that a change builds on, nearest first, at most `count`. -/
def ancestors (history : History) : (count : Nat) → ObjectId → List ObjectId
  | 0, _ => []
  | count + 1, id =>
    match (history.get? id).bind Change.parent with
    | none => []
    | some parent => parent :: history.ancestors count parent

end History

end SignedRefs
