import SignedRefs.Ref.Name
import SignedRefs.SortedMap

/-!
# Ref Updates

What changes from one set of refs to another: refs are created, moved to another target, or deleted.
Refs that keep their target are left out.
-/

namespace SignedRefs

/-- A change of a ref. -/
inductive RefUpdate
  /-- A new ref. -/
  | created (name : RefName) (target : ObjectId)
  /-- A ref with another target. -/
  | moved (name : RefName) (old new : ObjectId)
  /-- A ref that is no longer there. -/
  | deleted (name : RefName) (old : ObjectId)
deriving DecidableEq

namespace RefUpdate

/-- The ref that changes. -/
def name : RefUpdate → RefName
  | .created name _ => name
  | .moved name _ _ => name
  | .deleted name _ => name

/-- The change on one line. -/
def text : RefUpdate → String
  | .created name target => "* " ++ name.text ++ " -> " ++ target.short
  | .moved name old new => "  " ++ name.text ++ " " ++ old.short ++ ".." ++ new.short
  | .deleted name old => "- " ++ name.text ++ " (was " ++ old.short ++ ")"

/-- The change of a ref with these targets before and after. -/
def between? (name : RefName) : (old new : Option ObjectId) → Option RefUpdate
  | none, none => none
  | none, some target => some (.created name target)
  | some old, none => some (.deleted name old)
  | some old, some new => if old = new then none else some (.moved name old new)

/-- The changes from one set of refs to another, in the order of their names. -/
def diff (old new : SortedMap RefName ObjectId) : List RefUpdate :=
  (old.merge new).keys.filterMap fun name => between? name (old.get? name) (new.get? name)

/-- Makes the change. -/
def apply (refs : SortedMap RefName ObjectId) : RefUpdate → SortedMap RefName ObjectId
  | .created name target => refs.insert name target
  | .moved name _ new => refs.insert name new
  | .deleted name _ => refs.erase name

end RefUpdate

end SignedRefs
