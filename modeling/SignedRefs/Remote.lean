import SignedRefs.Namespace

/-!
# Remotes

A remote is a local name for another identity's namespace. The version-control engine sees the
branches of that namespace under `refs/remotes/` and the name, as `fetchRefspec` tells it. Binding a
name never touches what is stored.
-/

namespace SignedRefs

/-- Names with the identities that they stand for. -/
structure RemoteBindings where
  /-- The bindings. -/
  bindings : SortedMap String PeerId

/-- Why a name is not bound. -/
inductive BindFault
  /-- It is no name for a remote. -/
  | invalidName (name : String) (error : NameError)
  /-- It stands for another identity. -/
  | taken (name : String) (bound : PeerId)
deriving DecidableEq

/-- The text of a fault. -/
def BindFault.message : BindFault → String
  | .invalidName name error =>
    "invalid remote name " ++ Text.quoted name ++ ": " ++ refNameMessage error
  | .taken name bound => "remote " ++ Text.quoted name ++ " is already bound to " ++ bound.hex

namespace RemoteBindings

/-- No bindings. -/
def empty : RemoteBindings := ⟨.empty⟩

/-- The identity that a name stands for. -/
def get? (r : RemoteBindings) (name : String) : Option PeerId := r.bindings.get? name

/-- Binds a name and says whether it is new. A bound name cannot be bound to another identity. -/
def bind (r : RemoteBindings) (name : String) (identity : PeerId) :
    Except BindFault (Bool × RemoteBindings) :=
  match checkComponent name with
  | .error error => .error (.invalidName name error)
  | .ok () =>
    match r.get? name with
    | none => .ok (true, ⟨r.bindings.insert name identity⟩)
    | some bound => if bound = identity then .ok (false, r) else .error (.taken name bound)

/-- Takes a binding back and says for which identity the name stood. -/
def takeBack (r : RemoteBindings) (name : String) : Option PeerId × RemoteBindings :=
  (r.get? name, ⟨r.bindings.erase name⟩)

/-- The bindings when a name is no longer bound. -/
def unbind (r : RemoteBindings) (name : String) : RemoteBindings := (r.takeBack name).2

end RemoteBindings

/-- Where the branches of a remote are seen. -/
def remotesDirectory (name : String) : String := "refs/remotes/" ++ name ++ "/"

/-- The branches of a namespace as a remote. -/
def remoteRefs (name : String) (n : Namespace) : SortedMap String ObjectId :=
  .ofList (n.manifest.heads.map fun (branch, target) =>
    (remotesDirectory name ++ branch.text, target))

/-- The mapping from the branches of an identity to those of a remote. -/
def fetchRefspec (name : String) (identity : PeerId) : String :=
  "+" ++ identity.hex ++ "/" ++ RefName.headsDirectory ++ "*:" ++ remotesDirectory name ++ "*"

end SignedRefs
