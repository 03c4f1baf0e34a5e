import SignedRefs.Node.Config
import SignedRefs.Node.Error
import SignedRefs.Patch.Inspect
import SignedRefs.Store
import SignedRefs.Tracking.Registry

/-!
# Nodes

A node is one identity with everything it needs: its keys, a store, tracking decisions, remotes, the
delegates it believes, and settings. It authors its own namespace: every write signs a manifest with
the next number and stores it like any other. Patches are authored by adding a signed change to the
object graph and pointing the patch's ref in the node's own namespace at it.
-/

namespace SignedRefs

/-- A peer with all it needs. -/
structure Node where
  /-- The keys. -/
  keys : Keypair
  /-- The identity. -/
  id : PeerId
  /-- The identity is that of the keys. -/
  id_eq : id = keys.peerId
  /-- The namespaces. -/
  store : Store
  /-- The tracking decisions. -/
  registry : Registry
  /-- The names for other namespaces. -/
  remotes : RemoteBindings
  /-- The identities that decide about patches beside their authors. -/
  delegates : SortedSet PeerId
  /-- The settings. -/
  config : NodeConfig

namespace Node

/-- A node that starts with these decisions. -/
def new (keys : Keypair) (store : Store) (registry : Registry) (config : NodeConfig) : Node where
  keys := keys
  id := keys.peerId
  id_eq := rfl
  store := store
  registry := registry
  remotes := .empty
  delegates := .ofList config.delegates
  config := config

/-! ### The own namespace -/

/-- The node's own namespace in a repository. -/
def namespace? (node : Node) (repo : RepoId) : Except NodeError (Option Namespace) :=
  (node.store.load repo node.id).mapError .store

/-- The manifest that follows on the stored one, with its refs edited. Numbers have 64 bits; after
the last one they start again, and the store refuses that. -/
def nextManifest (node : Node) (repo : RepoId) (current : Option Namespace)
    (edit : SortedMap RefName ObjectId → SortedMap RefName ObjectId) : Manifest :=
  match current with
  | some current => ⟨repo, node.id, current.sequence + 1, edit current.manifest.refs⟩
  | none => ⟨repo, node.id, 1, edit .empty⟩

/-- Edits the refs of the own namespace, and signs and stores the result. -/
def writeRefs (node : Node) (now : Int64) (repo : RepoId)
    (edit : SortedMap RefName ObjectId → SortedMap RefName ObjectId) :
    Except NodeError (Namespace × Node) := do
  let current ← node.namespace? repo
  let signed ← ((node.nextManifest repo current edit).sign node.keys).mapError .record
  let (written, store) ← (node.store.put now repo signed).mapError .store
  return (written, { node with store := store })

/-- Points a ref at an object. -/
def setRef (node : Node) (now : Int64) (repo : RepoId) (name : RefName) (target : ObjectId) :
    Except NodeError (Namespace × Node) :=
  node.writeRefs now repo fun refs => refs.insert name target

/-- Starts the namespace with the identity document. -/
def initNamespace (node : Node) (now : Int64) (repo : RepoId) (document : ObjectId) :
    Except NodeError (Namespace × Node) :=
  node.setRef now repo .identityDocument document

/-- Points a branch at an object. -/
def setHead (node : Node) (now : Int64) (repo : RepoId) (branch : String) (target : ObjectId) :
    Except NodeError (Namespace × Node) := do
  let branch ← (BranchName.ofText branch).mapError fun error => NodeError.record (.refName error)
  node.setRef now repo (.head branch) target

/-- Removes a ref. -/
def removeRef (node : Node) (now : Int64) (repo : RepoId) (name : RefName) :
    Except NodeError (Namespace × Node) :=
  node.writeRefs now repo fun refs => refs.erase name

/-! ### Reading patches -/

/-- All namespaces of a repository. -/
def snapshot (node : Node) (repo : RepoId) : Except NodeError Snapshot :=
  (node.store.snapshot repo).mapError .store

/-- The patch as the stored namespaces show it. -/
def patch? (node : Node) (graph : ObjectGraph) (repo : RepoId) (id : ObjectId) :
    Except NodeError (Option Patch) := do
  let snapshot ← node.snapshot repo
  (Patch.inspect graph node.delegates snapshot id).mapError .patch

/-- All patches that the stored namespaces show. -/
def patches (node : Node) (graph : ObjectGraph) (repo : RepoId) : Except NodeError (List Patch) :=
  return Patch.list graph node.delegates (← node.snapshot repo)

/-! ### Authoring patches -/

/-- The result of authoring a change, with the graph afterwards: a change stays in the graph even if
the ref to it could not be written. -/
structure Authored where
  /-- The name of the change and the node afterwards. -/
  result : Except NodeError (ObjectId × Node)
  /-- The graph afterwards. -/
  graph : MemoryGraph

/-- Signs a change, adds it to the graph, and points the ref of its patch at it; a change that opens
a patch names it. -/
def publish (node : Node) (graph : MemoryGraph) (now : Int64) (repo : RepoId)
    (patch : Option ObjectId) (change : Change) : Authored :=
  match change.sign node.keys with
  | .error error => ⟨.error (.record error), graph⟩
  | .ok signed =>
    match graph.addChange signed with
    | .error error => ⟨.error (.patch (.malformedChange error)), graph⟩
    | .ok (id, graph) =>
      ⟨(node.setRef now repo (.patch (patch.getD id)) id).map fun written => (id, written.2),
        graph⟩

/-- Opens a patch. -/
def propose (node : Node) (graph : MemoryGraph) (now : Int64) (repo : RepoId)
    (target title : String) (base head : ObjectId) : Authored :=
  match BranchName.ofText target with
  | .error error => ⟨.error (.record (.refName error)), graph⟩
  | .ok target =>
    node.publish graph now repo none ⟨none, node.id, now, .openPatch target title base head⟩

/-- Adds a change on top of a patch. -/
def continuePatch (node : Node) (graph : MemoryGraph) (now : Int64) (repo : RepoId)
    (id : ObjectId) (action : Action) : Authored :=
  match node.patch? graph.toObjectGraph repo id with
  | .error error => ⟨.error error, graph⟩
  | .ok none => ⟨.error (.patchNotFound id), graph⟩
  | .ok (some patch) =>
    node.publish graph now repo (some id) ⟨some patch.tip, node.id, now, action⟩

/-- Proposes another head for a patch. -/
def revise (node : Node) (graph : MemoryGraph) (now : Int64) (repo : RepoId) (id : ObjectId)
    (base head : ObjectId) : Authored :=
  node.continuePatch graph now repo id (.revise base head)

/-- Closes a patch, which counts if the node is the author or a delegate. -/
def close (node : Node) (graph : MemoryGraph) (now : Int64) (repo : RepoId) (id : ObjectId)
    (reason : String) : Authored :=
  node.continuePatch graph now repo id (.close reason)

/-! ### Delegates, tracking and remotes -/

/-- Believes another identity, and says whether that is new. -/
def addDelegate (node : Node) (id : PeerId) : Bool × Node :=
  (!node.delegates.contains id, { node with delegates := node.delegates.insert id })

/-- Believes an identity no longer, and says whether it did before. -/
def removeDelegate (node : Node) (id : PeerId) : Bool × Node :=
  (node.delegates.contains id, { node with delegates := node.delegates.erase id })

/-- Tracks the identity that a text names. -/
def track (node : Node) (identity : String) (name : Option String) (scope : Scope) :
    Except NodeError (PeerId × Node) := do
  let (id, registry) ← (node.registry.trackText identity name scope).mapError .tracking
  return (id, { node with registry := registry })

/-- The identity with an alias. -/
def resolve (node : Node) (text : String) : Except NodeError PeerId :=
  (node.registry.resolve text).mapError .tracking

/-- Binds a remote and says whether it is new. -/
def bind (node : Node) (name : String) (identity : PeerId) : Except NodeError (Bool × Node) := do
  let (isNew, remotes) ← (node.remotes.bind name identity).mapError .remote
  return (isNew, { node with remotes := remotes })

/-- The identity that a remote stands for. -/
def remote (node : Node) (name : String) : Except NodeError PeerId :=
  match node.remotes.get? name with
  | some identity => .ok identity
  | none => .error (.unknownRemote name)

/-- The branches of a remote. -/
def remoteRefs (node : Node) (repo : RepoId) (name : String) :
    Except NodeError (SortedMap String ObjectId) := do
  let identity ← node.remote name
  let found ← (node.store.get repo identity).mapError .store
  return SignedRefs.remoteRefs name found

/-- The mapping from the branches of a remote's identity to those of the remote. -/
def fetchRefspec (node : Node) (name : String) : Except NodeError String :=
  return SignedRefs.fetchRefspec name (← node.remote name)

end Node

end SignedRefs
