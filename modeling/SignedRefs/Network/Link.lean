import SignedRefs.Node
import SignedRefs.Sync.Exchange

/-!
# A Network in Memory

Nodes, bare stores and scripted peers that reach each other under addresses. Time is virtual and
runs in milliseconds: an exchange takes as long as the link to the address says at its start, and
link changes can be scheduled. Nothing else takes time, and no wait is longer than `longestWait`;
timeouts can be. The clock that stamps namespaces and changes is another one, and stands still
unless it is set.
-/

namespace SignedRefs

/-! ### Waits -/

/-- The longest wait: thirty years. -/
def longestWait : Nat := 30 * 365 * 24 * 60 * 60 * 1000

/-- How long a wait lasts that is meant to take some time. -/
def waitFor (duration : Nat) : Nat := min duration longestWait

/-! ### Scripted peers -/

/-- The kinds of requests. -/
inductive RequestKind
  /-- For identities. -/
  | namespaces
  /-- For a manifest. -/
  | manifest
  /-- To take a manifest over. -/
  | push
deriving DecidableEq

/-- The kind of a request. -/
def Request.kind : Request → RequestKind
  | .namespaces _ => .namespaces
  | .manifest _ _ => .manifest
  | .push _ _ _ => .push

/-- The identity that a request is about. -/
def Request.identity? : Request → Option PeerId
  | .namespaces _ => none
  | .manifest _ identity => some identity
  | .push _ identity _ => some identity

/-- A fixed answer to some requests. -/
structure Rule where
  /-- The kind of the requests. -/
  kind : RequestKind
  /-- The identity that they are about, if it matters. -/
  identity : Option PeerId
  /-- The answer. -/
  reply : Response

/-- Whether a rule is for a request. -/
def Rule.applies (rule : Rule) (request : Request) : Bool :=
  rule.kind == request.kind && (rule.identity.isNone || rule.identity == request.identity?)

/-- The answer of the first rule for a request. -/
def Rule.respond (rules : List Rule) (request : Request) : Response :=
  match rules.find? fun rule => rule.applies request with
  | some rule => rule.reply
  | none => .failure .notFound "no rule"

/-! ### Links -/

/-- Who answers at an address. -/
inductive Endpoint
  /-- The store of a node. -/
  | node (name : String)
  /-- A bare store. -/
  | store (name : String)
  /-- A scripted peer. -/
  | script (rules : List Rule)

/-- The way to an address. -/
structure Link where
  /-- Who answers there. -/
  endpoint : Endpoint
  /-- How long an exchange takes. -/
  latency : Nat
  /-- Whether the address can be reached. -/
  isReachable : Bool

/-- A change of a link; what is not given stays. -/
structure LinkChange where
  /-- How long an exchange takes from now on. -/
  latency : Option Nat
  /-- Whether the address can be reached from now on. -/
  isReachable : Option Bool

/-- Makes the change. -/
def LinkChange.apply (change : LinkChange) (link : Link) : Link where
  endpoint := link.endpoint
  latency := change.latency.getD link.latency
  isReachable := change.isReachable.getD link.isReachable

/-- A change of a link that is still to come. -/
structure ScheduledChange where
  /-- When it comes. -/
  time : Nat
  /-- The address. -/
  address : Address
  /-- The change. -/
  change : LinkChange

/-! ### Networks -/

/-- Everything there is. -/
structure Network where
  /-- The clock that stamps namespaces and changes. -/
  clock : Int64
  /-- The virtual time. -/
  now : Nat
  /-- The graph that all nodes share. -/
  graph : MemoryGraph
  /-- The nodes by name. -/
  nodes : SortedMap String Node
  /-- The bare stores by name. -/
  stores : SortedMap String Store
  /-- The links by address. -/
  links : SortedMap Address Link
  /-- The changes that are still to come, the earliest first. -/
  scheduled : List ScheduledChange

/-- A time of the clock, which never runs before 1970. -/
def wallClock (milliseconds : Int) : Int64 := Int64.ofInt (max 0 milliseconds)

namespace Network

/-- The network without anybody. -/
def start : Network where
  clock := wallClock 1700000000000
  now := 0
  graph := .empty
  nodes := .empty
  stores := .empty
  links := .empty
  scheduled := []

/-- Changes the link to an address, if there is one. -/
def changeLink (links : SortedMap Address Link) (address : Address) (change : LinkChange) :
    SortedMap Address Link :=
  match links.get? address with
  | some link => links.insert address (change.apply link)
  | none => links

/-- Lets an endpoint answer at an address, at once and reachably. -/
def register (n : Network) (address : Address) (endpoint : Endpoint) : Network :=
  { n with links := n.links.insert address ⟨endpoint, 0, true⟩ }

/-- Puts a node in the place of the one with this name. -/
def putNode (n : Network) (name : String) (node : Node) : Network :=
  { n with nodes := n.nodes.insert name node }

/-- Adds a node and lets it answer under its name. -/
def addNode (n : Network) (name : String) (node : Node) : Network :=
  (n.putNode name node).register name (.node name)

/-- Puts a bare store in the place of the one with this name. -/
def putStore (n : Network) (name : String) (store : Store) : Network :=
  { n with stores := n.stores.insert name store }

/-- Adds a bare store and lets it answer under its name. -/
def addStore (n : Network) (name : String) (store : Store) : Network :=
  (n.putStore name store).register name (.store name)

/-- Changes a link now. -/
def setLink (n : Network) (address : Address) (change : LinkChange) : Network :=
  { n with links := changeLink n.links address change }

/-- Puts a change in its place among those that are still to come. -/
def insertScheduled (new : ScheduledChange) : List ScheduledChange → List ScheduledChange
  | [] => [new]
  | first :: rest =>
    if new.time < first.time then new :: first :: rest else first :: insertScheduled new rest

/-- Makes the changes that come until some time, and keeps the others. -/
def applyUntil (time : Nat) (links : SortedMap Address Link) :
    List ScheduledChange → SortedMap Address Link × List ScheduledChange
  | [] => (links, [])
  | first :: rest =>
    if first.time ≤ time then applyUntil time (changeLink links first.address first.change) rest
    else (links, first :: rest)

/-- Lets time go on until some time, which may already have come. -/
def advance (n : Network) (time : Nat) : Network :=
  let (links, scheduled) := applyUntil time n.links n.scheduled
  { n with now := max n.now time, links := links, scheduled := scheduled }

/-- Lets some time pass. -/
def pause (delay : Nat) (n : Network) : Network := n.advance (n.now + waitFor delay)

/-- Changes a link after some time; without a delay it is changed at once. -/
def schedule (n : Network) (delay : Nat) (address : Address) (change : LinkChange) : Network :=
  let new : ScheduledChange := ⟨n.now + waitFor delay, address, change⟩
  { n with scheduled := insertScheduled new n.scheduled }.advance n.now

/-- Who answers at an address and how long an exchange takes, if it can be reached. -/
def route? (n : Network) (address : Address) : Option (Endpoint × Nat) :=
  match n.links.get? address with
  | some link => if link.isReachable then some (link.endpoint, waitFor link.latency) else none
  | none => none

/-- The answer of an endpoint. -/
def serve (n : Network) (endpoint : Endpoint) (request : Request) : Response × Network :=
  match endpoint with
  | .script rules => (Rule.respond rules request, n)
  | .store name =>
    match n.stores.get? name with
    | some store =>
      let (response, store) := store.respond n.clock request
      (response, n.putStore name store)
    | none => (.failure .internal "", n)
  | .node name =>
    match n.nodes.get? name with
    | some node =>
      let (response, store) := node.store.respond n.clock request
      (response, n.putNode name { node with store := store })
    | none => (.failure .internal "", n)

end Network

end SignedRefs
