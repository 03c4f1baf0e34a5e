import SignedRefs.Network.Link
import SignedRefs.Sync.Fetch

/-!
# Fetching over a Network

A node fetches from several peers at once, a limited number of them at a time. `Batch.step` takes
the event that comes next, lets time go on until then, and hands what it brings to its fetch; the
calls that the fetch makes in turn become events. Each event stands for one call of one fetch, and a
fetch makes no more calls than `Fetch.maxCalls`, so a batch ends.
-/

namespace SignedRefs

/-- How a call comes to its end. -/
inductive Route
  /-- It takes too long. -/
  | lost
  /-- The peer cannot be reached. -/
  | unreachable
  /-- The peer answers. -/
  | reached (endpoint : Endpoint)

/-- The end of a call. -/
structure Event where
  /-- When it comes. -/
  time : Nat
  /-- The fetch that made the call, by its position. -/
  fetch : Nat
  /-- The call. -/
  call : Call
  /-- How it ends. -/
  route : Route

namespace Event

/-- The earliest event, of equally early ones the first, and the others. -/
def earliest? : List Event → Option (Event × List Event)
  | [] => none
  | first :: rest =>
    match earliest? rest with
    | none => some (first, [])
    | some (event, others) =>
      if event.time < first.time then some (event, first :: others) else some (first, rest)

end Event

namespace Network

/-- The end of a call that is made now. -/
def dispatch (n : Network) (index : Nat) (f : Fetch) (call : Call) : Event :=
  match n.route? f.peer with
  | none => ⟨n.now, index, call, .unreachable⟩
  | some (endpoint, latency) =>
    if f.patience call < latency then ⟨n.now + f.patience call, index, call, .lost⟩
    else ⟨n.now + latency, index, call, .reached endpoint⟩

/-- The request of a call; a connection needs none. -/
def requestOf? (f : Fetch) : Call → Option Request
  | .connect => none
  | .list => some (.namespaces f.repo)
  | .request identity => some (.manifest f.repo identity)

/-- The error for a call to a peer that cannot be reached. -/
def unreachable (f : Fetch) : Call → SyncError
  | .connect => .connection f.peer .unreachable
  | _ => .delivery (.wentAway f.peer)

/-- What an event brings. -/
def arrival (n : Network) (f : Fetch) (event : Event) : Arrival × Network :=
  match event.route with
  | .lost => (.timedOut, n)
  | .unreachable => (.failed (unreachable f event.call), n)
  | .reached endpoint =>
    match requestOf? f event.call with
    | none => (.connected, n)
    | some request =>
      let (response, n) := n.serve endpoint request
      (.response response, n)

end Network

/-- Fetches of one node that run together. -/
structure Batch where
  /-- The network. -/
  network : Network
  /-- The fetches that have started, in order, and how far they have come. -/
  started : List (Fetch × FetchState)
  /-- The fetches that have not started. -/
  waiting : List Fetch
  /-- The calls under way. -/
  events : List Event

namespace Batch

/-- Starts the next fetch. -/
def startNext (b : Batch) : Batch :=
  match b.waiting with
  | [] => b
  | f :: waiting =>
    let (state, calls) := Fetch.start
    { b with
      started := b.started ++ [(f, state)]
      waiting := waiting
      events := b.events ++ calls.map (b.network.dispatch b.started.length f) }

/-- Starts a number of fetches. -/
def startMany : (count : Nat) → Batch → Batch
  | 0, b => b
  | count + 1, b => startMany count b.startNext

/-- Whether a fetch is over. -/
def isFinished : FetchState → Bool
  | .finished _ => true
  | _ => false

/-- Takes an event of a fetch, the network having reached its time. -/
def deliver (b : Batch) (name : String) (event : Event) : Batch :=
  match b.started[event.fetch]? with
  | none => b
  | some (f, state) =>
    let (arrival, network) := b.network.arrival f event
    match network.nodes.get? name with
    | none => { b with network := network }
    | some node =>
      let ((state, calls), store) := f.resume network.clock state node.store event.call arrival
      let network := network.putNode name { node with store := store }
      let b : Batch :=
        { b with
          network := network
          started := b.started.set event.fetch (f, state)
          events := b.events ++ calls.map (network.dispatch event.fetch f) }
      if isFinished state then b.startNext else b

/-- Takes the next event. -/
def step (b : Batch) (name : String) : Option Batch :=
  match Event.earliest? b.events with
  | none => none
  | some (event, events) =>
    some ({ b with network := b.network.advance event.time, events := events }.deliver name event)

/-- Takes events until there are no more. -/
def run (name : String) : (fuel : Nat) → Batch → Batch
  | 0, b => b
  | fuel + 1, b =>
    match b.step name with
    | none => b
    | some b => run name fuel b

/-- What became of a fetch. -/
def report? (f : Fetch) : FetchState → Option (Address × Except SyncError FetchReport)
  | .finished result => some (f.peer, result.map (⟨f.peer, ·⟩))
  | _ => none

end Batch

/-- The most calls that a fetch makes: a connection, a list, and a request for each candidate. -/
def Fetch.maxCalls (f : Fetch) : Nat := 2 + f.registry.tracked.length + Limit.identities

namespace Network

/-- Fetches from several peers, and reports in their order. -/
def fetchAll (n : Network) (name : String) (node : Node) (repo : RepoId) (peers : List Address)
    (scope : Scope) : List (Address × Except SyncError FetchReport) × Network :=
  let fetches : List Fetch := peers.map fun peer =>
    ⟨node.id, node.registry, node.config.sync, repo, peer, scope⟩
  let batch : Batch := ⟨n, [], fetches, []⟩
  let batch := batch.startMany (min (max 1 node.config.sync.maxFetches.toNat) fetches.length)
  let fuel := fetches.foldr (fun fetch calls => fetch.maxCalls + calls) 0
  let batch := batch.run name fuel
  (batch.started.filterMap fun (f, state) => Batch.report? f state, batch.network)

end Network

end SignedRefs
