import SignedRefs.Sync.Config
import SignedRefs.Sync.Outcome
import SignedRefs.Tracking.Registry

/-!
# Fetching

A fetch pulls the namespaces of one repository from one peer. It connects, asks which identities the
peer has if the scope is `all`, and then requests each candidate's manifest, a limited number at a
time. Which identities are candidates depends only on the tracking decisions, the scope and the
peer's list.

The fetch is a state machine, so that nothing is assumed about the peer or about the order of its
answers: `Fetch.start` gives the first call, and `Fetch.resume` takes the answer to any call that is
under way.
-/

namespace SignedRefs

/-! ### Candidates -/

/-- The identities to fetch, given those that the peer lists. The local one is never among them. -/
def Registry.candidates (r : Registry) (scope : Scope) (self : PeerId) (listed : List PeerId) :
    SortedSet PeerId :=
  match scope with
  | .none => .empty
  | .trusted => (SortedSet.ofList r.tracked).erase self
  | .all => (SortedSet.ofList (r.tracked ++ listed.filter r.admits)).erase self

/-! ### The state machine -/

/-- What a fetch is about. -/
structure Fetch where
  /-- The local identity. -/
  self : PeerId
  /-- The tracking decisions when the fetch starts. -/
  registry : Registry
  /-- How to fetch. -/
  config : SyncConfig
  /-- The repository. -/
  repo : RepoId
  /-- The peer. -/
  peer : Address
  /-- How widely to fetch. -/
  scope : Scope

/-- What a fetch asks of the network. -/
inductive Call
  /-- A connection. -/
  | connect
  /-- The identities that the peer has. -/
  | list
  /-- The manifest of an identity. -/
  | request (identity : PeerId)
deriving DecidableEq

/-- What the network brings for a call. -/
inductive Arrival
  /-- Nothing in time. -/
  | timedOut
  /-- The network reports an error. -/
  | failed (error : SyncError)
  /-- There is a connection. -/
  | connected
  /-- The peer's response. -/
  | response (response : Response)

/-- How a fetch ends. -/
abbrev FetchResult := Except SyncError (SortedMap PeerId Outcome)

/-- How far a fetch has come. -/
inductive FetchState
  /-- The connection is being made. -/
  | connecting
  /-- The identities are being listed. -/
  | listing
  /-- Manifests are being requested. -/
  | requesting (waiting running : List PeerId) (outcomes : SortedMap PeerId Outcome)
  /-- It is over. -/
  | finished (result : FetchResult)

/-- A state with the calls that are made on entering it. -/
abbrev FetchStep := FetchState × List Call

namespace Fetch

/-- How many requests run at a time. -/
def width (f : Fetch) : Nat := max 1 f.config.maxRequests.toNat

/-- How long to wait for an answer to a call. -/
def patience (f : Fetch) : Call → Nat
  | .connect => f.config.connectTimeout.toNat
  | _ => f.config.requestTimeout.toNat

/-- The first call. -/
def start : FetchStep := (.connecting, [.connect])

/-- Starts as many requests as may run. Without any the fetch is over. -/
def request (candidates : List PeerId) (f : Fetch) : FetchStep :=
  if candidates.isEmpty then (.finished (.ok .empty), [])
  else
    let running := candidates.take f.width
    (.requesting (candidates.drop f.width) running .empty, running.map .request)

/-- What a connection leads to. -/
def afterConnect (f : Fetch) : Arrival → FetchStep
  | .timedOut => (.finished (.error (.connection f.peer .timedOut)), [])
  | .failed error => (.finished (.error error), [])
  | _ =>
    match f.scope with
    | .all => (.listing, [.list])
    | scope => f.request (f.registry.candidates scope f.self []).toList

/-- The reply that a request finds. That there is a connection is none. -/
def replyOf (f : Fetch) : Arrival → Answer
  | .timedOut => .timedOut
  | .failed error => .replied (.error error)
  | .connected => .replied (.error (.delivery (.wentAway f.peer)))
  | .response response => .replied (.ok response)

/-- The identities that the peer lists. -/
def listed (f : Fetch) (arrival : Arrival) : Except SyncError (List PeerId) :=
  match f.replyOf arrival with
  | .timedOut => .error (.listingTimeout f.peer)
  | .replied reply => reply.identities

/-- What the list of identities leads to. -/
def afterList (f : Fetch) (arrival : Arrival) : FetchStep :=
  match f.listed arrival with
  | .error error => (.finished (.error error), [])
  | .ok listed => f.request (f.registry.candidates .all f.self listed).toList

/-- What the outcome of a request leads to: the next one starts, or the fetch is over. -/
def afterRequest (waiting running : List PeerId) (outcomes : SortedMap PeerId Outcome) :
    FetchStep :=
  match waiting with
  | next :: waiting => (.requesting waiting (running ++ [next]) outcomes, [.request next])
  | [] =>
    if running.isEmpty then (.finished (.ok outcomes), [])
    else (.requesting [] running outcomes, [])

/-- Takes what the network brings for a call. Calls that are not under way change nothing. -/
def resume (f : Fetch) (now : Int64) (state : FetchState) (store : Store) (call : Call)
    (arrival : Arrival) : FetchStep × Store :=
  match state, call with
  | .connecting, .connect => (f.afterConnect arrival, store)
  | .listing, .list => (f.afterList arrival, store)
  | .requesting waiting running outcomes, .request identity =>
    if running.contains identity then
      let (outcome, store) := (f.replyOf arrival).apply store now f.repo identity
      (afterRequest waiting (running.erase identity) (outcomes.insert identity outcome), store)
    else ((state, []), store)
  | _, _ => ((state, []), store)

end Fetch

/-! ### Reports -/

/-- What a fetch did. -/
structure FetchReport where
  /-- The peer. -/
  peer : Address
  /-- What became of each candidate. -/
  outcomes : SortedMap PeerId Outcome

namespace FetchReport

/-- Every ref that changed, with its owner. -/
def updates (r : FetchReport) : List (PeerId × RefUpdate) :=
  r.outcomes.entries.flatMap fun (id, outcome) => outcome.updates.map (id, ·)

/-- How many outcomes are of some kind. -/
def count (r : FetchReport) (kind : Outcome → Bool) : Nat := r.outcomes.values.countP kind

end FetchReport

end SignedRefs
