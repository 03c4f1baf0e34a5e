import SignedRefs.Network.Link
import SignedRefs.Sync.Announce

/-!
# Announcing over a Network

A node pushes its own namespace to all its seeds at the same time. What happens at one seed does not
depend on the others, so the pushes are worked out one after another, each from the same moment on;
the announcement is over when the last one is. If a seed is listed twice, the later push comes to a
store that has answered the earlier one.
-/

namespace SignedRefs

namespace Network

/-- One attempt to push a manifest to a seed: a connection and a request under one timeout. -/
def attemptPush (seed : Address) (request : Request) (timeout : Nat) (n : Network) :
    Except AttemptFault UInt64 × Network :=
  match n.route? seed with
  | none => (.error (.failed (.connection seed .unreachable)), n)
  | some (_, toConnect) =>
    if timeout < toConnect then (.error .timedOut, n.advance (n.now + timeout))
    else
      let connected := n.advance (n.now + toConnect)
      match connected.route? seed with
      | none => (.error (.failed (.delivery (.wentAway seed))), connected)
      | some (endpoint, toPush) =>
        if timeout < toConnect + toPush then (.error .timedOut, connected.advance (n.now + timeout))
        else
          let (response, n) := (connected.advance (connected.now + toPush)).serve endpoint request
          ((Reply.accepted (.ok response)).mapError .failed, n)

/-- The network with the time and the links of an earlier moment. -/
def rewind (n moment : Network) : Network :=
  { n with now := moment.now, links := moment.links, scheduled := moment.scheduled }

/-- What is known of an announcement while its seeds are gone through. -/
structure Announcing where
  /-- The network, at the moment at which the announcement began. -/
  network : Network
  /-- When the last push so far is over. -/
  latest : Nat
  /-- What became of the seeds so far. -/
  outcomes : SortedMap Address AnnounceOutcome

/-- Pushes to another seed. -/
def announceTo (config : AnnounceConfig) (request : Request) (a : Announcing) (seed : Address) :
    Announcing :=
  let attempt := attemptPush seed request config.attemptTimeout.toNat
  let (outcome, after) := Push.run attempt pause config a.network
  ⟨after.rewind a.network, max a.latest after.now, a.outcomes.insert seed outcome⟩

/-- Announces the own namespace of a node. -/
def announce (n : Network) (node : Node) (repo : RepoId) :
    Except SyncError AnnounceReport × Network :=
  match node.store.get repo node.id with
  | .error error => (.error (.store error), n)
  | .ok own =>
    match own.signed.encode with
    | .error error => (.error (.record error), n)
    | .ok encoded =>
      let config := node.config.announce
      let done := config.seeds.foldl (announceTo config (.push repo node.id encoded))
        ⟨n, n.now, .empty⟩
      (.ok ⟨own.sequence, done.outcomes⟩, done.network.advance done.latest)

end Network

end SignedRefs
