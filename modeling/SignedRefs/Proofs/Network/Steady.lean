import SignedRefs.Proofs.Network.Batches
import SignedRefs.Proofs.Sync.Tally

/-!
# Fetching from Stores

A node fetches from several peers, each of which is served by a store that answers as it should. The
invariant of the batch (`Batch.Steady`) combines three others: the network differs from the one in
the beginning in the store of the node only (`Network.Holds`), each fetch stands where a fetch from
a store can stand (`Fetch.Standing`), and the outcomes of all of them keep a tally of the store
(`Store.Tally`). Nothing in it depends on the order in which events are taken.

A peer may be the node itself. Such a fetch applies nothing, so the tally has no offers from there.

## Main results

* `Network.arrival_of_storeAt?`: what an event brings is what a store answers.
* `Batch.Steady.next`: one more event keeps the invariant.
* `Network.Fetches.exists_settled`: what is known when all fetches are over.
-/

namespace SignedRefs

/-! ### Who serves an address -/

namespace Network

/-- The store that answers at an endpoint. -/
def storeAt? (n : Network) : Endpoint → Option Store
  | .node name => (n.nodes.get? name).map Node.store
  | .store name => n.stores.get? name
  | .script _ => none

/-- The endpoint behind an address. -/
def endpoint? (n : Network) (address : Address) : Option Endpoint :=
  (n.links.get? address).map Link.endpoint

/-- The store that serves an address. -/
def storeOf? (n : Network) (address : Address) : Option Store :=
  (n.endpoint? address).bind n.storeAt?

variable {n n' : Network} {name : String} {node : Node} {store : Store} {endpoint : Endpoint}
  {f : Fetch} {event : Event}

/-- Where the node is behind an address, its store serves it. -/
theorem store_eq_of_self {address : Address} (hnode : n.nodes.get? name = some node)
    (hself : n.endpoint? address = some (.node name)) (h : n.storeOf? address = some store) :
    store = node.store := by
  rw [storeOf?, hself] at h
  have hstore : (n.nodes.get? name).map Node.store = some store := h
  rw [hnode] at hstore
  exact (Option.some.inj hstore).symm

/-- A store that is asked for identities or a manifest answers, and the network stays the same. -/
theorem serve_of_storeAt? (h : n.storeAt? endpoint = some store) (request : Request)
    (hsame : (store.respond n.clock request).2 = store) :
    n.serve endpoint request = ((store.respond n.clock request).1, n) := by
  cases endpoint with
  | script rules => cases h
  | store other =>
      have hstore : n.stores.get? other = some store := h
      simp only [serve, hstore, hsame, putStore, SortedMap.insert_of_get? hstore]
  | node other =>
      obtain ⟨node, hnode, rfl⟩ := Option.map_eq_some_iff.mp h
      simp only [serve, hnode, hsame, putNode, SortedMap.insert_of_get? hnode]

/-- What an event brings is what the store of the peer answers, and the network stays the same. -/
theorem arrival_of_storeAt? (hroute : event.route = .reached endpoint)
    (h : n.storeAt? endpoint = some store) :
    n.arrival f event = (f.answer store n.clock event.call, n) := by
  rw [arrival, hroute]
  cases hcall : event.call with
  | connect => rfl
  | list =>
      simp only [requestOf?, serve_of_storeAt? h (.namespaces f.repo) rfl]
      rfl
  | request id =>
      simp only [requestOf?, serve_of_storeAt? h (.manifest f.repo id) rfl]
      rfl

/-- The way to an address leads to the endpoint behind it. -/
theorem endpoint?_of_route? {address : Address} {latency : Nat}
    (h : n.route? address = some (endpoint, latency)) : n.endpoint? address = some endpoint := by
  rw [route?] at h
  split at h
  · next link hlink =>
      split at h
      · cases h
        rw [endpoint?, hlink, Option.map_some]
      · cases h
  · cases h

/-- A call that is answered reaches the endpoint behind the address. -/
theorem endpoint?_of_dispatch {i : Nat} {call : Call}
    (h : (n.dispatch i f call).route = .reached endpoint) :
    n.endpoint? f.peer = some endpoint := by
  unfold dispatch at h
  split at h
  · cases h
  · next endpoint' latency hroute =>
      split at h
      · cases h
      · cases h
        exact endpoint?_of_route? hroute

/-! ### Changes while fetches are made -/

/-- Links change, but not who is behind them. -/
theorem endpoint_changeLink (links : SortedMap Address Link) (address other : Address)
    (change : LinkChange) :
    ((changeLink links address change).get? other).map Link.endpoint =
      (links.get? other).map Link.endpoint := by
  unfold changeLink
  split
  · next link hlink =>
      by_cases hother : other = address
      · rw [hother, SortedMap.get?_insert_self, hlink]
        rfl
      · rw [SortedMap.get?_insert_of_ne _ hother]
  · rfl

/-- Scheduled changes of links leave the endpoints behind the addresses alone. -/
theorem endpoint_applyUntil (time : Nat) (links : SortedMap Address Link)
    (scheduled : List ScheduledChange) (address : Address) :
    ((applyUntil time links scheduled).1.get? address).map Link.endpoint =
      (links.get? address).map Link.endpoint := by
  induction scheduled generalizing links with
  | nil => rfl
  | cons first rest ih =>
      rw [applyUntil]
      split
      · exact (ih _).trans (endpoint_changeLink _ _ _ _)
      · rfl

/-- A network has become another one in which a node has some store, and otherwise only links have
changed. -/
structure Holds (n : Network) (name : String) (node : Node) (store : Store) (n' : Network) :
    Prop where
  /-- The node has the store. -/
  node : n'.nodes.get? name = some { node with store := store }
  /-- The other nodes are the same. -/
  others : ∀ other, other ≠ name → n'.nodes.get? other = n.nodes.get? other
  /-- The bare stores are the same. -/
  stores : n'.stores = n.stores
  /-- The same endpoints are behind the addresses. -/
  endpoints : ∀ address, n'.endpoint? address = n.endpoint? address

namespace Holds

/-- At first the node has its own store. -/
theorem refl (h : n.nodes.get? name = some node) : n.Holds name node node.store n :=
  ⟨h, fun _ _ => rfl, rfl, fun _ => rfl⟩

/-- Time goes on. -/
theorem advance (h : n.Holds name node store n') (time : Nat) :
    n.Holds name node store (n'.advance time) :=
  ⟨h.node, h.others, h.stores, fun address =>
    (endpoint_applyUntil time n'.links n'.scheduled address).trans (h.endpoints address)⟩

/-- The node takes another store. -/
theorem putNode (h : n.Holds name node store n') (after : Store) :
    n.Holds name node after (n'.putNode name { node with store := after }) := by
  refine ⟨SortedMap.get?_insert_self _ _ _, fun other hother => ?_, h.stores, h.endpoints⟩
  exact (SortedMap.get?_insert_of_ne _ hother _).trans (h.others other hother)

/-- Behind an address is the store of the node, or the same one as before. -/
theorem storeAt? (h : n.Holds name node store n') (endpoint : Endpoint) :
    (endpoint = .node name ∧ n'.storeAt? endpoint = some store) ∨
      (endpoint ≠ .node name ∧ n'.storeAt? endpoint = n.storeAt? endpoint) := by
  cases endpoint with
  | script rules => exact .inr ⟨by simp, rfl⟩
  | store other => exact .inr ⟨by simp, by rw [Network.storeAt?, h.stores]; rfl⟩
  | node other =>
      by_cases hname : other = name
      · rw [hname]
        exact .inl ⟨rfl, by rw [Network.storeAt?, h.node]; rfl⟩
      · refine .inr ⟨fun heq => hname (Endpoint.node.inj heq), ?_⟩
        rw [Network.storeAt?, h.others other hname]
        rfl

end Holds

end Network

/-! ### The invariant -/

section Batches

variable (n : Network) (name : String) (node : Node) (repo : RepoId) (scope : Scope)
  (peers : List Address) (stores : Address → Store)

/-- A store may be the one that serves an address. The node may be behind it, and its own store
changes. -/
def Network.Serves (address : Address) (store : Store) : Prop :=
  n.endpoint? address = some (.node name) ∨ store = stores address

/-- A manifest of an identity is on offer to the node in one of its fetches: the peer is not the
node itself, and its store sends the manifest. -/
def Network.Offered (i : Nat) (id : PeerId) (m : SignedManifest) : Prop :=
  ∃ peer, peers[i]? = some peer ∧ n.endpoint? peer ≠ some (.node name) ∧
    (stores peer).Sends repo id m

/-- The outcomes of a fetch so far. -/
def Batch.outcomes (b : Batch) (i : Nat) : SortedMap PeerId Outcome :=
  match b.started[i]? with
  | some (_, state) => state.outcomes
  | none => .empty

/-- What can be said of the fetches of a node on the way, when its store has become another one. -/
structure Batch.Steady (b : Batch) (store : Store) : Prop where
  /-- The network differs in the store of the node only. -/
  network : n.Holds name node store b.network
  /-- The fetches are those from the peers, in order. -/
  fetches : b.started.map Prod.fst ++ b.waiting = peers.map (node.fetchFrom repo scope)
  /-- The answers come from the peers. -/
  routes : ∀ event ∈ b.events, ∃ f state, b.started[event.fetch]? = some (f, state) ∧
    ∀ endpoint, event.route = .reached endpoint → n.endpoint? f.peer = some endpoint
  /-- Each fetch stands where a fetch from a store can stand. -/
  standing : ∀ (i : Nat) (f : Fetch) (state : FetchState), b.started[i]? = some (f, state) →
    f.Standing (n.Serves name stores f.peer) state
  /-- The outcomes keep a tally of the store of the node. -/
  tally : node.store.Tally repo (n.Offered name repo peers stores) b.outcomes store

/-- The outcomes in one of several reports. -/
def outcomesIn (done : List FetchReport) (i : Nat) : SortedMap PeerId Outcome :=
  match done[i]? with
  | some report => report.outcomes
  | none => .empty

/-- All fetches are over, with some reports, and the node has a store. -/
structure Network.Settled (done : List FetchReport) (store : Store) (after : Network) : Prop where
  /-- Nothing has changed in the network but the store of the node, and links. -/
  network : n.Holds name node store after
  /-- The outcomes are a tally of the store. -/
  tally : node.store.Tally repo (n.Offered name repo peers stores) (outcomesIn done) store
  /-- There is an outcome for everyone that a fetch asked for. -/
  asked : ∀ i peer, peers[i]? = some peer → ∃ server ids, n.Serves name stores peer server ∧
    (node.fetchFrom repo scope peer).Asks server ids ∧
      ∀ id, (outcomesIn done i).contains id = true ↔ id ∈ ids

variable {n name node repo scope peers stores} {b b' : Batch} {store : Store}

namespace Batch

/-- When one fetch goes on, its outcomes are the new ones, and the others keep theirs. -/
theorem outcomes_set {i : Nat} {f f' : Fetch} {state state' : FetchState}
    (h : b.started[i]? = some (f, state)) (network : Network) (events : List Event) :
    ({ b with network := network, started := b.started.set i (f', state'), events := events } :
      Batch).outcomes = Function.update b.outcomes i state'.outcomes := by
  have hindex := (List.getElem?_eq_some_iff.mp h).1
  funext j
  rw [outcomes]
  by_cases hj : j = i
  · rw [hj, Function.update_self, List.getElem?_set_self hindex]
  · rw [Function.update_of_ne hj, List.getElem?_set_ne (Ne.symm hj)]
    rfl

/-- Starting a fetch adds no outcomes. -/
theorem outcomes_startNext (b : Batch) : b.startNext.outcomes = b.outcomes := by
  cases hwaiting : b.waiting with
  | nil => rw [startNext_nil hwaiting]
  | cons f waiting =>
      rw [startNext_cons hwaiting]
      funext i
      rw [outcomes, outcomes]
      rcases Nat.lt_trichotomy i b.started.length with hlt | rfl | hgt
      · rw [List.getElem?_append_left hlt]
      · rw [List.getElem?_concat_length, List.getElem?_eq_none (Nat.le_refl _)]
        rfl
      · rw [List.getElem?_eq_none (Nat.le_of_lt hgt),
          List.getElem?_eq_none (by rw [List.length_append]; exact hgt)]

namespace Steady

/-- Starting a fetch keeps the invariant. -/
theorem startNext (h : b.Steady n name node repo scope peers stores store) :
    b.startNext.Steady n name node repo scope peers stores store := by
  have houtcomes := b.outcomes_startNext
  cases hwaiting : b.waiting with
  | nil => rwa [startNext_nil hwaiting]
  | cons f waiting =>
      rw [startNext_cons hwaiting] at houtcomes ⊢
      refine ⟨h.network, ?_, fun event hevent => ?_, fun i f' state hstarted => ?_, ?_⟩
      · rw [← h.fetches, hwaiting, List.map_append, List.append_assoc]
        rfl
      · rcases List.mem_append.mp hevent with hold | hnew
        · obtain ⟨f', state, hstarted, hroute⟩ := h.routes event hold
          have hindex := (List.getElem?_eq_some_iff.mp hstarted).1
          exact ⟨f', state, (List.getElem?_append_left hindex).trans hstarted, hroute⟩
        · obtain rfl := List.mem_singleton.mp hnew
          refine ⟨f, .connecting, ?_, fun endpoint hroute => ?_⟩
          · rw [Network.dispatch_fetch]
            exact List.getElem?_concat_length
          · rw [← h.network.endpoints]
            exact Network.endpoint?_of_dispatch hroute
      · rw [List.getElem?_append] at hstarted
        split at hstarted
        · exact h.standing i f' state hstarted
        · cases List.mem_singleton.mp (List.mem_of_getElem? hstarted)
          exact .connecting
      · rw [houtcomes]
        exact h.tally

/-- What comes for a fetch keeps the invariant if the fetch stands where it can and its outcomes
keep the tally. -/
theorem resumed {event : Event} {others : List Event} {before : Network} {f : Fetch}
    {state : FetchState} {after : FetchStep × Store}
    (h : b.Steady n name node repo scope peers stores store)
    (hevents : b.events.Perm (event :: others))
    (hstarted : b.started[event.fetch]? = some (f, state))
    (hbefore : n.Holds name node store before)
    (hstanding : f.Standing (n.Serves name stores f.peer) after.1.1)
    (htally : node.store.Tally repo (n.Offered name repo peers stores)
      (Function.update b.outcomes event.fetch after.1.1.outcomes) after.2) :
    ({ b with network := before, events := others }.resumed name event.fetch f before
      { node with store := store } after).Steady n name node repo scope peers stores after.2 := by
  have hindex := (List.getElem?_eq_some_iff.mp hstarted).1
  have hnetwork := hbefore.putNode after.2
  refine ⟨hnetwork, ?_, fun event' hevent' => ?_, fun i f' state' hstarted' => ?_, ?_⟩
  · exact (congrArg (· ++ b.waiting) (fetches_set hstarted after.1.1)).trans h.fetches
  · rcases List.mem_append.mp hevent' with hold | hnew
    · obtain ⟨f', state', hstarted', hroute⟩ :=
        h.routes event' (hevents.mem_iff.mpr (List.mem_cons_of_mem _ hold))
      by_cases hsame : event'.fetch = event.fetch
      · rw [hsame, hstarted] at hstarted'
        cases hstarted'
        exact ⟨f, after.1.1, by rw [hsame]; exact List.getElem?_set_self hindex, hroute⟩
      · exact ⟨f', state', (List.getElem?_set_ne (Ne.symm hsame)).trans hstarted', hroute⟩
    · obtain ⟨call, -, rfl⟩ := List.mem_map.mp hnew
      refine ⟨f, after.1.1, ?_, fun endpoint hroute => ?_⟩
      · rw [Network.dispatch_fetch]
        exact List.getElem?_set_self hindex
      · rw [← hnetwork.endpoints]
        exact Network.endpoint?_of_dispatch hroute
  · have hstarted' : (b.started.set event.fetch (f, after.1.1))[i]? = some (f', state') := hstarted'
    by_cases hi : i = event.fetch
    · rw [hi, List.getElem?_set_self hindex] at hstarted'
      cases hstarted'
      exact hstanding
    · rw [List.getElem?_set_ne (Ne.symm hi)] at hstarted'
      exact h.standing i f' state' hstarted'
  · rw [Batch.resumed, outcomes_set (b := { b with network := before, events := others }) hstarted]
    exact htally

/-- A fetch that has started is one from a peer. -/
theorem exists_peer {i : Nat} {f : Fetch} {state : FetchState}
    (h : b.Steady n name node repo scope peers stores store)
    (hstarted : b.started[i]? = some (f, state)) :
    ∃ peer, peers[i]? = some peer ∧ f = node.fetchFrom repo scope peer := by
  have hindex := (List.getElem?_eq_some_iff.mp hstarted).1
  have hf : (b.started.map Prod.fst ++ b.waiting)[i]? = some f := by
    rw [List.getElem?_append_left (by rwa [List.length_map]), List.getElem?_map, hstarted]
    rfl
  rw [h.fetches, List.getElem?_map] at hf
  obtain ⟨peer, hpeer, hfetch⟩ := Option.map_eq_some_iff.mp hf
  exact ⟨peer, hpeer, hfetch.symm⟩

/-- Who answers a fetch is a store that serves its peer. What it sends is on offer, unless it is the
store of the node itself, from which nothing is taken over. -/
theorem exists_server {i : Nat} {peer : Address} {endpoint : Endpoint} {before : Network}
    (h : b.Steady n name node repo scope peers stores store)
    (hnode : n.nodes.get? name = some node) (hpeer : peers[i]? = some peer)
    (hserved : n.storeOf? peer = some (stores peer)) (hsound : (stores peer).Sound)
    (hendpoint : n.endpoint? peer = some endpoint) (hbefore : n.Holds name node store before) :
    ∃ server, before.storeAt? endpoint = some server ∧ n.Serves name stores peer server ∧
      server.Sound ∧ ∀ now id, store.Takes repo id (n.Offered name repo peers stores i id)
        (store.takeFrom server now repo id) := by
  have hstore : n.storeAt? endpoint = some (stores peer) := by
    rwa [Network.storeOf?, hendpoint] at hserved
  rcases hbefore.storeAt? endpoint with ⟨rfl, hat⟩ | ⟨hother, hat⟩
  · rw [Network.store_eq_of_self hnode hendpoint hserved] at hsound
    refine ⟨store, hat, .inl hendpoint, h.tally.sound hsound, fun now id => ?_⟩
    have hnothing : n.Offered name repo peers stores i id = fun _ => False := by
      funext m
      refine eq_false ?_
      rintro ⟨peer', hpeer', hself, -⟩
      rw [hpeer] at hpeer'
      cases hpeer'
      exact hself hendpoint
    rw [hnothing]
    exact Store.takes_takeFrom_self
  · refine ⟨stores peer, hat.trans hstore, .inr rfl, hsound, fun now id => ?_⟩
    have hsends : n.Offered name repo peers stores i id = (stores peer).Sends repo id := by
      funext m
      refine propext ⟨?_, fun hm => ⟨peer, hpeer, ?_, hm⟩⟩
      · rintro ⟨peer', hpeer', -, hm⟩
        rw [hpeer] at hpeer'
        cases hpeer'
        exact hm
      · rw [hendpoint]
        exact fun heq => hother (Option.some.inj heq)
    rw [hsends]
    exact Store.takes_takeFrom hsound

/-- Taking an event that is answered keeps the invariant. -/
theorem next (h : b.Steady n name node repo scope peers stores store) (horderly : b.Orderly name)
    (hnode : n.nodes.get? name = some node)
    (hserved : ∀ peer ∈ peers, n.storeOf? peer = some (stores peer) ∧ (stores peer).Sound)
    (htakes : b.Takes name b') :
    ∃ after, b'.Steady n name node repo scope peers stores after := by
  obtain ⟨event, others, endpoint, hevents, hroute, rfl⟩ := htakes
  obtain ⟨f, state, node', hstarted, hcall, hnode', -, hnext⟩ := horderly.exists_next hevents
  obtain ⟨f', state', hstarted', hroutes⟩ :=
    h.routes event (hevents.mem_iff.mpr List.mem_cons_self)
  rw [hstarted] at hstarted'
  cases hstarted'
  obtain ⟨peer, hpeer, rfl⟩ := h.exists_peer hstarted
  obtain ⟨hstore, hsound⟩ := hserved peer (List.mem_of_getElem? hpeer)
  have hbefore := h.network.advance event.time
  obtain ⟨server, hat, hserves, hserver, htake⟩ := h.exists_server hnode hpeer hstore hsound
    (hroutes endpoint hroute) hbefore
  rw [Network.arrival_of_storeAt? hroute hat] at hnode' hnext
  rw [hbefore.node] at hnode'
  cases hnode'
  obtain ⟨hstanding, hcases⟩ := (h.standing _ _ _ hstarted).resume hserves hserver store
    (b.network.advance event.time).clock hcall
  have houtcomes : b.outcomes event.fetch = state.outcomes := by
    rw [outcomes, hstarted]
  have hafter := h.resumed hevents hstarted hbefore hstanding (by
    rcases hcases with ⟨hsame, hstore⟩ | ⟨id, hnew, hmore, hstore⟩
    · rw [hsame, hstore, ← houtcomes, Function.update_eq_self]
      exact h.tally
    · rw [hmore, hstore, ← houtcomes]
      exact h.tally.record (by rwa [houtcomes]) (htake _ id))
  rw [hnext]
  split
  · exact ⟨_, hafter.startNext⟩
  · exact ⟨_, hafter⟩

/-- Nothing has been done yet. -/
theorem start (hnode : n.nodes.get? name = some node) (repo : RepoId) (scope : Scope)
    (peers : List Address) (stores : Address → Store) :
    (n.batch node repo peers scope).Steady n name node repo scope peers stores node.store := by
  refine startMany_induction
    (p := fun b => b.Steady n name node repo scope peers stores node.store)
    (fun _ => Steady.startNext) _
    ⟨.refl hnode, rfl, fun _ hevent => ?_, fun _ _ _ hstarted => ?_, .refl _ _ _⟩
  · cases hevent
  · cases hstarted

/-- When no event is left every fetch has succeeded, with an outcome for everyone it asked for. -/
theorem of_over {i : Nat} {f : Fetch} {state : FetchState}
    (h : b.Steady n name node repo scope peers stores store) (horderly : b.Orderly name)
    (hevents : b.events = []) (hstarted : b.started[i]? = some (f, state)) :
    ∃ server ids, state = .finished (.ok state.outcomes) ∧ n.Serves name stores f.peer server ∧
      f.Asks server ids ∧ ∀ id, state.outcomes.contains id = true ↔ id ∈ ids := by
  obtain ⟨result, rfl⟩ := horderly.finished hevents hstarted
  cases h.standing i f _ hstarted with
  | @finished server ids outcomes hserver hasked hids =>
      refine ⟨server, ids, rfl, hserver, hasked, fun id => ?_⟩
      rw [← SortedMap.mem_keys_iff]
      exact hids.mem_iff

end Steady

end Batch

namespace Network

/-- Whatever events have been taken, the invariants hold. -/
theorem steady_of_takes (hnode : n.nodes.get? name = some node)
    (hserved : ∀ peer ∈ peers, n.storeOf? peer = some (stores peer) ∧ (stores peer).Sound)
    (h : Relation.ReflTransGen (Batch.Takes name) (n.batch node repo peers scope) b) :
    b.Orderly name ∧ b.Busy ∧ ∃ store, b.Steady n name node repo scope peers stores store := by
  induction h with
  | refl => exact ⟨orderly_batch ⟨node, hnode⟩ _ _ _ _, busy_batch _ _ _ _ _, _,
      .start hnode _ _ _ _⟩
  | tail _ htakes ih =>
      obtain ⟨horderly, -, store, hsteady⟩ := ih
      obtain ⟨after, hafter⟩ := hsteady.next horderly hnode hserved htakes
      obtain ⟨event, others, endpoint, hevents, -, rfl⟩ := htakes
      exact ⟨horderly.next hevents, horderly.busy_next hevents, after, hafter⟩

/-- When all fetches from stores that can answer are over, each of them has succeeded. -/
theorem Fetches.exists_settled {reports : List (Address × Except SyncError FetchReport)}
    {after : Network} (h : n.Fetches name node repo peers scope reports after)
    (hnode : n.nodes.get? name = some node)
    (hserved : ∀ peer ∈ peers, n.storeOf? peer = some (stores peer) ∧ (stores peer).Sound) :
    ∃ store done, n.Settled name node repo scope peers stores done store after ∧
      reports = done.map (fun report => (report.peer, .ok report)) ∧
        done.map FetchReport.peer = peers := by
  obtain ⟨b, hrun, hevents, rfl, rfl⟩ := h
  obtain ⟨horderly, hbusy, store, hsteady⟩ := steady_of_takes hnode hserved hrun
  have hfetches := hsteady.fetches
  rw [hbusy hevents, List.append_nil] at hfetches
  let done : List FetchReport := b.started.map fun e => ⟨e.1.peer, e.2.outcomes⟩
  have houtcomes : outcomesIn done = b.outcomes := by
    funext i
    rw [outcomesIn, Batch.outcomes, List.getElem?_map]
    cases b.started[i]? with
    | none => rfl
    | some e => rfl
  refine ⟨store, done, ⟨hsteady.network, houtcomes ▸ hsteady.tally, fun i peer hpeer => ?_⟩, ?_, ?_⟩
  · have hfetch : (b.started.map Prod.fst)[i]? = some (node.fetchFrom repo scope peer) := by
      rw [hfetches, List.getElem?_map, hpeer]
      rfl
    rw [List.getElem?_map] at hfetch
    obtain ⟨⟨f, state⟩, hstarted, rfl⟩ := Option.map_eq_some_iff.mp hfetch
    obtain ⟨server, ids, -, hserves, hasked, hids⟩ := hsteady.of_over horderly hevents hstarted
    have hsame : outcomesIn done i = state.outcomes := by
      rw [houtcomes, Batch.outcomes, hstarted]
    exact ⟨server, ids, hserves, hasked, fun id => by rw [hsame]; exact hids id⟩
  · rw [Batch.reports, List.map_map, ← List.filterMap_eq_map]
    refine List.filterMap_congr fun e he => ?_
    obtain ⟨i, hi⟩ := List.getElem?_of_mem he
    obtain ⟨-, -, hstate, -⟩ := hsteady.of_over horderly hevents hi
    have hreport : Batch.report? e.1 e.2 =
        some (e.1.peer, .ok ⟨e.1.peer, e.2.outcomes⟩) := by
      rw [hstate]
      rfl
    exact hreport
  · have hpeers : done.map FetchReport.peer = (b.started.map Prod.fst).map Fetch.peer := by
      rw [List.map_map, List.map_map]
      rfl
    rw [hpeers, hfetches, List.map_map]
    exact List.map_id peers

end Network

end Batches

end SignedRefs
