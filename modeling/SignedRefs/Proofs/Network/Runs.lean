import SignedRefs.Network.Announcing
import SignedRefs.Proofs.Network.Community

/-!
# What a Network Does to Its Nodes

Fetches run side by side on one network, and announcements are tried over and over again, each under
timeouts and over links that come and go. To the nodes all of this is events (`Network.Reaches`): a
fetching node takes what arrives, and a node that is reached answers. What holds of a community
after any events therefore holds of the nodes of a network.

## Main results

* `Network.reaches_serve`: an exchange is an event at the peer that is reached, if it is a node.
* `Network.reaches_announce`, `Network.reaches_fetchAll`: announcements and fetches.
-/

namespace SignedRefs

namespace Network

/-- The nodes of a network have become those of another by events. -/
def Reaches (n n' : Network) : Prop := ∃ events, n'.nodes = Community.afterAll n.nodes events

namespace Reaches

variable {n middle n' : Network}

/-- The nodes are the same. -/
theorem of_eq (h : n'.nodes = n.nodes) : n.Reaches n' := ⟨[], h⟩

/-- Events lead on from where others have led. -/
theorem trans (h : n.Reaches middle) (h' : middle.Reaches n') : n.Reaches n' := by
  obtain ⟨events, hevents⟩ := h
  obtain ⟨events', hevents'⟩ := h'
  exact ⟨events ++ events', by rw [hevents', hevents, Community.afterAll_append]⟩

/-- A node has taken an event. -/
theorem of_event {name : String} {node : Node} (hnode : n.nodes.get? name = some node)
    (event : NodeEvent) : n.Reaches (n.putNode name (node.after event)) := by
  refine ⟨[(name, event)], ?_⟩
  rw [Community.afterAll, List.foldl_cons, List.foldl_nil, Community.after, hnode]
  rfl

end Reaches

/-- An endpoint that answers may be a node. -/
theorem reaches_serve (n : Network) (endpoint : Endpoint) (request : Request) :
    n.Reaches (n.serve endpoint request).2 := by
  cases endpoint with
  | script rules => exact .of_eq rfl
  | store name =>
      unfold serve
      dsimp only
      cases n.stores.get? name with
      | none => exact .of_eq rfl
      | some store => exact .of_eq rfl
  | node name =>
      unfold serve
      dsimp only
      cases hnode : n.nodes.get? name with
      | none => exact .of_eq rfl
      | some node => exact .of_event hnode (.serve n.clock request)

/-- No event is needed for time to pass. -/
theorem reaches_advance (n : Network) (time : Nat) : n.Reaches (n.advance time) := .of_eq rfl

/-! ### Announcing -/

/-- An attempt to push comes down to events. -/
theorem reaches_attemptPush (n : Network) (seed : Address) (request : Request) (timeout : Nat) :
    n.Reaches (attemptPush seed request timeout n).2 := by
  unfold attemptPush
  split
  · exact .of_eq rfl
  · split
    · exact n.reaches_advance _
    · dsimp only
      split
      · exact n.reaches_advance _
      · split
        · exact (n.reaches_advance _).trans (reaches_advance _ _)
        · exact ((n.reaches_advance _).trans (reaches_advance _ _)).trans (reaches_serve _ _ _)

end Network

/-- What is between the states before and after each attempt and each pause is also between those
before and after all of them. -/
theorem Push.loop_induction {σ : Type} {r : σ → σ → Prop}
    {attempt : σ → Except AttemptFault UInt64 × σ} {pause : Nat → σ → σ}
    (htrans : ∀ {s s' s''}, r s s' → r s' s'' → r s s'') (hattempt : ∀ s, r s (attempt s).2)
    (hpause : ∀ delay s, r s (pause delay s)) (backoff : Backoff) (more number delay : Nat)
    (s : σ) : r s (Push.loop attempt pause backoff more number delay s).2 := by
  induction more generalizing number delay s with
  | zero =>
      have h := hattempt s
      rw [Push.loop]
      cases hresult : attempt s with
      | mk result after =>
          rw [hresult] at h
          cases result with
          | ok sequence => exact h
          | error fault =>
              dsimp only
              split
              · exact h
              · exact h
  | succ more ih =>
      have h := hattempt s
      rw [Push.loop]
      cases hresult : attempt s with
      | mk result after =>
          rw [hresult] at h
          cases result with
          | ok sequence => exact h
          | error fault =>
              dsimp only
              split
              · exact h
              · exact htrans h (htrans (hpause delay after) (ih _ _ _))

namespace Network

/-- An announcement to one seed comes down to events. -/
theorem reaches_announceTo (config : AnnounceConfig) (request : Request) (a : Announcing)
    (seed : Address) : a.network.Reaches (announceTo config request a seed).network := by
  have hrun := Push.loop_induction (r := Reaches) Reaches.trans
    (fun n => n.reaches_attemptPush seed request config.attemptTimeout.toNat)
    (fun delay n => n.reaches_advance (n.now + waitFor delay)) config.backoff
    (config.attempts - 1) 1 config.backoff.first a.network
  exact hrun.trans (.of_eq rfl)

/-- An announcement is events at the seeds that are nodes. -/
theorem reaches_announce (n : Network) (node : Node) (repo : RepoId) :
    n.Reaches (n.announce node repo).2 := by
  have hall (config : AnnounceConfig) (request : Request) (seeds : List Address) (a : Announcing) :
      a.network.Reaches (seeds.foldl (announceTo config request) a).network := by
    induction seeds generalizing a with
    | nil => exact .of_eq rfl
    | cons seed seeds ih => exact (reaches_announceTo config request a seed).trans (ih _)
  unfold announce
  split
  · exact .of_eq rfl
  · split
    · exact .of_eq rfl
    · exact (hall _ _ _ _).trans (reaches_advance _ _)

/-! ### Fetching -/

/-- An answer comes down to an event at the peer who gives it. -/
theorem reaches_arrival (n : Network) (f : Fetch) (event : Event) :
    n.Reaches (n.arrival f event).2 := by
  unfold arrival
  split
  · exact .of_eq rfl
  · exact .of_eq rfl
  · split
    · exact .of_eq rfl
    · exact reaches_serve _ _ _

/-- Starting a fetch comes down to no event. -/
theorem reaches_startNext (b : Batch) : b.network.Reaches b.startNext.network := by
  unfold Batch.startNext
  split
  · exact .of_eq rfl
  · exact .of_eq rfl

/-- Starting several fetches comes down to no event. -/
theorem reaches_startMany (count : Nat) (b : Batch) :
    b.network.Reaches (b.startMany count).network := by
  induction count generalizing b with
  | zero => exact .of_eq rfl
  | succ count ih => exact (reaches_startNext b).trans (ih _)

/-- What an event brings is an event at the peer, and then one at the node that fetches. -/
theorem reaches_deliver (b : Batch) (name : String) (event : Event) :
    b.network.Reaches (b.deliver name event).network := by
  unfold Batch.deliver
  split
  · exact .of_eq rfl
  · next f state _ =>
      have harrival := b.network.reaches_arrival f event
      dsimp only
      split
      · exact harrival
      · next node hnode =>
          have harrive := Reaches.of_event hnode (.arrive f
            (b.network.arrival f event).2.clock state event.call (b.network.arrival f event).1)
          refine (harrival.trans harrive).trans ?_
          split
          · exact reaches_startNext _
          · exact .of_eq rfl

/-- A batch of fetches comes down to events. -/
theorem reaches_run (name : String) (fuel : Nat) (b : Batch) :
    b.network.Reaches (b.run name fuel).network := by
  induction fuel generalizing b with
  | zero => exact .of_eq rfl
  | succ fuel ih =>
      rw [Batch.run, Batch.step]
      cases Event.earliest? b.events with
      | none => exact .of_eq rfl
      | some next =>
          obtain ⟨event, events⟩ := next
          have hdeliver := reaches_deliver
            { b with network := b.network.advance event.time, events := events } name event
          exact ((b.network.reaches_advance event.time).trans hdeliver).trans (ih _)

/-- Fetches from several peers are events at the peers that are nodes and at the node that
fetches. -/
theorem reaches_fetchAll (n : Network) (name : String) (node : Node) (repo : RepoId)
    (peers : List Address) (scope : Scope) :
    n.Reaches (n.fetchAll name node repo peers scope).2 := by
  unfold fetchAll
  exact (reaches_startMany _ _).trans (reaches_run _ _ _)

end Network

end SignedRefs
