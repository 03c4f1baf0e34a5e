import SignedRefs.Proofs.Network.Batches

/-!
# Links That Stay Up

A call is answered if its peer can be reached when the call is made, and the answer does not take
too long. In a network in which no link is going to change this can be said before the fetches
start: if all peers can be reached in time, then all calls are answered
(`Network.answered_of_near`). The invariant (`Batch.Clear`) says that the links are the same, and
that the calls that are under way are answered.

## Main results

* `Batch.Clear.next`: taking an event keeps the invariant.
* `Network.answered_of_near`: where all peers can be reached in time, all calls are answered.
-/

namespace SignedRefs

namespace Network

variable {n : Network}

/-- Serving a request leaves the links alone. -/
theorem route?_serve (n : Network) (endpoint : Endpoint) (request : Request) :
    (n.serve endpoint request).2.route? = n.route? ∧
      (n.serve endpoint request).2.scheduled = n.scheduled := by
  cases endpoint with
  | script rules => exact ⟨rfl, rfl⟩
  | store other =>
      unfold serve
      dsimp only
      cases n.stores.get? other with
      | none => exact ⟨rfl, rfl⟩
      | some store => exact ⟨rfl, rfl⟩
  | node other =>
      unfold serve
      dsimp only
      cases n.nodes.get? other with
      | none => exact ⟨rfl, rfl⟩
      | some node => exact ⟨rfl, rfl⟩

/-- What arrives in a fetch leaves the links alone. -/
theorem route?_arrival (n : Network) (f : Fetch) (event : Event) :
    (n.arrival f event).2.route? = n.route? ∧
      (n.arrival f event).2.scheduled = n.scheduled := by
  unfold arrival
  split
  · exact ⟨rfl, rfl⟩
  · exact ⟨rfl, rfl⟩
  · split
    · exact ⟨rfl, rfl⟩
    · exact n.route?_serve _ _

/-- If no link is going to change, none does. -/
theorem route?_advance (h : n.scheduled = []) (time : Nat) :
    (n.advance time).route? = n.route? ∧ (n.advance time).scheduled = [] := by
  have hadvance : n.advance time = { n with now := max n.now time } := by
    rw [advance, h]
    rfl
  rw [hadvance]
  exact ⟨rfl, h⟩

/-- The peer of a fetch can be reached in time. -/
def Near (n : Network) (f : Fetch) : Prop :=
  ∃ endpoint latency, n.route? f.peer = some (endpoint, latency) ∧ ∀ call, latency ≤ f.patience call

/-- Every call of a fetch from a near peer reaches it. -/
theorem Near.dispatch {f : Fetch} (h : n.Near f) (i : Nat) (call : Call) :
    ∃ endpoint, (n.dispatch i f call).route = .reached endpoint := by
  obtain ⟨endpoint, latency, hroute, hlatency⟩ := h
  refine ⟨endpoint, ?_⟩
  rw [Network.dispatch, hroute]
  dsimp only
  rw [if_neg (Nat.not_lt.mpr (hlatency call))]

end Network

namespace Batch

variable {n : Network} {b : Batch} {name : String} {event : Event} {others : List Event}

/-- The links are those of some network and will not change, and all calls are answered. -/
structure Clear (n : Network) (b : Batch) : Prop where
  /-- The links are the same. -/
  routes : b.network.route? = n.route?
  /-- They will not change. -/
  unscheduled : b.network.scheduled = []
  /-- All peers can be reached in time. -/
  near : ∀ f ∈ b.started.map Prod.fst ++ b.waiting, n.Near f
  /-- All calls are answered. -/
  reached : ∀ event ∈ b.events, ∃ endpoint, event.route = .reached endpoint

namespace Clear

/-- Starting the next fetch keeps the links clear. -/
theorem startNext (h : b.Clear n) : b.startNext.Clear n := by
  cases hwaiting : b.waiting with
  | nil => rwa [startNext_nil hwaiting]
  | cons f waiting =>
      have hnear := h.near
      rw [hwaiting] at hnear
      rw [startNext_cons hwaiting]
      refine ⟨h.routes, h.unscheduled, fun f' hf' => hnear f' ?_, fun event hevent => ?_⟩
      · rwa [List.map_append, List.append_assoc] at hf'
      · rcases List.mem_append.mp hevent with hold | hnew
        · exact h.reached event hold
        · obtain rfl := List.mem_singleton.mp hnew
          have hf := hnear f (List.mem_append_right _ List.mem_cons_self)
          rw [Network.Near, ← h.routes] at hf
          exact Network.Near.dispatch hf _ _

/-- Taking an event keeps it so. -/
theorem next (h : b.Clear n) (horderly : b.Orderly name)
    (hevents : b.events.Perm (event :: others)) : (b.next name event others).Clear n := by
  obtain ⟨f, state, node, hstarted, -, -, -, hnext⟩ := horderly.exists_next hevents
  obtain ⟨hadvance, hnone⟩ := Network.route?_advance h.unscheduled event.time
  obtain ⟨harrival, hnone'⟩ := (b.network.advance event.time).route?_arrival f event
  have hroutes := harrival.trans (hadvance.trans h.routes)
  have hf : n.Near f := h.near f (List.mem_append_left _
    (List.mem_map.mpr ⟨_, List.mem_of_getElem? hstarted, rfl⟩))
  have hresumed (after : FetchStep × Store) :
      ({ b with network := b.network.advance event.time, events := others }.resumed name
        event.fetch f ((b.network.advance event.time).arrival f event).2 node after).Clear n := by
    refine ⟨hroutes, hnone'.trans hnone, fun f' hf' => h.near f' ?_, fun event' hevent' => ?_⟩
    · rwa [← fetches_set hstarted after.1.1]
    · rcases List.mem_append.mp hevent' with hold | hnew
      · exact h.reached event' (hevents.mem_iff.mpr (List.mem_cons_of_mem _ hold))
      · obtain ⟨call, -, rfl⟩ := List.mem_map.mp hnew
        rw [Network.Near, ← hroutes] at hf
        exact Network.Near.dispatch hf _ _
  rw [hnext]
  split
  · exact (hresumed _).startNext
  · exact hresumed _

/-- All calls that follow are answered. -/
theorem answered (h : b.Clear n) (horderly : b.Orderly name) : b.Answered name := by
  intro steps
  induction steps generalizing b with
  | zero => exact h.reached
  | succ steps ih =>
      rw [run, step]
      cases hnext : Event.earliest? b.events with
      | none => exact h.reached
      | some taken =>
          have hevents := Event.perm_of_earliest? hnext
          exact ih (h.next horderly hevents) (horderly.next hevents)

end Clear

end Batch

/-- If no link is going to change and all peers can be reached in time, all calls are answered. -/
theorem Network.answered_of_near {n : Network} {name : String} {node : Node} {repo : RepoId}
    {peers : List Address} {scope : Scope} (hnode : ∃ node, n.nodes.get? name = some node)
    (hnone : n.scheduled = []) (hnear : ∀ peer ∈ peers, n.Near (node.fetchFrom repo scope peer)) :
    (n.batch node repo peers scope).Answered name := by
  refine Batch.Clear.answered (Batch.startMany_induction (p := Batch.Clear n)
    (fun _ => Batch.Clear.startNext) _
    ⟨rfl, hnone, fun f hf => ?_, fun _ hevent => ?_⟩) (orderly_batch hnode _ _ _ _)
  · obtain ⟨peer, hpeer, rfl⟩ := List.mem_map.mp hf
    exact hnear peer hpeer
  · cases hevent

end SignedRefs
