import Mathlib.Logic.Relation
import SignedRefs.Proofs.Sync.Fetching

/-!
# Batches of Fetches

A batch takes the event that comes next. What is true of it does not depend on this order, though:
any event that is under way may be taken (`Batch.Takes`), and the batch that takes the earliest one
is a special case. The invariant (`Batch.Orderly`) says that the events are just the calls that the
fetches wait for, and that fetches start as long as there are any to start. With each event there
is less left to do, so a batch ends, and when no event is left all fetches are over.

## Main results

* `Fetch.pending_resume`: which calls are under way after something came for one of them.
* `Batch.Orderly.next`: taking an event keeps the invariant.
* `Batch.left_next_lt`: with each event there is less left to do.
* `Network.fetches_fetchAll`: fetching in the order of time is fetching in some order.
-/

namespace SignedRefs

/-! ### Calls -/

namespace Fetch

variable {f : Fetch} {state : FetchState} {call : Call}

/-- The calls that are made on entering a state are the ones that are under way then. -/
theorem pending_request (f : Fetch) (ids : List PeerId) :
    (f.request ids).1.pending = (f.request ids).2 := by
  rw [Fetch.request]
  split
  · rfl
  · rfl

/-- When the connection has been tried, the calls that are made are those under way. -/
theorem pending_afterConnect (f : Fetch) (arrival : Arrival) :
    (f.afterConnect arrival).1.pending = (f.afterConnect arrival).2 := by
  unfold afterConnect
  split
  · rfl
  · rfl
  · split
    · rfl
    · exact pending_request f _

/-- When the list has been asked for, the calls that are made are those under way. -/
theorem pending_afterList (f : Fetch) (arrival : Arrival) :
    (f.afterList arrival).1.pending = (f.afterList arrival).2 := by
  rw [afterList]
  cases f.listed arrival with
  | error error => rfl
  | ok listed => exact pending_request f _

/-- When something has come for a call, the other ones are still under way, and so are the new
ones. -/
theorem pending_resume (now : Int64) (store : Store) (arrival : Arrival)
    (hcall : call ∈ state.pending) :
    let step := (f.resume now state store call arrival).1
    (state.pending.erase call ++ step.2).Perm step.1.pending := by
  cases state with
  | connecting =>
      obtain rfl := List.mem_singleton.mp hcall
      exact .of_eq (pending_afterConnect f arrival).symm
  | listing =>
      obtain rfl := List.mem_singleton.mp hcall
      exact .of_eq (pending_afterList f arrival).symm
  | requesting waiting running outcomes =>
      obtain ⟨id, hid, rfl⟩ := List.mem_map.mp hcall
      have hrest : (running.map Call.request).erase (.request id) =
          (running.erase id).map .request :=
        (List.map_erase (fun _ _ h => Call.request.inj h) running).symm
      simp only [resume, List.contains_iff_mem, hid, if_true, FetchState.pending, hrest]
      cases waiting with
      | cons next waiting =>
          simp only [afterRequest, List.map_append, List.map_cons, List.map_nil]
          exact .refl _
      | nil =>
          rw [afterRequest]
          split
          · next hempty =>
              rw [List.isEmpty_iff.mp hempty]
              exact .refl _
          · exact .of_eq (List.append_nil _)
  | finished result => cases hcall

/-- A fetch is over, or calls are under way. -/
def Lively (state : FetchState) : Prop := state.pending = [] → ∃ result, state = .finished result

/-- When manifests are requested, the fetch is over or calls are under way. -/
theorem lively_request (f : Fetch) (ids : List PeerId) : Lively (f.request ids).1 := by
  intro h
  rw [Fetch.request] at h ⊢
  split at h
  · next hempty => exact ⟨_, by rw [if_pos hempty]⟩
  · next hne =>
      rw [FetchState.pending, List.map_eq_nil_iff, List.take_eq_nil_iff] at h
      rcases h with hwidth | hnil
      · exact absurd hwidth (Nat.ne_of_gt f.width_pos)
      · exact absurd (List.isEmpty_iff.mpr hnil) hne

/-- A fetch that goes on has made a call. -/
theorem lively_resume (now : Int64) (store : Store) (arrival : Arrival)
    (hcall : call ∈ state.pending) : Lively (f.resume now state store call arrival).1.1 := by
  cases state with
  | connecting =>
      obtain rfl := List.mem_singleton.mp hcall
      simp only [resume]
      unfold afterConnect
      split
      · exact fun _ => ⟨_, rfl⟩
      · exact fun _ => ⟨_, rfl⟩
      · split
        · exact fun h => absurd h (List.cons_ne_nil _ _)
        · exact lively_request f _
  | listing =>
      obtain rfl := List.mem_singleton.mp hcall
      simp only [resume, afterList]
      cases f.listed arrival with
      | error error => exact fun _ => ⟨_, rfl⟩
      | ok listed => exact lively_request f _
  | requesting waiting running outcomes =>
      obtain ⟨id, hid, rfl⟩ := List.mem_map.mp hcall
      simp only [resume, List.contains_iff_mem, hid, if_true]
      cases waiting with
      | cons next waiting =>
          intro h
          simp [afterRequest, FetchState.pending] at h
      | nil =>
          rw [afterRequest]
          split
          · exact fun _ => ⟨_, rfl⟩
          · next hne =>
              intro h
              exact absurd (List.isEmpty_iff.mpr (List.map_eq_nil_iff.mp h)) hne
  | finished result => cases hcall

/-- Something that comes for a call leaves less to do. -/
theorem left_resume_lt (now : Int64) (store : Store) (arrival : Arrival)
    (hcall : call ∈ state.pending) :
    f.left (f.resume now state store call arrival).1.1 < f.left state :=
  left_take_lt (b := ⟨fun _ => arrival, fun _ => now⟩) hcall

end Fetch

/-! ### Events -/

namespace Event

variable {events others : List Event} {event : Event} {i : Nat}

/-- There is an earliest event among some. -/
theorem eq_nil_of_earliest? (h : earliest? events = none) : events = [] := by
  cases events with
  | nil => rfl
  | cons first rest =>
      rw [earliest?] at h
      split at h
      · cases h
      · split at h
        · cases h
        · cases h

/-- The earliest event is taken out. -/
theorem perm_of_earliest? (h : earliest? events = some (event, others)) :
    events.Perm (event :: others) := by
  induction events generalizing event others with
  | nil => cases h
  | cons first rest ih =>
      rw [earliest?] at h
      split at h
      · next hnone =>
          cases h
          rw [eq_nil_of_earliest? hnone]
      · next earliest later hrest =>
          split at h
          · cases h
            exact ((ih hrest).cons first).trans (.swap _ _ _)
          · cases h
            exact .refl _

/-- The calls of a fetch for which there are events. -/
def calls (events : List Event) (i : Nat) : List Call :=
  (events.filter fun event => event.fetch = i).map Event.call

/-- The calls in two lists of events are those in the first and those in the second. -/
theorem calls_append (events others : List Event) (i : Nat) :
    calls (events ++ others) i = calls events i ++ calls others i := by
  rw [calls, List.filter_append, List.map_append]
  rfl

/-- In another order the events have the same calls, in another order. -/
theorem calls_perm (h : events.Perm others) (i : Nat) : (calls events i).Perm (calls others i) :=
  (h.filter _).map _

/-- An event has a call of its own fetch. -/
theorem calls_cons_self (event : Event) (events : List Event) :
    calls (event :: events) event.fetch = event.call :: calls events event.fetch := by
  simp [calls]

/-- An event has no call of any other fetch. -/
theorem calls_cons_of_ne (h : i ≠ event.fetch) : calls (event :: events) i = calls events i := by
  simp [calls, h.symm]

end Event

namespace Network

variable {n : Network} {i : Nat} {f : Fetch} {call : Call}

/-- A call is sent out for its own fetch. -/
@[simp] theorem dispatch_fetch : (n.dispatch i f call).fetch = i := by
  unfold dispatch
  split
  · rfl
  · split
    · rfl
    · rfl

/-- What is sent out is the call itself. -/
@[simp] theorem dispatch_call : (n.dispatch i f call).call = call := by
  unfold dispatch
  split
  · rfl
  · split
    · rfl
    · rfl

/-- Calls that are made become events of their fetch. -/
theorem calls_dispatch_self (n : Network) (i : Nat) (f : Fetch) (made : List Call) :
    Event.calls (made.map (n.dispatch i f)) i = made := by
  have hall : (made.map (n.dispatch i f)).filter (fun event => event.fetch = i) =
      made.map (n.dispatch i f) := List.filter_eq_self.mpr fun event hevent => by
    obtain ⟨call, -, rfl⟩ := List.mem_map.mp hevent
    simp
  rw [Event.calls, hall, List.map_map]
  exact (List.map_congr_left fun call _ => dispatch_call).trans (List.map_id made)

/-- What is sent out for one fetch has no calls of another. -/
theorem calls_dispatch_of_ne {j : Nat} (h : j ≠ i) (made : List Call) :
    Event.calls (made.map (n.dispatch i f)) j = [] := by
  rw [Event.calls, List.map_eq_nil_iff, List.filter_eq_nil_iff]
  intro event hevent
  obtain ⟨call, -, rfl⟩ := List.mem_map.mp hevent
  simp [h.symm]

/-- A node is still there after an answer. -/
theorem exists_get?_arrival {name : String} (h : ∃ node, n.nodes.get? name = some node) (f : Fetch)
    (event : Event) : ∃ node, (n.arrival f event).2.nodes.get? name = some node := by
  have hserve (endpoint : Endpoint) (request : Request) :
      ∃ node, (n.serve endpoint request).2.nodes.get? name = some node := by
    cases endpoint with
    | script rules => exact h
    | store other =>
        unfold serve
        dsimp only
        cases n.stores.get? other with
        | none => exact h
        | some store => exact h
    | node other =>
        unfold serve
        dsimp only
        cases n.nodes.get? other with
        | none => exact h
        | some node =>
            by_cases hname : name = other
            · rw [hname]
              exact ⟨_, SortedMap.get?_insert_self _ _ _⟩
            · obtain ⟨node', hnode'⟩ := h
              exact ⟨node', (SortedMap.get?_insert_of_ne _ hname _).trans hnode'⟩
  unfold arrival
  split
  · exact h
  · exact h
  · split
    · exact h
    · exact hserve _ _

end Network

/-! ### Batches -/

namespace Batch

variable {b : Batch} {name : String} {event : Event} {others : List Event} {f : Fetch}
  {state : FetchState}

/-- The batch when an event has been taken out and delivered. -/
def next (b : Batch) (name : String) (event : Event) (others : List Event) : Batch :=
  { b with network := b.network.advance event.time, events := others }.deliver name event

/-- The batch when something has come for a fetch: the node has the store, and the calls that are
made become events. -/
def resumed (b : Batch) (name : String) (i : Nat) (f : Fetch) (network : Network) (node : Node)
    (after : FetchStep × Store) : Batch :=
  let network := network.putNode name { node with store := after.2 }
  { b with
    network := network
    started := b.started.set i (f, after.1.1)
    events := b.events ++ after.1.2.map (network.dispatch i f) }

/-- What an event brings is taken by its fetch, and if that is over then the next one starts. -/
theorem deliver_eq {node : Node} (hstarted : b.started[event.fetch]? = some (f, state))
    (hnode : (b.network.arrival f event).2.nodes.get? name = some node) :
    let arrived := b.network.arrival f event
    let after := f.resume arrived.2.clock state node.store event.call arrived.1
    let b' := b.resumed name event.fetch f arrived.2 node after
    b.deliver name event = if isFinished after.1.1 then b'.startNext else b' := by
  intro arrived after b'
  rw [deliver, hstarted]
  dsimp only
  rw [hnode]
  rfl

/-- A fetch is the same in every state. -/
theorem fetches_set {i : Nat} (h : b.started[i]? = some (f, state)) (after : FetchState) :
    (b.started.set i (f, after)).map Prod.fst = b.started.map Prod.fst := by
  have hfirst : (b.started.map Prod.fst)[i]? = some f := by
    rw [List.getElem?_map, h]
    rfl
  obtain ⟨hlt, hget⟩ := List.getElem?_eq_some_iff.mp hfirst
  rw [List.map_set]
  exact (congrArg _ hget.symm).trans (List.set_getElem_self hlt)

/-- The calls of a fetch that are under way. -/
def pending (b : Batch) (i : Nat) : List Call :=
  match b.started[i]? with
  | some (_, state) => state.pending
  | none => []

/-- The events are the calls that are under way, and the node is there for which fetches are
made. -/
structure Orderly (b : Batch) (name : String) : Prop where
  /-- The events are the calls that are under way. -/
  calls : ∀ i, (Event.calls b.events i).Perm (b.pending i)
  /-- A fetch that waits for nothing is over. -/
  lively : ∀ (i : Nat) (f : Fetch) (state : FetchState), b.started[i]? = some (f, state) →
    Fetch.Lively state
  /-- The node is there. -/
  present : ∃ node, b.network.nodes.get? name = some node

/-- The next fetch starts with a connection. -/
theorem startNext_cons {waiting : List Fetch} (h : b.waiting = f :: waiting) : b.startNext =
    { b with
      started := b.started ++ [(f, .connecting)]
      waiting := waiting
      events := b.events ++ [b.network.dispatch b.started.length f .connect] } := by
  rw [startNext, h]
  rfl

/-- When nothing waits, nothing is started. -/
theorem startNext_nil (h : b.waiting = []) : b.startNext = b := by
  rw [startNext, h]

namespace Orderly

/-- Starting a fetch keeps the invariant. -/
theorem startNext (h : b.Orderly name) : b.startNext.Orderly name := by
  cases hwaiting : b.waiting with
  | nil => rwa [startNext_nil hwaiting]
  | cons f waiting =>
      rw [startNext_cons hwaiting]
      refine ⟨fun i => ?_, fun i f' state hstarted => ?_, h.present⟩
      · have hcalls := h.calls i
        have hsingle : [b.network.dispatch b.started.length f .connect] =
            [Call.connect].map (b.network.dispatch b.started.length f) := rfl
        simp only [pending] at hcalls ⊢
        rw [Event.calls_append, hsingle]
        rcases Nat.lt_trichotomy i b.started.length with hlt | rfl | hgt
        · rwa [Network.calls_dispatch_of_ne (Nat.ne_of_lt hlt), List.append_nil,
            List.getElem?_append_left hlt]
        · rw [List.getElem?_eq_none (Nat.le_refl _)] at hcalls
          rw [hcalls.eq_nil, Network.calls_dispatch_self, List.getElem?_concat_length]
          exact .refl _
        · rw [List.getElem?_eq_none (Nat.le_of_lt hgt)] at hcalls
          rw [hcalls.eq_nil, Network.calls_dispatch_of_ne (Nat.ne_of_gt hgt),
            List.getElem?_eq_none (by rw [List.length_append]; exact hgt)]
          exact .refl _
      · rw [List.getElem?_append] at hstarted
        split at hstarted
        · exact h.lively i f' state hstarted
        · obtain ⟨-, hlast⟩ := List.mem_singleton.mp (List.mem_of_getElem? hstarted) |> Prod.mk.inj
          rw [hlast]
          exact fun hpending => (nomatch hpending)

/-- An event is that of a call for which its fetch waits. -/
theorem exists_waiting (h : b.Orderly name) (hevents : b.events.Perm (event :: others)) :
    ∃ f state, b.started[event.fetch]? = some (f, state) ∧ event.call ∈ state.pending := by
  have hcalls := (Event.calls_perm hevents event.fetch).symm.trans (h.calls event.fetch)
  rw [Event.calls_cons_self] at hcalls
  have hmem : event.call ∈ b.pending event.fetch := hcalls.subset List.mem_cons_self
  rw [pending] at hmem
  split at hmem
  · next f state hstarted => exact ⟨f, state, hstarted, hmem⟩
  · cases hmem

/-- When something has come for the call of an event, its fetch waits for other calls, and the
others for the same ones. -/
theorem resumed (h : b.Orderly name) (hevents : b.events.Perm (event :: others))
    (hstarted : b.started[event.fetch]? = some (f, state)) (before network : Network) (node : Node)
    (now : Int64) (store : Store) (arrival : Arrival) :
    ({ b with network := before, events := others }.resumed name event.fetch f network node
      (f.resume now state store event.call arrival)).Orderly name := by
  obtain ⟨f', state', hstarted', hcall⟩ := h.exists_waiting hevents
  rw [hstarted] at hstarted'
  cases hstarted'
  have hindex := (List.getElem?_eq_some_iff.mp hstarted).1
  refine ⟨fun i => ?_, fun i f' state' hstarted' => ?_,
    ⟨_, SortedMap.get?_insert_self _ _ _⟩⟩
  · have hcalls := (Event.calls_perm hevents i).symm.trans (h.calls i)
    simp only [pending, Batch.resumed] at hcalls ⊢
    rw [Event.calls_append]
    by_cases hi : i = event.fetch
    · rw [hi] at hcalls ⊢
      rw [Event.calls_cons_self, hstarted] at hcalls
      rw [Network.calls_dispatch_self, List.getElem?_set_self hindex]
      have hrest := (List.cons_perm_iff_perm_erase.mp hcalls).2
      exact (hrest.append_right _).trans (Fetch.pending_resume now store arrival hcall)
    · rw [Event.calls_cons_of_ne hi] at hcalls
      rwa [Network.calls_dispatch_of_ne hi, List.append_nil, List.getElem?_set_ne (Ne.symm hi)]
  · simp only [Batch.resumed] at hstarted'
    by_cases hi : i = event.fetch
    · rw [hi, List.getElem?_set_self hindex] at hstarted'
      cases hstarted'
      exact Fetch.lively_resume now store arrival hcall
    · rw [List.getElem?_set_ne (Ne.symm hi)] at hstarted'
      exact h.lively i f' state' hstarted'

/-- Taking an event is resuming its fetch, and then starting the next one if it is over. -/
theorem exists_next (h : b.Orderly name) (hevents : b.events.Perm (event :: others)) :
    ∃ f state node, b.started[event.fetch]? = some (f, state) ∧ event.call ∈ state.pending ∧
      let before := b.network.advance event.time
      let arrived := before.arrival f event
      let after := f.resume arrived.2.clock state node.store event.call arrived.1
      let b' := { b with network := before, events := others }.resumed name event.fetch f
        arrived.2 node after
      arrived.2.nodes.get? name = some node ∧ b'.Orderly name ∧
        b.next name event others = if isFinished after.1.1 then b'.startNext else b' := by
  obtain ⟨f, state, hstarted, hcall⟩ := h.exists_waiting hevents
  obtain ⟨node, hnode⟩ :=
    Network.exists_get?_arrival (n := b.network.advance event.time) h.present f event
  exact ⟨f, state, node, hstarted, hcall, hnode, h.resumed hevents hstarted _ _ _ _ _ _,
    deliver_eq hstarted hnode⟩

/-- Taking an event keeps the invariant. -/
theorem next (h : b.Orderly name) (hevents : b.events.Perm (event :: others)) :
    (b.next name event others).Orderly name := by
  obtain ⟨f, state, node, -, -, -, horderly, hnext⟩ := h.exists_next hevents
  rw [hnext]
  split
  · exact horderly.startNext
  · exact horderly

end Orderly

/-- As long as there are fetches to start, some event is to come. -/
def Busy (b : Batch) : Prop := b.events = [] → b.waiting = []

/-- After the next fetch was started, some event is to come or nothing waits. -/
theorem busy_startNext (b : Batch) : b.startNext.Busy := by
  intro h
  cases hwaiting : b.waiting with
  | nil => rw [startNext_nil hwaiting, hwaiting]
  | cons f waiting =>
      rw [startNext_cons hwaiting] at h
      exact absurd h (List.concat_ne_nil _ _)

/-- When an event has been taken, a fetch goes on or another one starts. -/
theorem Orderly.busy_next (h : b.Orderly name) (hevents : b.events.Perm (event :: others)) :
    (b.next name event others).Busy := by
  obtain ⟨f, state, node, hstarted, -, -, horderly, hnext⟩ := h.exists_next hevents
  rw [hnext]
  split
  · exact busy_startNext _
  · next hunfinished =>
      intro hnone
      have hindex := (List.getElem?_eq_some_iff.mp hstarted).1
      have hcalls := horderly.calls event.fetch
      rw [hnone, pending, Batch.resumed] at hcalls
      simp only [List.getElem?_set_self hindex] at hcalls
      obtain ⟨result, hresult⟩ := horderly.lively event.fetch f _
        (List.getElem?_set_self hindex) hcalls.symm.eq_nil
      rw [hresult] at hunfinished
      exact absurd rfl hunfinished

/-- When no event is left all fetches are over. -/
theorem Orderly.finished (h : b.Orderly name) (hevents : b.events = []) {i : Nat}
    (hstarted : b.started[i]? = some (f, state)) : ∃ result, state = .finished result := by
  have hcalls := h.calls i
  rw [hevents, pending, hstarted] at hcalls
  exact h.lively i f state hstarted hcalls.symm.eq_nil

/-! ### The end of a batch -/

/-- How many calls there are still to answer, at most. -/
def left (b : Batch) : Nat :=
  (b.started.map fun e => e.1.left e.2).sum + (b.waiting.map Fetch.maxCalls).sum

/-- Starting a fetch leaves the number of calls to answer as it is. -/
theorem left_startNext (b : Batch) : b.startNext.left = b.left := by
  cases hwaiting : b.waiting with
  | nil => rw [startNext_nil hwaiting]
  | cons f waiting =>
      rw [startNext_cons hwaiting, left, left, hwaiting]
      simp only [List.map_append, List.sum_append, List.map_cons, List.sum_cons, List.map_nil,
        List.sum_nil, Fetch.left]
      omega

/-- A sum gets smaller when one of its terms does. -/
theorem sum_map_set_lt {α : Type} {l : List α} {g : α → Nat} {i : Nat} {a a' : α}
    (h : l[i]? = some a) (hlt : g a' < g a) : ((l.set i a').map g).sum < (l.map g).sum := by
  induction l generalizing i with
  | nil => cases h
  | cons first rest ih =>
      cases i with
      | zero =>
          cases h
          simp only [List.set_cons_zero, List.map_cons, List.sum_cons]
          omega
      | succ i =>
          have hrest := ih h
          simp only [List.set_cons_succ, List.map_cons, List.sum_cons]
          omega

/-- With each event there is less left to do. -/
theorem Orderly.left_next_lt (h : b.Orderly name) (hevents : b.events.Perm (event :: others)) :
    (b.next name event others).left < b.left := by
  obtain ⟨f, state, node, hstarted, hcall, -, -, hnext⟩ := h.exists_next hevents
  have hset (after : FetchState) (hless : f.left after < f.left state) :
      ((b.started.set event.fetch (f, after)).map fun e => e.1.left e.2).sum +
        (b.waiting.map Fetch.maxCalls).sum < b.left :=
    Nat.add_lt_add_right (sum_map_set_lt hstarted hless) _
  rw [hnext]
  split
  · rw [left_startNext]
    exact hset _ (Fetch.left_resume_lt _ _ _ hcall)
  · exact hset _ (Fetch.left_resume_lt _ _ _ hcall)

/-- An event that is under way is taken, and it is one of a peer that answers. -/
def Takes (name : String) (b b' : Batch) : Prop :=
  ∃ event others endpoint, b.events.Perm (event :: others) ∧ event.route = .reached endpoint ∧
    b' = b.next name event others

/-- As many steps as there are calls left to answer bring a batch to its end. -/
theorem Orderly.events_run (h : b.Orderly name) {fuel : Nat} (hfuel : b.left ≤ fuel) :
    (b.run name fuel).events = [] := by
  induction fuel generalizing b with
  | zero =>
      cases hnext : Event.earliest? b.events with
      | none => exact Event.eq_nil_of_earliest? hnext
      | some taken =>
          have hless := h.left_next_lt (Event.perm_of_earliest? hnext)
          omega
  | succ fuel ih =>
      rw [run, step]
      cases hnext : Event.earliest? b.events with
      | none => exact Event.eq_nil_of_earliest? hnext
      | some taken =>
          have hevents := Event.perm_of_earliest? hnext
          have hless := h.left_next_lt hevents
          exact ih (h.next hevents) (Nat.le_of_lt_succ (hless.trans_le hfuel))

/-- Every call of a batch is answered, if its events are taken in the order of time. -/
def Answered (b : Batch) (name : String) : Prop :=
  ∀ steps, ∀ event ∈ (b.run name steps).events, ∃ endpoint, event.route = .reached endpoint

/-- Events that are taken in the order of time are taken in some order. -/
theorem takes_run (h : b.Answered name) (fuel : Nat) :
    Relation.ReflTransGen (Takes name) b (b.run name fuel) := by
  induction fuel generalizing b with
  | zero => exact .refl
  | succ fuel ih =>
      have hfirst : ∀ event ∈ b.events, ∃ endpoint, event.route = .reached endpoint := h 0
      rw [run, step]
      cases hnext : Event.earliest? b.events with
      | none => exact .refl
      | some taken =>
          have hevents := Event.perm_of_earliest? hnext
          obtain ⟨endpoint, hroute⟩ := hfirst taken.1 (hevents.mem_iff.mpr List.mem_cons_self)
          refine .head ⟨taken.1, taken.2, endpoint, hevents, hroute, rfl⟩ (ih fun steps => ?_)
          have hlater := h (steps + 1)
          rw [run, step, hnext] at hlater
          exact hlater

/-! ### The start of a batch -/

/-- What starting one fetch keeps, starting several ones keeps. -/
theorem startMany_induction {p : Batch → Prop} (hstart : ∀ b, p b → p b.startNext) (count : Nat)
    (h : p b) : p (b.startMany count) := by
  induction count generalizing b with
  | zero => exact h
  | succ count ih => exact ih (hstart b h)

/-- Starting several fetches leaves the number of calls to answer as it is. -/
theorem left_startMany (count : Nat) (b : Batch) : (b.startMany count).left = b.left :=
  startMany_induction (p := fun b' => b'.left = b.left)
    (fun b' h => (left_startNext b').trans h) count rfl

/-- After some fetches were started, some event is to come or nothing waits. -/
theorem busy_startMany {count : Nat} (h : 0 < count) (b : Batch) : (b.startMany count).Busy := by
  cases count with
  | zero => cases h
  | succ count =>
      exact startMany_induction (fun b _ => busy_startNext b) count (busy_startNext b)

/-- The reports of the fetches that are over, in order. -/
def reports (b : Batch) : List (Address × Except SyncError FetchReport) :=
  b.started.filterMap fun (f, state) => report? f state

end Batch

/-! ### Fetching from several peers -/

/-- The fetch of a node from a peer. -/
def Node.fetchFrom (node : Node) (repo : RepoId) (scope : Scope) (peer : Address) : Fetch :=
  ⟨node.id, node.registry, node.config.sync, repo, peer, scope⟩

namespace Network

variable {n : Network} {name : String} {node : Node} {repo : RepoId} {peers : List Address}
  {scope : Scope}

/-- The fetches of a node from several peers, as many of them started as may run. -/
def batch (n : Network) (node : Node) (repo : RepoId) (peers : List Address) (scope : Scope) :
    Batch :=
  let fetches := peers.map (node.fetchFrom repo scope)
  Batch.startMany (min (max 1 node.config.sync.maxFetches.toNat) fetches.length)
    ⟨n, [], fetches, []⟩

/-- A node fetches from several peers, who answer all calls. What is under way is taken in any
order. -/
def Fetches (n : Network) (name : String) (node : Node) (repo : RepoId) (peers : List Address)
    (scope : Scope) (reports : List (Address × Except SyncError FetchReport)) (after : Network) :
    Prop :=
  ∃ b, Relation.ReflTransGen (Batch.Takes name) (n.batch node repo peers scope) b ∧
    b.events = [] ∧ b.reports = reports ∧ b.network = after

/-- At the start the events are the calls under way, and the node is there. -/
theorem orderly_batch (h : ∃ node, n.nodes.get? name = some node) (node : Node) (repo : RepoId)
    (peers : List Address) (scope : Scope) : (n.batch node repo peers scope).Orderly name := by
  refine Batch.startMany_induction (p := fun b => b.Orderly name)
    (fun _ => Batch.Orderly.startNext) _ ⟨fun _ => .refl _, fun _ _ _ hstarted => ?_, h⟩
  cases hstarted

/-- At the start some event is to come or nothing waits. -/
theorem busy_batch (n : Network) (node : Node) (repo : RepoId) (peers : List Address)
    (scope : Scope) : (n.batch node repo peers scope).Busy := by
  cases peers with
  | nil =>
      rw [batch, List.map_nil, List.length_nil, Nat.min_zero]
      exact fun _ => rfl
  | cons peer peers =>
      refine Batch.busy_startMany ?_ _
      rw [List.map_cons, List.length_cons]
      omega

/-- Fetching in the order of time is fetching in some order, and it comes to its end. -/
theorem fetches_fetchAll (hnode : ∃ node, n.nodes.get? name = some node)
    (h : (n.batch node repo peers scope).Answered name) :
    n.Fetches name node repo peers scope (n.fetchAll name node repo peers scope).1
      (n.fetchAll name node repo peers scope).2 := by
  refine ⟨_, Batch.takes_run h _, Batch.Orderly.events_run (orderly_batch hnode _ _ _ _) ?_, rfl,
    rfl⟩
  rw [batch, Batch.left_startMany, Batch.left, List.map_nil, List.sum_nil, Nat.zero_add,
    List.sum_eq_foldr, List.foldr_map]
  exact Nat.le_refl _

end Network

end SignedRefs
