import SignedRefs.Network.Fetching
import SignedRefs.Proofs.Store.Independence
import SignedRefs.Proofs.Tracking.Decisions

/-!
# Fetches from Beginning to End

A fetch is driven from outside: for each call that it makes something comes, or nothing in time, and
what comes for the requests that run side by side may come in any order. Whatever the order, a fetch
that is over has done what it would have done with one request after another (`Fetch.inTurn`). The
invariant (`Fetch.Progress`) says so of the requests that have been answered; those that are running
or waiting make up the rest of the identities that are asked for.

## Main results

* `Fetch.receive_comm`, `Fetch.receiveAll_perm`: the order of the answers does not matter.
* `Fetch.Progress.take`, `Fetch.Progress.run`: an answer and a run keep the invariant.
* `Fetch.inTurn_of_run`: what a fetch has done when it is over.
* `Fetch.length_le_of_orderly`, `Fetch.exists_finished`: every fetch comes to its end.
-/

namespace SignedRefs

/-- What a fetch meets with. -/
structure Behaviour where
  /-- What comes for a call. -/
  arrival : Call → Arrival
  /-- The time on the clock when it comes. -/
  clock : Call → Int64

/-- The calls that have been made and not been answered. -/
def FetchState.pending : FetchState → List Call
  | .connecting => [.connect]
  | .listing => [.list]
  | .requesting _ running _ => running.map .request
  | .finished _ => []

namespace Fetch

variable {f : Fetch} {b : Behaviour} {store after : Store} {state : FetchState}
  {ids : List PeerId}

/-! ### Runs -/

/-- Takes what comes for a call. -/
def take (f : Fetch) (b : Behaviour) (s : FetchState × Store) (call : Call) : FetchState × Store :=
  let (step, store) := f.resume (b.clock call) s.1 s.2 call (b.arrival call)
  (step.1, store)

/-- How far a fetch has come, and the store, when calls have been answered in some order. -/
def run (f : Fetch) (b : Behaviour) (store : Store) (order : List Call) : FetchState × Store :=
  order.foldl (f.take b) (start.1, store)

/-- Calls are answered after they were made. -/
def Orderly (f : Fetch) (b : Behaviour) (store : Store) (order : List Call) : Prop :=
  ∀ answered call, answered ++ [call] <+: order → call ∈ (f.run b store answered).1.pending

/-- One more call is answered last. -/
theorem run_append (order : List Call) (call : Call) :
    f.run b store (order ++ [call]) = f.take b (f.run b store order) call := by
  rw [run, List.foldl_append]
  rfl

/-! ### One request after another -/

/-- Whether there is a connection. -/
def contact (f : Fetch) : Arrival → Except SyncError Unit
  | .timedOut => .error (.connection f.peer .timedOut)
  | .failed error => .error error
  | _ => .ok ()

/-- The identities to ask for, given a connection. -/
def wanted (f : Fetch) (b : Behaviour) : Except SyncError (List PeerId) :=
  match f.scope with
  | .all => (f.listed (b.arrival .list)).map fun listed =>
    (f.registry.candidates .all f.self listed).toList
  | scope => .ok (f.registry.candidates scope f.self []).toList

/-- The identities that are asked for. -/
def asked (f : Fetch) (b : Behaviour) : Except SyncError (List PeerId) := do
  f.contact (b.arrival .connect)
  f.wanted b

/-- Takes what comes for the request for an identity. -/
def receive (f : Fetch) (b : Behaviour) (s : SortedMap PeerId Outcome × Store) (id : PeerId) :
    SortedMap PeerId Outcome × Store :=
  let (outcome, store) :=
    (f.replyOf (b.arrival (.request id))).apply s.2 (b.clock (.request id)) f.repo id
  (s.1.insert id outcome, store)

/-- Takes what comes for the requests for several identities. -/
def receiveAll (f : Fetch) (b : Behaviour) (store : Store) (ids : List PeerId) :
    SortedMap PeerId Outcome × Store :=
  ids.foldl (f.receive b) (.empty, store)

/-- Connects, asks which identities there are, and requests one after another. -/
def inTurn (f : Fetch) (b : Behaviour) (store : Store) : FetchResult × Store :=
  match f.asked b with
  | .error error => (.error error, store)
  | .ok ids => (.ok (f.receiveAll b store ids).1, (f.receiveAll b store ids).2)

/-- One more answer is received last. -/
theorem receiveAll_append (ids : List PeerId) (id : PeerId) :
    f.receiveAll b store (ids ++ [id]) = f.receive b (f.receiveAll b store ids) id := by
  rw [receiveAll, List.foldl_append]
  rfl

/-- What comes for two identities can be taken in either order. -/
theorem receive_comm (s : SortedMap PeerId Outcome × Store) (id id' : PeerId) :
    f.receive b (f.receive b s id) id' = f.receive b (f.receive b s id') id := by
  by_cases hne : id = id'
  · rw [hne]
  · obtain ⟨hfirst, hsecond, hstore⟩ := Answer.apply_comm (f.replyOf (b.arrival (.request id)))
      (f.replyOf (b.arrival (.request id'))) s.2 (b.clock (.request id)) (b.clock (.request id'))
      f.repo hne
    refine Prod.ext ?_ hstore
    simp only [receive, hfirst, hsecond]
    exact s.1.insert_comm hne _ _

/-- The order of the answers does not matter. -/
theorem receiveAll_perm {ids' : List PeerId} (h : ids.Perm ids') :
    f.receiveAll b store ids = f.receiveAll b store ids' :=
  h.foldl_eq' (fun id _ id' _ s => receive_comm s id id') _

/-! ### The invariant -/

/-- What can be said of a fetch on the way, and of the store. -/
inductive Progress (f : Fetch) (b : Behaviour) (store : Store) : FetchState → Store → Prop
  /-- Nothing has come. -/
  | connecting : Progress f b store .connecting store
  /-- There is a connection. -/
  | listing (hcontact : f.contact (b.arrival .connect) = .ok ()) (hscope : f.scope = .all) :
    Progress f b store .listing store
  /-- Some requests have been answered, and the others are running or waiting. -/
  | requesting {ids answered waiting running : List PeerId} {outcomes : SortedMap PeerId Outcome}
      {after : Store} (hasked : f.asked b = .ok ids)
      (hids : (answered ++ (running ++ waiting)).Perm ids) (hrunning : running ≠ [])
      (hanswered : f.receiveAll b store answered = (outcomes, after)) :
    Progress f b store (.requesting waiting running outcomes) after
  /-- It is over. -/
  | finished {result : FetchResult} {after : Store} (h : f.inTurn b store = (result, after)) :
    Progress f b store (.finished result) after

/-- A fetch that cannot find out for whom to ask fails and leaves the store as it was. -/
theorem inTurn_of_error {error : SyncError} (h : f.asked b = .error error) :
    f.inTurn b store = (.error error, store) := by
  rw [inTurn, h]

/-- Otherwise it receives the answers for them. -/
theorem inTurn_of_ok (h : f.asked b = .ok ids) :
    f.inTurn b store = (.ok (f.receiveAll b store ids).1, (f.receiveAll b store ids).2) := by
  rw [inTurn, h]

/-- At least one request may be under way. -/
theorem width_pos (f : Fetch) : 0 < f.width := Nat.lt_of_lt_of_le Nat.one_pos (Nat.le_max_left _ _)

/-- The first requests start when it is known for which identities they are. -/
theorem Progress.request (h : f.asked b = .ok ids) :
    Progress f b store (f.request ids).1 store := by
  cases ids with
  | nil => exact .finished (inTurn_of_ok h)
  | cons id ids =>
      have hids : ([] ++ ((id :: ids).take f.width ++ (id :: ids).drop f.width)).Perm
          (id :: ids) := by rw [List.nil_append, List.take_append_drop]
      refine .requesting h hids ?_ rfl
      rw [Ne, List.take_eq_nil_iff]
      rintro (hwidth | hnil)
      · exact absurd hwidth (Nat.ne_of_gt f.width_pos)
      · cases hnil

/-- A connection leads to the list of identities or to the first requests. -/
theorem Progress.afterConnect :
    Progress f b store (f.afterConnect (b.arrival .connect)).1 store := by
  have hnext (hcontact : f.contact (b.arrival .connect) = .ok ()) : Progress f b store
      (match f.scope with
        | .all => ((.listing, [.list]) : FetchStep)
        | scope => f.request (f.registry.candidates scope f.self []).toList).1 store := by
    have hasked : f.asked b = f.wanted b := by
      rw [asked, hcontact]
      rfl
    cases hscope : f.scope with
    | all => exact .listing hcontact hscope
    | none =>
        refine .request (hasked.trans ?_)
        rw [wanted, hscope]
    | trusted =>
        refine .request (hasked.trans ?_)
        rw [wanted, hscope]
  cases harrival : b.arrival .connect with
  | timedOut =>
      refine .finished (inTurn_of_error ?_)
      rw [asked, harrival]
      rfl
  | failed error =>
      refine .finished (inTurn_of_error ?_)
      rw [asked, harrival]
      rfl
  | connected => exact hnext (by rw [harrival]; rfl)
  | response response => exact hnext (by rw [harrival]; rfl)

/-- The list of identities leads to the first requests. -/
theorem Progress.afterList (hcontact : f.contact (b.arrival .connect) = .ok ())
    (hscope : f.scope = .all) : Progress f b store (f.afterList (b.arrival .list)).1 store := by
  have hasked : f.asked b = (f.listed (b.arrival .list)).map fun listed =>
      (f.registry.candidates .all f.self listed).toList := by
    rw [asked, hcontact, wanted, hscope]
    rfl
  rw [Fetch.afterList]
  cases hlisted : f.listed (b.arrival .list) with
  | error error =>
      refine .finished (inTurn_of_error ?_)
      rw [hasked, hlisted]
      rfl
  | ok listed =>
      refine .request ?_
      rw [hasked, hlisted]
      rfl

/-- The answer to a request leads to the next one, or it is waited for others, or all have come. -/
theorem Progress.afterRequest {answered waiting running : List PeerId}
    {outcomes : SortedMap PeerId Outcome} (hasked : f.asked b = .ok ids)
    (hids : (answered ++ (running ++ waiting)).Perm ids)
    (hanswered : f.receiveAll b store answered = (outcomes, after)) :
    Progress f b store (Fetch.afterRequest waiting running outcomes).1 after := by
  cases waiting with
  | cons next waiting =>
      refine .requesting hasked ?_ (List.concat_ne_nil next running) hanswered
      rwa [List.append_assoc]
  | nil =>
      cases running with
      | cons id running => exact .requesting hasked hids (List.cons_ne_nil id running) hanswered
      | nil =>
          refine .finished ?_
          rw [List.append_nil, List.append_nil] at hids
          rw [inTurn_of_ok hasked, ← receiveAll_perm hids, hanswered]

/-- Whatever comes keeps the invariant. -/
theorem Progress.take (h : Progress f b store state after) (call : Call) :
    Progress f b store (f.take b (state, after) call).1 (f.take b (state, after) call).2 := by
  cases h with
  | connecting =>
      cases call with
      | connect => exact .afterConnect
      | list => exact .connecting
      | request id => exact .connecting
  | listing hcontact hscope =>
      cases call with
      | connect => exact .listing hcontact hscope
      | list => exact .afterList hcontact hscope
      | request id => exact .listing hcontact hscope
  | @requesting ids answered waiting running outcomes after hasked hids hrunning hanswered =>
      cases call with
      | connect => exact .requesting hasked hids hrunning hanswered
      | list => exact .requesting hasked hids hrunning hanswered
      | request id =>
          by_cases hid : id ∈ running
          · have htake : f.take b (.requesting waiting running outcomes, after) (.request id) =
                ((Fetch.afterRequest waiting (running.erase id)
                    (f.receive b (outcomes, after) id).1).1,
                  (f.receive b (outcomes, after) id).2) := by
              simp only [Fetch.take, resume, List.contains_iff_mem, hid, if_true]
              rfl
            rw [htake]
            have hrest : (id :: running.erase id ++ waiting).Perm (running ++ waiting) :=
              (List.perm_cons_erase hid).symm.append_right waiting
            have hids' : (answered ++ [id] ++ (running.erase id ++ waiting)).Perm ids := by
              rw [List.append_assoc]
              exact (hrest.append_left answered).trans hids
            refine .afterRequest hasked hids' ?_
            rw [receiveAll_append, hanswered]
          · have htake : f.take b (.requesting waiting running outcomes, after) (.request id) =
                (.requesting waiting running outcomes, after) := by
              simp only [Fetch.take, resume, List.contains_iff_mem, hid, if_false]
            rw [htake]
            exact .requesting hasked hids hrunning hanswered
  | finished h => exact .finished h

/-- What is said of a fetch on the way holds however calls have been answered. -/
theorem Progress.run (f : Fetch) (b : Behaviour) (store : Store) (order : List Call) :
    Progress f b store (f.run b store order).1 (f.run b store order).2 := by
  induction order using List.reverseRecOn with
  | nil => exact .connecting
  | append_singleton order call ih =>
      rw [run_append]
      exact ih.take call

/-- A fetch that is over has done what it would have done with one request after another. -/
theorem inTurn_of_run {order : List Call} {result : FetchResult}
    (h : (f.run b store order).1 = .finished result) :
    f.inTurn b store = (result, (f.run b store order).2) := by
  have hprogress := Progress.run f b store order
  rw [h] at hprogress
  cases hprogress with
  | finished h => exact h

/-! ### The end of a fetch -/

/-- A list of identities is one that came, and keeps the limit. -/
theorem listed_eq_ok_iff {arrival : Arrival} {listed : List PeerId} :
    f.listed arrival = .ok listed ↔
      arrival = .response (.namespaces listed) ∧ listed.length ≤ Limit.identities := by
  cases arrival with
  | timedOut => simp [Fetch.listed, replyOf]
  | failed error => simp [Fetch.listed, replyOf, Reply.identities, Reply.checked]
  | connected => simp [Fetch.listed, replyOf, Reply.identities, Reply.checked]
  | response response =>
      simp only [Fetch.listed, replyOf, Reply.identities, Reply.checked, Arrival.response.injEq]
      cases hvalid : response.validate with
      | error fault =>
          refine iff_of_false (fun h => by cases h) ?_
          rintro ⟨rfl, hlength⟩
          simp [Response.validate, Nat.not_lt.mpr hlength] at hvalid
      | ok _ =>
          cases response with
          | namespaces identities =>
              have hlength : identities.length ≤ Limit.identities := by
                by_contra hlong
                simp [Response.validate, Nat.not_le.mp hlong] at hvalid
              constructor
              · rintro ⟨⟩
                exact ⟨rfl, hlength⟩
              · rintro ⟨⟨⟩, -⟩
                rfl
          | manifest encoded => simp [Reply.unexpected]
          | accepted sequence => simp [Reply.unexpected]
          | error code text => simp

/-- There are no more candidates than tracked and listed identities. -/
theorem length_candidates_le (r : Registry) (scope : Scope) (self : PeerId) (listed : List PeerId) :
    (r.candidates scope self listed).toList.length ≤ r.tracked.length + listed.length := by
  have hset (l : List PeerId) :
      (SortedSet.toList ((SortedSet.ofList l).erase self)).length ≤ l.length := by
    refine (List.subperm_of_subset (SortedMap.nodup_keys _) fun id hid => ?_).length_le
    exact (Registry.contains_erase_ofList.mp (SortedMap.mem_keys_iff.mp hid)).2
  cases scope with
  | none => exact Nat.zero_le _
  | trusted => exact (hset _).trans (Nat.le_add_right _ _)
  | all =>
      refine (hset _).trans ?_
      rw [List.length_append]
      exact Nat.add_le_add_left (List.length_filter_le _ _) _

/-- How many calls there are still to answer, at most. -/
def left (f : Fetch) : FetchState → Nat
  | .connecting => f.maxCalls
  | .listing => f.maxCalls - 1
  | .requesting waiting running _ => running.length + waiting.length
  | .finished _ => 0

/-- When manifests are requested, there are no more calls to answer than identities to ask for. -/
theorem left_request_le (ids : List PeerId) : f.left (f.request ids).1 ≤ ids.length := by
  rw [Fetch.request]
  split
  · exact Nat.zero_le _
  · simp only [left, List.length_take, List.length_drop]
    omega

/-- After a connection there is less left. -/
theorem left_afterConnect_lt (arrival : Arrival) :
    f.left (f.afterConnect arrival).1 < f.maxCalls := by
  have hrequest (scope : Scope) : f.left
      (f.request (f.registry.candidates scope f.self []).toList).1 < f.maxCalls := by
    have hlength := length_candidates_le f.registry scope f.self []
    have hleft := left_request_le (f := f) (f.registry.candidates scope f.self []).toList
    rw [List.length_nil] at hlength
    rw [maxCalls]
    omega
  have hpos : 0 < f.maxCalls := by
    rw [maxCalls]
    omega
  unfold afterConnect
  split
  · exact hpos
  · exact hpos
  · split
    · exact Nat.sub_lt hpos Nat.one_pos
    · exact hrequest _

/-- After the list of identities there is less left. -/
theorem left_afterList_lt (arrival : Arrival) :
    f.left (f.afterList arrival).1 < f.maxCalls - 1 := by
  rw [afterList]
  cases hlisted : f.listed arrival with
  | error error =>
      simp only [left, maxCalls]
      omega
  | ok listed =>
      have hlength := length_candidates_le f.registry .all f.self listed
      have hleft := left_request_le (f := f) (f.registry.candidates .all f.self listed).toList
      have hlimit := (listed_eq_ok_iff.mp hlisted).2
      rw [maxCalls]
      dsimp only
      omega

/-- With each answer to a call there is less left. -/
theorem left_take_lt {call : Call} (h : call ∈ state.pending) :
    f.left (f.take b (state, store) call).1 < f.left state := by
  cases state with
  | connecting =>
      obtain rfl := List.mem_singleton.mp h
      exact left_afterConnect_lt _
  | listing =>
      obtain rfl := List.mem_singleton.mp h
      exact left_afterList_lt _
  | requesting waiting running outcomes =>
      obtain ⟨id, hid, rfl⟩ := List.mem_map.mp h
      have hlength := List.length_erase_of_mem hid
      have hpos := List.length_pos_of_mem hid
      simp only [take, resume, List.contains_iff_mem, hid, if_true]
      cases waiting with
      | cons next waiting =>
          simp only [afterRequest, left, List.length_append, List.length_cons, List.length_nil]
          omega
      | nil =>
          simp only [afterRequest]
          split
          · simp only [left]
            omega
          · simp only [left, List.length_nil]
            omega
  | finished result => cases h

/-- A fetch makes a limited number of calls. -/
theorem length_le_of_orderly {order : List Call} (h : f.Orderly b store order) :
    order.length + f.left (f.run b store order).1 ≤ f.maxCalls := by
  induction order using List.reverseRecOn with
  | nil => exact Nat.le_of_eq (Nat.zero_add _)
  | append_singleton order call ih =>
      have hbefore := ih fun answered call' hstart => h answered call' (hstart.trans
        (List.prefix_append _ _))
      have hless : f.left (f.take b (f.run b store order) call).1 <
          f.left (f.run b store order).1 := left_take_lt (h order call (List.prefix_refl _))
      rw [run_append, List.length_append, List.length_singleton]
      omega

/-- A fetch is over as soon as nothing is under way. -/
theorem exists_finished {order : List Call} (h : (f.run b store order).1.pending = []) :
    ∃ result, (f.run b store order).1 = .finished result := by
  have hprogress := Progress.run f b store order
  cases hstate : (f.run b store order).1 with
  | connecting =>
      rw [hstate] at h
      cases h
  | listing =>
      rw [hstate] at h
      cases h
  | requesting waiting running outcomes =>
      rw [hstate] at h hprogress
      cases hprogress with
      | requesting _ _ hrunning _ => exact absurd (List.map_eq_nil_iff.mp h) hrunning
  | finished result => exact ⟨result, rfl⟩

end Fetch

end SignedRefs
