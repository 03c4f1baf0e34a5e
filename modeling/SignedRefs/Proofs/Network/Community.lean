import SignedRefs.Proofs.Sync.Fetching

/-!
# Nodes among Other Peers

Three things happen to a node: it writes its own namespace, something arrives in one of its fetches,
and it answers a request. A community is a number of nodes to which such events happen, in any
order. What arrives and what is requested is up to the peers, who need not be nodes of the community
and may say anything.

## Main results

* `Node.after_cases`: what an event can do to a node.
* `Node.held_of_signs`: what a node signs is stored when it writes.
* `Node.exists_after_of_perform`, `Node.exists_afterAll_of_run`: authoring calls and fetches come
  down to events.
-/

namespace SignedRefs

/-- What can happen to a node. -/
inductive NodeEvent
  /-- It writes its own namespace. -/
  | write (now : Int64) (repo : RepoId)
      (edit : SortedMap RefName ObjectId → SortedMap RefName ObjectId)
  /-- In a fetch that has come to some state, something arrives for a call. -/
  | arrive (fetch : Fetch) (now : Int64) (state : FetchState) (call : Call) (arrival : Arrival)
  /-- It answers a request. -/
  | serve (now : Int64) (request : Request)

/-- A signed manifest is in what comes from other peers. -/
def NodeEvent.Brings (signed : SignedManifest) : NodeEvent → Prop
  | .write _ _ _ => False
  | .arrive _ _ _ _ arrival => ∃ encoded, arrival = .response (.manifest (some encoded)) ∧
      SignedManifest.decode encoded = .ok signed
  | .serve _ request => ∃ repo identity encoded, request = .push repo identity encoded ∧
      SignedManifest.decode encoded = .ok signed

/-! ### Nodes -/

namespace Node

/-- The node after an event. -/
def after (node : Node) : NodeEvent → Node
  | .write now repo edit =>
    match node.writeRefs now repo edit with
    | .ok (_, node) => node
    | .error _ => node
  | .arrive fetch now state call arrival =>
    { node with store := (fetch.resume now state node.store call arrival).2 }
  | .serve now request => { node with store := (node.store.respond now request).2 }

/-- The node after several events. -/
def afterAll (node : Node) (events : List NodeEvent) : Node := events.foldl after node

/-- One more event comes last. -/
theorem afterAll_append (node : Node) (events : List NodeEvent) (event : NodeEvent) :
    node.afterAll (events ++ [event]) = (node.afterAll events).after event := by
  rw [afterAll, List.foldl_append]
  rfl

variable {node : Node} {now : Int64} {repo : RepoId}

/-- A node signs the manifest that follows on its last one, with its refs edited. What a node would
sign when all numbers are used up does not count: there is no number to follow, and the store
refuses the one that is taken instead. -/
def Signs (node : Node) (repo : RepoId)
    (edit : SortedMap RefName ObjectId → SortedMap RefName ObjectId) (signed : SignedManifest) :
    Prop :=
  ∃ current, node.store.load repo node.id = .ok current ∧
    (node.nextManifest repo current edit).sign node.keys = .ok signed ∧
      ∀ stored, current = some stored → stored.sequence < signed.manifest.sequence

/-- An event leaves a node as it was, or its store accepts what the event brings or, if the event is
that it writes, what the node signed. -/
theorem after_cases (node : Node) (event : NodeEvent) :
    node.after event = node ∨ ∃ now repo identity signed replaced store,
      node.store.replace now repo identity signed = .ok (replaced, store) ∧
        node.after event = { node with store := store } ∧
          (event.Brings signed ∨ identity = node.id ∧
            ∃ edit, event = .write now repo edit ∧ node.Signs repo edit signed) := by
  cases event with
  | write now repo edit =>
      cases hwrite : node.writeRefs now repo edit with
      | error error => exact .inl (by rw [after, hwrite])
      | ok done =>
          obtain ⟨written, node'⟩ := done
          obtain ⟨current, signed, replaced, hload, hsign, hreplace, hnode, -⟩ :=
            writeRefs_eq_ok hwrite
          obtain ⟨hprevious, haccept, -, -, -⟩ := Store.replace_eq_ok_iff.mp hreplace
          have hidentity := (place_of_sign hsign).2
          rw [hidentity, hload] at hprevious
          refine .inr ⟨now, repo, signed.manifest.identity, signed, replaced, node'.store, hreplace,
            ?_, .inr ⟨hidentity, edit, rfl, current, hload, hsign, fun stored hstored => ?_⟩⟩
          · rw [after, hwrite]
            exact hnode
          · exact haccept.newer stored ((Except.ok.inj hprevious).symm.trans hstored)
  | arrive fetch now state call arrival =>
      rcases node.store.resume_cases fetch now state call arrival with hsame | ⟨repo, identity,
        encoded, signed, replaced, harrival, hdecode, hreplace⟩
      · exact .inl (by rw [after, hsame])
      · exact .inr ⟨now, repo, identity, signed, replaced, _, hreplace, rfl,
          .inl ⟨encoded, harrival, hdecode⟩⟩
  | serve now request =>
      rcases Store.respond_cases node.store now request with ⟨-, hsame⟩ | ⟨repo, identity, encoded,
        signed, replaced, store, hpush, hdecode, hreplace, hrespond⟩
      · exact .inl (by rw [after, hsame])
      · refine .inr ⟨now, repo, identity, signed, replaced, store, hreplace, ?_,
          .inl ⟨repo, identity, encoded, hpush, hdecode⟩⟩
        rw [after, hrespond]

/-- Events leave a node its identity. -/
@[simp] theorem after_id (node : Node) (event : NodeEvent) : (node.after event).id = node.id := by
  rcases node.after_cases event with hsame | ⟨_, _, _, _, _, _, -, hafter, -⟩
  · rw [hsame]
  · rw [hafter]

/-- What a node signs and what passes as its own is stored when it writes. -/
theorem held_of_signs {edit : SortedMap RefName ObjectId → SortedMap RefName ObjectId}
    {signed : SignedManifest} (h : node.Signs repo edit signed) (hverify : signed.verify = .ok ()) :
    (node.after (.write now repo edit)).store.held repo node.id = .ok (some signed) := by
  obtain ⟨current, hload, hsign, hnewer⟩ := h
  obtain ⟨hrepo, hidentity⟩ := place_of_sign hsign
  obtain ⟨message, hmessage, hkey⟩ := SignedManifest.verify_eq_ok_iff.mp hverify
  rw [hidentity] at hkey
  have haccept : Acceptable repo node.id signed current :=
    ⟨hidentity, hrepo, (Manifest.signingBytes_eq_ok_iff.mp hmessage).1, ⟨message, hmessage, hkey⟩,
      hnewer⟩
  obtain ⟨⟨replaced, store⟩, hreplace⟩ := Store.exists_replace hload haccept now
  simp only [after, writeRefs_of_replace hload hsign hreplace, Store.held_of_replace hreplace,
    and_self, if_true]

/-- An authoring call leaves a node as it was, or comes down to writing the own namespace. -/
theorem exists_after_of_perform {node' : Node} {call : LocalCall}
    (h : node.perform now repo call = .ok node') :
    ∃ edit, node' = node.after (.write now repo edit) := by
  obtain ⟨edit, written, hwrite⟩ := perform_eq_ok h
  exact ⟨edit, by rw [after, hwrite]⟩

/-- A fetch comes down to arrivals. -/
theorem exists_afterAll_of_run (node : Node) (f : Fetch) (b : Behaviour) (order : List Call) :
    ∃ events, node.afterAll events = { node with store := (f.run b node.store order).2 } := by
  induction order using List.reverseRecOn with
  | nil => exact ⟨[], rfl⟩
  | append_singleton order call ih =>
      obtain ⟨events, hevents⟩ := ih
      refine ⟨events ++
        [.arrive f (b.clock call) (f.run b node.store order).1 call (b.arrival call)], ?_⟩
      rw [afterAll_append, hevents, Fetch.run_append]
      rfl

end Node

/-! ### Communities -/

/-- Nodes by name. -/
abbrev Community := SortedMap String Node

namespace Community

/-- The community after an event at one of its nodes. -/
def after (nodes : Community) (e : String × NodeEvent) : Community :=
  match nodes.get? e.1 with
  | some node => nodes.insert e.1 (node.after e.2)
  | none => nodes

/-- The community after several events. -/
def afterAll (nodes : Community) (events : List (String × NodeEvent)) : Community :=
  events.foldl after nodes

/-- Events that come later happen to what the earlier ones have left. -/
theorem afterAll_append (nodes : Community) (events events' : List (String × NodeEvent)) :
    nodes.afterAll (events ++ events') = (nodes.afterAll events).afterAll events' :=
  List.foldl_append

/-- An event concerns one node. -/
theorem get?_after (nodes : Community) (name name' : String) (event : NodeEvent) :
    (nodes.after (name, event)).get? name' =
      if name' = name then (nodes.get? name').map fun node => node.after event
      else nodes.get? name' := by
  rw [after]
  by_cases hname : name' = name
  · rw [if_pos hname, hname]
    cases hnode : nodes.get? name with
    | none => exact hnode
    | some node => exact SortedMap.get?_insert_self _ _ _
  · rw [if_neg hname]
    cases nodes.get? name with
    | none => rfl
    | some node => exact SortedMap.get?_insert_of_ne _ hname _

end Community

end SignedRefs
