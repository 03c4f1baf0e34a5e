import SignedRefs.Proofs.Network.Community

/-!
# Agreement among Nodes

Copies of a node's namespace reach other nodes late, over third parties, and among whatever else
peers send. If nobody can make the node's signatures (`Community.Unforgeable`), each copy is one of
the manifests that the node itself had in its own namespace at some time (`Community.Published`),
and of these only one has the number of the copy.

The invariant of a run is `Community.Coherent`. A node that writes publishes what it writes, under a
number above all those it has published before. What is brought to any node under the signature of
the node was signed in a write before, and what was signed was published then.

## Main results

* `Community.published_of_signed`: what a node signed it published.
* `Community.Coherent.step`, `Community.coherent_of_unforgeable`: an event and a run keep the
  invariant.
* `Community.published_unique`: a node publishes one manifest under each number.
* `Community.agreement`: what the nodes' stores hold of each other's namespaces after any run.
-/

namespace SignedRefs

namespace Community

variable {nodes : Community} {events : List (String × NodeEvent)} {name owner holder : String}
  {node own other : Node} {event : NodeEvent} {repo : RepoId} {signed : SignedManifest}

/-! ### Signing and publishing -/

/-- A node has signed a manifest in a write of its own namespace. -/
def Signed (nodes : Community) (events : List (String × NodeEvent)) (owner : String)
    (signed : SignedManifest) : Prop :=
  ∃ earlier now repo edit node, earlier ++ [(owner, .write now repo edit)] <+: events ∧
    (nodes.afterAll earlier).get? owner = some node ∧ node.Signs repo edit signed

/-- Only a node makes its signatures: what is brought to anybody and passes as a manifest of a node
of the community was signed by that node before. -/
def Unforgeable (nodes : Community) (events : List (String × NodeEvent)) : Prop :=
  ∀ earlier name event, earlier ++ [(name, event)] <+: events →
    ∀ signed, event.Brings signed → signed.verify = .ok () →
      ∀ owner node, nodes.get? owner = some node → node.id = signed.manifest.identity →
        nodes.Signed earlier owner signed

/-- A manifest has been in the own namespace of a node, in the node's own store. -/
def Published (nodes : Community) (events : List (String × NodeEvent)) (owner : String)
    (repo : RepoId) (signed : SignedManifest) : Prop :=
  ∃ earlier node, earlier <+: events ∧ (nodes.afterAll earlier).get? owner = some node ∧
    node.store.held repo node.id = .ok (some signed)

/-- If no signature is forged in a run, none is at its beginning. -/
theorem Unforgeable.of_append {events' : List (String × NodeEvent)}
    (h : nodes.Unforgeable (events ++ events')) : nodes.Unforgeable events :=
  fun earlier name event hstart => h earlier name event (hstart.trans (List.prefix_append _ _))

/-- Whether signatures are forged is a matter of what each event brings. -/
theorem unforgeable_concat_iff : nodes.Unforgeable (events ++ [(name, event)]) ↔
    nodes.Unforgeable events ∧ ∀ signed, event.Brings signed → signed.verify = .ok () →
      ∀ owner node, nodes.get? owner = some node → node.id = signed.manifest.identity →
        nodes.Signed events owner signed := by
  constructor
  · exact fun h => ⟨h.of_append, h events name event (List.prefix_refl _)⟩
  · rintro ⟨hbefore, hlast⟩ earlier name' event' hstart
    rcases List.prefix_concat_iff.mp hstart with heq | hstart
    · obtain ⟨rfl, hpair⟩ := List.append_inj' heq rfl
      cases hpair
      exact hlast
    · exact hbefore earlier name' event' hstart

/-- What was published once stays so. -/
theorem Published.append (h : nodes.Published events owner repo signed)
    (events' : List (String × NodeEvent)) :
    nodes.Published (events ++ events') owner repo signed := by
  obtain ⟨earlier, node, hstart, hnode, hheld⟩ := h
  exact ⟨earlier, node, hstart.trans (List.prefix_append _ _), hnode, hheld⟩

/-- The last event concerns one node. -/
theorem get?_afterAll_concat (name' : String) :
    (nodes.afterAll (events ++ [(name, event)])).get? name' =
      if name' = name then ((nodes.afterAll events).get? name').map fun node => node.after event
      else (nodes.afterAll events).get? name' := by
  rw [afterAll_append]
  exact get?_after _ _ _ _

/-- What a node signed and what passes as its own it published. -/
theorem published_of_signed (h : nodes.Signed events owner signed)
    (hverify : signed.verify = .ok ()) :
    nodes.Published events owner signed.manifest.repo signed := by
  obtain ⟨earlier, now, repo, edit, node, hstart, hnode, hsigns⟩ := h
  have hrepo : signed.manifest.repo = repo := by
    obtain ⟨_, -, hsign, -⟩ := hsigns
    exact (Node.place_of_sign hsign).1
  refine ⟨_, node.after (.write now repo edit), hstart, ?_, ?_⟩
  · rw [get?_afterAll_concat, if_pos rfl, hnode]
    rfl
  · rw [hrepo, Node.after_id]
    exact Node.held_of_signs hsigns hverify

/-- A node keeps its identity. -/
theorem exists_get?_of_afterAll (h : (nodes.afterAll events).get? name = some node) :
    ∃ first, nodes.get? name = some first ∧ first.id = node.id := by
  induction events using List.reverseRecOn generalizing node with
  | nil => exact ⟨node, h, rfl⟩
  | append_singleton events e ih =>
      obtain ⟨name', event⟩ := e
      rw [get?_afterAll_concat] at h
      split at h
      · obtain ⟨before, hbefore, rfl⟩ := Option.map_eq_some_iff.mp h
        obtain ⟨first, hfirst, hid⟩ := ih hbefore
        exact ⟨first, hfirst, hid.trans (before.after_id event).symm⟩
      · exact ih h

/-! ### The invariant -/

/-- The nodes have different identities. -/
def Distinct (nodes : Community) : Prop :=
  ∀ name name' node node', nodes.get? name = some node → nodes.get? name' = some node' →
    node.id = node'.id → name = name'

/-- The stores of all nodes are empty. -/
def Fresh (nodes : Community) : Prop :=
  ∀ name node, nodes.get? name = some node →
    ∀ repo identity, node.store.load repo identity = .ok none

/-- Nobody holds anything of a node but what it published, and the node itself holds the last. -/
structure Coherent (nodes : Community) (events : List (String × NodeEvent)) : Prop where
  /-- Look-ups succeed. -/
  found : ∀ name node, (nodes.afterAll events).get? name = some node →
    ∀ repo identity, ∃ found, node.store.held repo identity = .ok found
  /-- What a node's store holds of a node was published by that node. -/
  published : ∀ owner own holder other repo signed,
    (nodes.afterAll events).get? owner = some own →
      (nodes.afterAll events).get? holder = some other →
        other.store.held repo own.id = .ok (some signed) → nodes.Published events owner repo signed
  /-- What a node holds of itself is above everything else that it published. -/
  newest : ∀ owner own repo signed, (nodes.afterAll events).get? owner = some own →
    nodes.Published events owner repo signed →
      ∃ current, own.store.held repo own.id = .ok (some current) ∧
        (signed = current ∨ signed.manifest.sequence < current.manifest.sequence)

/-- At the start nobody holds anything. -/
theorem Coherent.start (h : nodes.Fresh) : nodes.Coherent [] := by
  have hnone : ∀ {name node}, nodes.get? name = some node →
      ∀ repo identity, node.store.held repo identity = .ok none := fun hnode repo identity => by
    rw [Store.held, h _ _ hnode]
    rfl
  refine ⟨fun _ _ hnode repo identity => ⟨none, hnone hnode repo identity⟩,
    fun _ _ _ _ _ _ _ hother hheld => ?_, ?_⟩
  · rw [hnone hother] at hheld
    cases hheld
  · rintro owner own repo signed - ⟨earlier, node, hstart, hnode, hheld⟩
    obtain rfl := List.prefix_nil.mp hstart
    rw [hnone hnode] at hheld
    cases hheld

/-- In an event at one of the nodes, this node accepts a manifest in some place. -/
structure Takes (nodes : Community) (events : List (String × NodeEvent)) (name : String)
    (event : NodeEvent) (place : Place) (signed : SignedManifest) : Prop where
  /-- All else is as it was. -/
  before : ∀ name' after, (nodes.afterAll (events ++ [(name, event)])).get? name' = some after →
    ∃ before, (nodes.afterAll events).get? name' = some before ∧ before.id = after.id ∧
      ∀ repo identity, after.store.held repo identity =
        if name' = name ∧ repo = place.repo ∧ identity = place.identity then .ok (some signed)
        else before.store.held repo identity
  /-- It is above what the node had there. -/
  newer : ∀ node current, (nodes.afterAll events).get? name = some node →
    node.store.held place.repo place.identity = .ok (some current) →
      current.manifest.sequence < signed.manifest.sequence
  /-- The node writes it for itself, or its owner has published it. -/
  origin : ∀ owner own, (nodes.afterAll events).get? owner = some own → own.id = place.identity →
    owner = name ∨ nodes.Published events owner place.repo signed

/-- Where an event changes a node, the node accepts a manifest. -/
theorem takes_of_replace {now : Int64} {identity : PeerId} {replaced : Store.Replaced}
    {store : Store} (hdistinct : nodes.Distinct)
    (hunforgeable : nodes.Unforgeable (events ++ [(name, event)]))
    (hnode : (nodes.afterAll events).get? name = some node)
    (hreplace : node.store.replace now repo identity signed = .ok (replaced, store))
    (hafter : node.after event = { node with store := store })
    (horigin : event.Brings signed ∨ identity = node.id) :
    nodes.Takes events name event ⟨repo, identity⟩ signed := by
  obtain ⟨hprevious, haccept, -, -, -⟩ := Store.replace_eq_ok_iff.mp hreplace
  refine ⟨fun name' after hget => ?_, fun node' current hnode' hheld => ?_,
    fun owner own hown hid => ?_⟩
  · rw [get?_afterAll_concat] at hget
    split at hget
    · next hname =>
        rw [hname, hnode, Option.map_some, hafter] at hget
        cases hget
        refine ⟨node, hname ▸ hnode, rfl, fun repo' identity' => ?_⟩
        simp only [Store.held_of_replace hreplace, hname, true_and]
    · next hname => exact ⟨after, hget, rfl, fun repo' identity' => by simp [hname]⟩
  · rw [hnode] at hnode'
    cases hnode'
    obtain ⟨stored, hstored, rfl⟩ := Store.held_eq_some_iff.mp hheld
    rw [hstored] at hprevious
    exact haccept.newer stored (Except.ok.inj hprevious).symm
  · obtain ⟨first, hfirst, hfirstId⟩ := exists_get?_of_afterAll hown
    rcases horigin with hbrings | hself
    · have hverify : signed.verify = .ok () := by
        rw [SignedManifest.verify_eq_ok_iff, haccept.identity_eq]
        exact haccept.signature
      have hsigned := (unforgeable_concat_iff.mp hunforgeable).2 signed hbrings hverify owner first
        hfirst (by rw [hfirstId, hid, haccept.identity_eq])
      exact .inr (haccept.repo_eq ▸ published_of_signed hsigned hverify)
    · obtain ⟨firstNode, hfirstNode, hfirstNodeId⟩ := exists_get?_of_afterAll hnode
      refine .inl (hdistinct owner name first firstNode hfirst hfirstNode ?_)
      rw [hfirstId, hid, hself, hfirstNodeId]

/-- An event leaves all nodes as they were, or one of them accepts a manifest. -/
theorem concat_cases (hdistinct : nodes.Distinct)
    (hunforgeable : nodes.Unforgeable (events ++ [(name, event)])) :
    nodes.afterAll (events ++ [(name, event)]) = nodes.afterAll events ∨
      ∃ place signed, nodes.Takes events name event place signed := by
  have hunchanged (h : ∀ node, (nodes.afterAll events).get? name = some node →
      node.after event = node) :
      nodes.afterAll (events ++ [(name, event)]) = nodes.afterAll events := by
    refine SortedMap.ext fun name' => ?_
    rw [get?_afterAll_concat]
    split
    · next hname =>
        rw [hname]
        cases hnode : (nodes.afterAll events).get? name with
        | none => rfl
        | some node => rw [Option.map_some, h node hnode]
    · rfl
  cases hnode : (nodes.afterAll events).get? name with
  | none => exact .inl (hunchanged fun node h => absurd (hnode.symm.trans h) nofun)
  | some node =>
      rcases node.after_cases event with hsame | ⟨now, repo, identity, signed, replaced, store,
        hreplace, hafter, horigin⟩
      · refine .inl (hunchanged fun node' h => ?_)
        rw [hnode] at h
        cases h
        exact hsame
      · exact .inr ⟨⟨repo, identity⟩, signed, takes_of_replace hdistinct hunforgeable hnode
          hreplace hafter (horigin.imp_right And.left)⟩

/-- What has been published after one more event was published before, or is in its place now. -/
theorem Published.of_concat (h : nodes.Published (events ++ [(name, event)]) owner repo signed) :
    nodes.Published events owner repo signed ∨
      ∃ own, (nodes.afterAll (events ++ [(name, event)])).get? owner = some own ∧
        own.store.held repo own.id = .ok (some signed) := by
  obtain ⟨earlier, node, hstart, hnode, hheld⟩ := h
  rcases List.prefix_concat_iff.mp hstart with rfl | hstart
  · exact .inr ⟨node, hnode, hheld⟩
  · exact .inl ⟨earlier, node, hstart, hnode, hheld⟩

/-- An event keeps the invariant. -/
theorem Coherent.step (hdistinct : nodes.Distinct) (h : nodes.Coherent events)
    (hunforgeable : nodes.Unforgeable (events ++ [(name, event)])) :
    nodes.Coherent (events ++ [(name, event)]) := by
  rcases concat_cases hdistinct hunforgeable with hsame | ⟨place, taken, htakes⟩
  · refine ⟨?_, ?_, ?_⟩
    · rw [hsame]
      exact h.found
    · rw [hsame]
      intro owner own holder other repo signed hown hother hheld
      exact (h.published owner own holder other repo signed hown hother hheld).append _
    · intro owner own repo signed hown hpublished
      rw [hsame] at hown
      rcases hpublished.of_concat with hpublished | ⟨own', hown', hheld⟩
      · exact h.newest owner own repo signed hown hpublished
      · rw [hsame, hown] at hown'
        cases hown'
        exact ⟨signed, hheld, .inl rfl⟩
  · refine ⟨fun name' node hnode repo identity => ?_, ?_, ?_⟩
    · obtain ⟨before, hbefore, -, hheld⟩ := htakes.before name' node hnode
      rw [hheld]
      split
      · exact ⟨_, rfl⟩
      · exact h.found name' before hbefore repo identity
    · intro owner own holder other repo signed hown hother hheld
      obtain ⟨ownBefore, hownBefore, hid, hownHeld⟩ := htakes.before owner own hown
      obtain ⟨otherBefore, hotherBefore, -, hotherHeld⟩ := htakes.before holder other hother
      rw [hotherHeld] at hheld
      split at hheld
      · next hplace =>
          obtain ⟨-, rfl, hplaceId⟩ := hplace
          cases hheld
          rcases htakes.origin owner ownBefore hownBefore (hid.trans hplaceId) with hself | hearlier
          · refine ⟨_, own, List.prefix_refl _, hown, ?_⟩
            rw [hownHeld, if_pos ⟨hself, rfl, hplaceId⟩]
          · exact hearlier.append _
      · rw [← hid] at hheld
        exact (h.published owner ownBefore holder otherBefore repo signed hownBefore hotherBefore
          hheld).append _
    · intro owner own repo signed hown hpublished
      obtain ⟨before, hbefore, hid, hheld⟩ := htakes.before owner own hown
      rcases hpublished.of_concat with hpublished | ⟨own', hown', hheld'⟩
      · obtain ⟨current, hcurrent, horder⟩ := h.newest owner before repo signed hbefore hpublished
        rw [hid] at hcurrent
        by_cases hplace : owner = name ∧ repo = place.repo ∧ own.id = place.identity
        · refine ⟨taken, by rw [hheld, if_pos hplace], .inr ?_⟩
          obtain ⟨rfl, rfl, hplaceId⟩ := hplace
          rw [hplaceId] at hcurrent
          have hnewer := htakes.newer before current hbefore hcurrent
          rcases horder with rfl | hbelow
          · exact hnewer
          · exact UInt64.lt_trans hbelow hnewer
        · exact ⟨current, by rw [hheld, if_neg hplace, hcurrent], horder⟩
      · rw [hown] at hown'
        cases hown'
        exact ⟨signed, hheld', .inl rfl⟩

/-- A run keeps the invariant. -/
theorem coherent_of_unforgeable (hdistinct : nodes.Distinct) (hfresh : nodes.Fresh)
    (hunforgeable : nodes.Unforgeable events) : nodes.Coherent events := by
  induction events using List.reverseRecOn with
  | nil => exact .start hfresh
  | append_singleton events e ih => exact (ih hunforgeable.of_append).step hdistinct hunforgeable

/-! ### Agreement -/

/-- Of what it published, what a node holds is the only one with its number. -/
theorem Coherent.eq_of_held (h : nodes.Coherent events)
    (hown : (nodes.afterAll events).get? owner = some own) {current : SignedManifest}
    (hheld : own.store.held repo own.id = .ok (some current))
    (hpublished : nodes.Published events owner repo signed)
    (hsequence : signed.manifest.sequence = current.manifest.sequence) : signed = current := by
  obtain ⟨found, hfound, horder⟩ := h.newest owner own repo signed hown hpublished
  rw [hheld] at hfound
  cases hfound
  rcases horder with heq | hlt
  · exact heq
  · rw [hsequence] at hlt
    exact absurd hlt (UInt64.lt_irrefl _)

/-- A node publishes one manifest under each number: whichever of two was published last was held
when the other one had been published. -/
theorem published_unique (hdistinct : nodes.Distinct) (hfresh : nodes.Fresh)
    (hunforgeable : nodes.Unforgeable events) {signed' : SignedManifest}
    (h : nodes.Published events owner repo signed) (h' : nodes.Published events owner repo signed')
    (hsequence : signed.manifest.sequence = signed'.manifest.sequence) : signed = signed' := by
  obtain ⟨earlier, node, hstart, hnode, hheld⟩ := h
  obtain ⟨earlier', node', hstart', hnode', hheld'⟩ := h'
  have hcoherent {part : List (String × NodeEvent)} (hpart : part <+: events) :
      nodes.Coherent part := by
    obtain ⟨rest, rfl⟩ := hpart
    exact coherent_of_unforgeable hdistinct hfresh hunforgeable.of_append
  rcases List.prefix_or_prefix_of_prefix hstart hstart' with hle | hle
  · exact (hcoherent hstart').eq_of_held hnode' hheld' ⟨earlier, node, hle, hnode, hheld⟩ hsequence
  · exact ((hcoherent hstart).eq_of_held hnode hheld ⟨earlier', node', hle, hnode', hheld'⟩
      hsequence.symm).symm

/-- Nodes with different identities start with empty stores, and then anything happens to them:
writes, arrivals from whatever peers, and requests. Suppose that nobody else can make their
signatures, and that a node whose own namespace has the last number, 2⁶⁴ - 1, keeps to itself what
it signs in vain after that: only what it signs under a higher number than the stored one is signed
in the sense of `Node.Signs`, and so only this may be brought to anybody (`Community.Unforgeable`).
Then afterwards all look-ups succeed, and for every copy of a node's namespace that any node holds

* the node itself holds a namespace with the same or a higher number,
* the copy is a manifest that the node itself has held, and the only such manifest with its number,
* every other copy with this number has the same signed manifest and the same record.
-/
theorem agreement (nodes : Community) (events : List (String × NodeEvent))
    (hdistinct : nodes.Distinct) (hfresh : nodes.Fresh) (hunforgeable : nodes.Unforgeable events) :
    (∀ name node, (nodes.afterAll events).get? name = some node →
      ∀ repo identity, ∃ found, node.store.load repo identity = .ok found) ∧
    ∀ owner own holder other repo copy, (nodes.afterAll events).get? owner = some own →
      (nodes.afterAll events).get? holder = some other →
        other.store.load repo own.id = .ok (some copy) →
          (∃ current, own.store.load repo own.id = .ok (some current) ∧
            copy.sequence ≤ current.sequence) ∧
          nodes.Published events owner repo copy.signed ∧
          (∀ signed, nodes.Published events owner repo signed →
            signed.manifest.sequence = copy.sequence → signed = copy.signed) ∧
          ∀ holder' other' copy', (nodes.afterAll events).get? holder' = some other' →
            other'.store.load repo own.id = .ok (some copy') →
              copy'.sequence = copy.sequence →
                copy'.signed = copy.signed ∧ copy'.record = copy.record := by
  have hcoherent := coherent_of_unforgeable hdistinct hfresh hunforgeable
  refine ⟨fun name node hnode repo identity => ?_,
    fun owner own holder other repo copy hown hother hload => ?_⟩
  · obtain ⟨found, hfound⟩ := hcoherent.found name node hnode repo identity
    obtain ⟨stored, hstored, -⟩ := map_eq_ok_iff.mp hfound
    exact ⟨stored, hstored⟩
  · have hpublished {holder : String} {other : Node} {copy : Namespace}
        (hother : (nodes.afterAll events).get? holder = some other)
        (hload : other.store.load repo own.id = .ok (some copy)) :
        nodes.Published events owner repo copy.signed :=
      hcoherent.published owner own holder other repo copy.signed hown hother
        (Store.held_eq_some_iff.mpr ⟨copy, hload, rfl⟩)
    have honly {signed : SignedManifest} (h : nodes.Published events owner repo signed)
        (hsequence : signed.manifest.sequence = copy.sequence) : signed = copy.signed :=
      published_unique hdistinct hfresh hunforgeable h (hpublished hother hload) hsequence
    refine ⟨?_, hpublished hother hload, fun _ h => honly h,
      fun holder' other' copy' hother' hload' hsequence => ?_⟩
    · obtain ⟨signed, hheld, horder⟩ :=
        hcoherent.newest owner own repo copy.signed hown (hpublished hother hload)
      obtain ⟨current, hcurrent, rfl⟩ := Store.held_eq_some_iff.mp hheld
      refine ⟨current, hcurrent, ?_⟩
      rcases horder with heq | hlt
      · exact UInt64.le_of_eq (congrArg (fun s => s.manifest.sequence) heq)
      · exact UInt64.le_of_lt hlt
    · have hsigned := honly (hpublished hother' hload') hsequence
      have hrecord := copy'.record_eq
      rw [hsigned, copy.record_eq] at hrecord
      exact ⟨hsigned, (Except.ok.inj hrecord).symm⟩

end Community

namespace Lagging

open OutOfOrder (repo first valid_main)

/-- Alice's node. -/
def alice : Node := .new ⟨.replicate 32 1⟩ .inMemory .empty .standard

/-- Bob's node. -/
def bob : Node := .new ⟨.replicate 32 2⟩ .inDatabase .empty .standard

/-- The two nodes. -/
def nodes : Community := (SortedMap.empty.insert "alice" alice).insert "bob" bob

/-- Pointing the branch at a commit. -/
def pointed (number : UInt8) (refs : SortedMap RefName ObjectId) : SortedMap RefName ObjectId :=
  refs.insert (.head ⟨"main", valid_main⟩) ⟨.replicate 20 number⟩

/-- Alice's first manifest as it is sent. -/
def encoded : Bytes := first.encode.toOption.getD []

/-- Bob is sent this manifest. -/
def push : NodeEvent := .serve 1700000000001 (.push repo OutOfOrder.alice encoded)

/-- Alice writes her first manifest, Bob is sent it, and Alice writes another one. -/
def events : List (String × NodeEvent) :=
  [("alice", .write 1700000000000 repo (pointed 1)), ("bob", push),
    ("alice", .write 1700000000002 repo (pointed 2))]

/-- There is nobody but Alice and Bob. -/
theorem get?_nodes (name : String) : nodes.get? name =
    if name = "bob" then some bob else if name = "alice" then some alice else none := by
  simp only [nodes, SortedMap.get?_insert, SortedMap.get?_empty,
    Std.LawfulEqCmp.compare_eq_iff_eq]

/-- A node is Alice's or Bob's. -/
theorem alice_or_bob {name : String} {node : Node} (h : nodes.get? name = some node) :
    name = "alice" ∧ node = alice ∨ name = "bob" ∧ node = bob := by
  rw [get?_nodes] at h
  split at h
  · next hname => exact .inr ⟨hname, (Option.some.inj h).symm⟩
  · split at h
    · next hname => exact .inl ⟨hname, (Option.some.inj h).symm⟩
    · cases h

/-- Alice's node has her identity, and Bob's has another one. -/
theorem ids : alice.id = OutOfOrder.alice ∧ bob.id ≠ OutOfOrder.alice := by decide +kernel

/-- They have different identities. -/
theorem distinct : nodes.Distinct := by
  have hne : bob.id ≠ alice.id := by
    rw [ids.1]
    exact ids.2
  intro name name' node node' hnode hnode' hid
  rcases alice_or_bob hnode with ⟨rfl, rfl⟩ | ⟨rfl, rfl⟩
  · rcases alice_or_bob hnode' with ⟨rfl, rfl⟩ | ⟨rfl, rfl⟩
    · rfl
    · exact absurd hid.symm hne
  · rcases alice_or_bob hnode' with ⟨rfl, rfl⟩ | ⟨rfl, rfl⟩
    · exact absurd hid hne
    · rfl

/-- Their stores are empty. -/
theorem fresh : nodes.Fresh := by
  intro name node hnode repo identity
  rcases alice_or_bob hnode with ⟨rfl, rfl⟩ | ⟨rfl, rfl⟩
  · exact Backend.load_newStore .memory repo identity
  · exact Backend.load_newStore .database repo identity

/-- What Bob is sent Alice has signed. -/
theorem unforgeable : nodes.Unforgeable events := by
  have hevents : events = [] ++ [("alice", .write 1700000000000 repo (pointed 1))] ++
      [("bob", push)] ++ [("alice", .write 1700000000002 repo (pointed 2))] := rfl
  rw [hevents]
  simp only [Community.unforgeable_concat_iff]
  refine ⟨⟨⟨fun earlier _ _ h => ?_, fun _ h => False.elim h⟩, ?_⟩, fun _ h => False.elim h⟩
  · exact absurd (List.prefix_nil.mp h)
      (List.append_ne_nil_of_right_ne_nil _ (List.cons_ne_nil _ _))
  · rintro signed ⟨_, _, _, hpush, hdecode⟩ - owner node hnode hid
    cases hpush
    have hdecoded : SignedManifest.decode encoded = .ok first := by decide +kernel
    rw [hdecoded] at hdecode
    cases hdecode
    rcases alice_or_bob hnode with ⟨rfl, rfl⟩ | ⟨rfl, rfl⟩
    · exact ⟨[], _, repo, pointed 1, alice, List.prefix_refl _, get?_nodes _, none, rfl,
        by decide +kernel, nofun⟩
    · exact absurd hid ids.2

/-- Bob holds a manifest that Alice had, and she has gone on since. -/
theorem copy_published : ∃ own other copy current,
    (nodes.afterAll events).get? "alice" = some own ∧
      (nodes.afterAll events).get? "bob" = some other ∧
        other.store.load repo own.id = .ok (some copy) ∧ copy.signed = first ∧
          nodes.Published events "alice" repo first ∧
            own.store.load repo own.id = .ok (some current) ∧
              copy.sequence ≤ current.sequence := by
  obtain ⟨own, hown, hid⟩ : ∃ own, (nodes.afterAll events).get? "alice" = some own ∧
      own.id = alice.id := by
    simp [events, Community.afterAll, Community.get?_after, get?_nodes]
  have hother : (nodes.afterAll events).get? "bob" = some (bob.after push) := by
    simp [events, Community.afterAll, Community.get?_after, get?_nodes]
  have hheld : (bob.after push).store.held repo OutOfOrder.alice = .ok (some first) := by
    decide +kernel
  rw [← ids.1, ← hid] at hheld
  obtain ⟨copy, hload, hsigned⟩ := Store.held_eq_some_iff.mp hheld
  obtain ⟨-, hcopies⟩ := Community.agreement nodes events distinct fresh unforgeable
  obtain ⟨⟨current, hcurrent, hle⟩, hpublished, -⟩ :=
    hcopies "alice" own "bob" _ repo copy hown hother hload
  exact ⟨own, _, copy, current, hown, hother, hload, hsigned, hsigned ▸ hpublished, hcurrent, hle⟩

end Lagging

end SignedRefs
