import SignedRefs.Proofs.History.Leaf
import SignedRefs.Proofs.Node.Authoring
import SignedRefs.Proofs.Patch.Resolution

/-!
# Reading Back What Was Authored

A node that revises or closes a patch puts a change on the tip and moves its own ref to it. Nothing
else becomes visible by that, and what its ref led to before may even be lost from sight
(`Continued`). Whatever the names, times and branches of the other changes are, the new change is
the last one when the patch is read again. If the patch was open, a close by someone entitled to it
is then the only event there is.

## Main results

* `Continued.visible_of_ne`: what is visible afterwards, other than the new change, was so before.
* `Continued.tip_eq`: the new change is the tip.
* `Continued.latest_eq`: what it proposes is the latest revision.
* `Continued.closed`: what it closes is closed.
* `Node.read_back`: what a node authors it reads back on top.
-/

namespace SignedRefs

open Relation

namespace Patch

/-- A patch goes on: a graph and the namespaces have changed so that the ref of `owner` to the patch
leads to `change`, under the name `new`, which builds on the tip. -/
structure Continued (graph larger : ObjectGraph) (delegates : SortedSet PeerId)
    (before after : Snapshot) (owner : PeerId) (p : Patch) (new : ObjectId) (change : Change) :
    Prop where
  /-- The change is authentic. -/
  authentic : History.Authentic larger new change
  /-- It builds on the tip. -/
  parent : change.parent = some p.tip
  /-- Nothing else is new. -/
  same : ∀ x, x ≠ new → History.authentic? larger x = History.authentic? graph x
  /-- No other change had the name. -/
  unique : ∀ other, History.Authentic graph new other → other = change
  /-- Nothing built on it. -/
  childless : ∀ x other, History.Authentic graph x other → other.parent ≠ some new
  /-- The ref to the patch has moved. -/
  moved : ∀ peer, after.ref? peer (.patch p.id) =
    if peer = owner then some new else before.ref? peer (.patch p.id)
  /-- The target branch is where it was. -/
  heads : targetTips after delegates p.author p.target =
    targetTips before delegates p.author p.target
  /-- Commits are related as before. -/
  isAncestor : larger.isAncestor = graph.isAncestor

section

variable {graph larger : ObjectGraph} {delegates : SortedSet PeerId} {before after : Snapshot}
  {owner : PeerId} {p p' : Patch} {new : ObjectId} {change : Change}
  {events events' : Ending.Events}

/-- Nothing but the new change has become authentic. -/
theorem Continued.authentic_iff_of_ne
    (hc : Continued graph larger delegates before after owner p new change) {x : ObjectId}
    (hx : x ≠ new) {other : Change} :
    History.Authentic larger x other ↔ History.Authentic graph x other := by
  rw [History.Authentic, History.Authentic, hc.same x hx]

/-- What the graph knew it still knows. -/
theorem Continued.extended
    (hc : Continued graph larger delegates before after owner p new change) :
    graph.Extended larger := by
  refine ⟨fun {x other} hauth => ?_, hc.isAncestor⟩
  by_cases hx : x = new
  · subst hx
    rw [hc.unique other hauth]
    exact hc.authentic
  · exact (hc.authentic_iff_of_ne hx).mpr hauth

variable (hc : Continued graph larger delegates before after owner p new change)
  (h : Reading graph delegates before p events)

include hc h

/-- The new change is not the tip that it builds on. -/
theorem Continued.tip_ne : p.tip ≠ new := by
  intro htip
  obtain ⟨other, hauth⟩ := h.visible_tip.exists_authentic
  rw [htip] at hauth
  refine hc.childless new other hauth ?_
  rw [hc.unique other hauth, hc.parent, htip]

/-- The new change did not open the patch. -/
theorem Continued.ne_opening : new ≠ p.id := by
  intro hid
  have hopening := h.authentic_opening
  rw [← hid] at hopening
  have hparent := hc.parent
  rw [← hc.unique _ hopening] at hparent
  cases hparent

/-- It builds on the tip. -/
theorem Continued.buildsOn : History.BuildsOn larger p.id new p.tip :=
  ⟨hc.ne_opening h, change, hc.authentic, hc.parent⟩

/-- Nothing builds on it. -/
theorem Continued.not_buildsOn {x : ObjectId} : ¬History.BuildsOn larger p.id x new := by
  rintro ⟨-, other, hauth, hparent⟩
  by_cases hx : x = new
  · rw [hx] at hauth
    rw [hauth.unique hc.authentic, hc.parent] at hparent
    exact hc.tip_ne h (Option.some.inj hparent)
  · exact hc.childless x other ((hc.authentic_iff_of_ne hx).mp hauth) hparent

/-- The way down from any other change is as it was. -/
theorem Continued.path_of_ne {x a : ObjectId} (hx : x ≠ new)
    (hpath : ReflTransGen (History.BuildsOn larger p.id) x a) :
    ReflTransGen (History.BuildsOn graph p.id) x a := by
  induction hpath using ReflTransGen.head_induction_on with
  | refl => exact .refl
  | @head x q hq _ ih =>
      have hne : q ≠ new := fun heq => hc.not_buildsOn h (heq ▸ hq)
      obtain ⟨hroot, other, hauth, hparent⟩ := hq
      exact .head ⟨hroot, other, (hc.authentic_iff_of_ne hx).mp hauth, hparent⟩ (ih hne)

/-- What the new change leads to was led to before. -/
theorem Continued.met_of_path {x : ObjectId} (hx : x ≠ new)
    (hpath : ReflTransGen (History.BuildsOn larger p.id) new x) :
    History.Met graph p.id (before.patchTips p.id) x := by
  rcases ReflTransGen.cases_head hpath with rfl | ⟨q, hq, hpath⟩
  · exact absurd rfl hx
  · obtain rfl := hq.unique (hc.buildsOn h)
    obtain ⟨tip, htip, hdown⟩ := h.visible_tip.met
    exact ⟨tip, htip, hdown.trans (hc.path_of_ne h (hc.tip_ne h) hpath)⟩

/-- What is visible afterwards, other than the new change, was so before. -/
theorem Continued.visible_of_ne {x : ObjectId} (hvisible : Visible larger after p.id x)
    (hx : x ≠ new) : Visible graph before p.id x := by
  refine ⟨?_, hc.path_of_ne h hx hvisible.descends, _, h.authentic_opening⟩
  rcases (met_of_moved hc.moved).mp hvisible.met with hpath | ⟨peer, tip, -, htip, hpath⟩
  · exact hc.met_of_path h hx hpath
  · by_cases htipNew : tip = new
    · exact hc.met_of_path h hx (htipNew ▸ hpath)
    · exact ⟨tip, Snapshot.mem_patchTips_iff.mpr ⟨peer, htip⟩, hc.path_of_ne h htipNew hpath⟩

/-- The new change is visible. -/
theorem Continued.visible_new : Visible larger after p.id new :=
  ⟨(met_of_moved hc.moved).mpr (.inl .refl), h.leads_down hc.extended hc.authentic hc.parent, _,
    hc.extended.authentic h.authentic_opening⟩

/-- The change that opened the patch is visible. -/
theorem Continued.visible_opening : Visible larger after p.id p.id :=
  ⟨(met_of_moved hc.moved).mpr (.inl (h.leads_down hc.extended hc.authentic hc.parent)), .refl, _,
    hc.extended.authentic h.authentic_opening⟩

/-! ### The patch read again -/

/-- The patch can be read again unless there are too many changes. -/
theorem Continued.exists_reading (hlimit : inspect larger delegates after p.id ≠
      .error (.tooManyChanges p.id History.maxChanges)) (hanswers : Answers larger) :
    ∃ p' events', inspect larger delegates after p.id = .ok (some p') ∧ p'.id = p.id ∧
      Reading larger delegates after p' events' := by
  obtain ⟨p', hread, -⟩ :=
    exists_rereading hc.extended hanswers h hc.heads (hc.visible_opening h) hlimit
  obtain ⟨hid, events', h'⟩ := inspect_eq_some hread
  exact ⟨p', events', hread, hid, h'⟩

variable (h' : Reading larger delegates after p' events') (hid : p'.id = p.id)

include h' hid

/-- The new change is the last one of all. -/
theorem Continued.getLast?_order :
    (events'.history.order p'.id).getLast? = some new := by
  have hlinks : ∀ {x q}, events'.history.Links p.id x q → History.BuildsOn larger p.id x q := by
    intro x q hlink
    rw [← hid] at hlink ⊢
    exact ((History.links_of_collect h'.collected).mp hlink).2
  have hdescends : ∀ {x}, events'.history.Descends p.id x ↔ Visible larger after p.id x := by
    intro x
    rw [← hid]
    exact h'.descends_iff
  have hlast : (events.history.order p.id).getLast? = some p.tip := by
    rw [h.tip, History.order_eq_cons, List.getLast?_cons, Option.getD_some]
  rw [hid]
  refine History.getLast?_order_of_leaf hlast ?_ (hdescends.mpr (hc.visible_new h))
    (fun x hlink => hc.not_buildsOn h (hlinks hlink)) fun x hx hne => ?_
  · have hmet := (hc.visible_new h).met
    have hbuilds := hc.buildsOn h
    rw [← hid] at hmet hbuilds ⊢
    exact (History.links_of_collect h'.collected).mpr ⟨hmet, hbuilds⟩
  · have hafter := hdescends.mp hx
    have hbefore := hc.visible_of_ne h hafter hne
    obtain ⟨other, hauth⟩ := hbefore.exists_authentic
    rw [(h.get?_iff hbefore).mpr hauth]
    rw [← hid] at hafter
    exact ((h'.get?_iff hafter).mpr (hc.extended.authentic hauth)).symm

/-- The new change is the tip. -/
theorem Continued.tip_eq : p'.tip = new := by
  rw [h'.tip, hc.getLast?_order h h' hid, Option.getD_some]

/-- Its record is the last one behind the opening. -/
theorem Continued.behind_eq :
    ∃ front, behind events'.history p'.id = front ++ [(new, change)] := by
  have hlast := hc.getLast?_order h h' hid
  rw [History.order_eq_cons, List.getLast?_cons, Option.some.injEq] at hlast
  have htail : (events'.history.order p'.id).tail.getLast? = some new := by
    cases htail : (events'.history.order p'.id).tail.getLast? with
    | none =>
        rw [htail, Option.getD_none, hid] at hlast
        exact absurd hlast.symm (hc.ne_opening h)
    | some x =>
        rw [htail, Option.getD_some] at hlast
        rw [hlast]
  obtain ⟨front, hsplit⟩ := List.getLast?_eq_some_iff.mp htail
  have hvisible := hc.visible_new h
  rw [← hid] at hvisible
  rw [behind, hsplit, List.filterMap_append, List.filterMap_cons,
    (h'.get?_iff hvisible).mpr hc.authentic]
  exact ⟨_, rfl⟩

/-- What the new change proposes is the latest revision. -/
theorem Continued.latest_eq {base head : ObjectId} (haction : change.action = .revise base head) :
    p'.latest = ⟨new, base, head, change.author, some p.tip, change.timestamp⟩ := by
  obtain ⟨front, hsplit⟩ := hc.behind_eq h h' hid
  have hrevision : revisionOf? new change =
      some ⟨new, base, head, change.author, some p.tip, change.timestamp⟩ := by
    rw [revisionOf?, haction, hc.parent]
  rw [latest, h'.later, hsplit, List.filterMap_append, List.filterMap_cons, hrevision]
  simp

/-- If the patch was open, nothing but the new change can end it. -/
theorem Continued.eq_new_of_ends (hopen : p.status.isTerminal = false) {x : ObjectId}
    (hx : Visible larger after p'.id x)
    (hends : Ends larger p'.author delegates (targetTips after delegates p'.author p'.target) x) :
    x = new := by
  by_contra hne
  obtain ⟨hauthor, htarget, -⟩ := opening_eq hc.extended h h' hid
  rw [hauthor, htarget, hc.heads] at hends
  rw [hid] at hx
  obtain ⟨other, hauth, hends⟩ := hends
  rw [Bool.eq_false_iff] at hopen
  refine hopen (h.isTerminal_iff_ends.mpr ⟨x, hc.visible_of_ne h hx hne, other,
    (hc.authentic_iff_of_ne hne).mp hauth, ?_⟩)
  simpa only [InTarget, hc.isAncestor] using hends

/-- If the patch was open and someone who decides about it closes it, it is closed by that: a merge
would be of the new change, which proposes nothing. -/
theorem Continued.closed (hopen : p.status.isTerminal = false) {reason : String}
    (haction : change.action = .close reason)
    (hdecider : Decider p.author delegates change.author) :
    p'.status = .closed ∧ p'.resolution = some (.closed change.author reason) := by
  have hvisible := hc.visible_new h
  rw [← hid] at hvisible
  obtain ⟨hauthor, -⟩ := opening_eq hc.extended h h' hid
  have hhonoured : isHonouredClose p'.author delegates change = true := by
    rw [hauthor]
    exact isHonouredClose_iff.mpr ⟨⟨reason, haction⟩, hdecider⟩
  have hended := h'.isTerminal_iff_ends.mpr
    ⟨new, hvisible, change, hc.authentic, .inl hhonoured⟩
  obtain ⟨event, hsettle⟩ :=
    Option.ne_none_iff_exists'.mp (h'.isTerminal_iff_settle.mp hended)
  cases event with
  | merged revision =>
      obtain ⟨time, hmem⟩ := Ending.mem_of_settle_merged hsettle
      obtain ⟨-, hat, -⟩ := Ending.mem_surviving_iff.mp hmem
      obtain ⟨v, hv, hvid, hin⟩ :=
        h'.contains_merged_iff.mp (Ending.at?_eq_some_merged_iff.mp hat).2.1
      obtain ⟨other, hauth, hproposal⟩ := h'.exists_proposal hv
      have hnew := hc.eq_new_of_ends h h' hid hopen (h'.visible_revision hv)
        ⟨other, hauth, .inr ⟨_, _, hproposal, hin⟩⟩
      rw [hnew] at hauth
      rw [hauth.unique hc.authentic, Change.revision?, haction] at hproposal
      cases hproposal
  | closed close =>
      obtain ⟨time, hdecides⟩ := Ending.settle_eq_closed_iff.mp hsettle
      obtain ⟨-, hat, -⟩ := Ending.mem_surviving_iff.mp hdecides.mem
      obtain ⟨hx, other, hauth, hclose⟩ :=
        h'.contains_closes_iff.mp (Ending.at?_eq_some_closed_iff.mp hat).2.2.1
      obtain rfl : close = new :=
        hc.eq_new_of_ends h h' hid hopen hx ⟨other, hauth, .inl hclose⟩
      refine ⟨h'.status_eq_closed_iff.mpr ⟨_, hsettle⟩, ?_⟩
      rw [h'.resolution_of_closed hsettle ((h'.get?_iff hvisible).mpr hc.authentic), reasonOf,
        haction]

end

end Patch

/-! ### What a node reads back -/

namespace Node

open Patch

/-- The name of a new change is its own: no other authentic change has it, and no change that is
known builds on it. What the node has signed verifies. -/
structure OwnName (graph graph' : MemoryGraph) (new : ObjectId) : Prop where
  /-- The signature of the new change is right. -/
  verified : ∀ signed, graph'.changes.get? new = some signed → signed.verify = .ok ()
  /-- No two different changes share the name. -/
  unique : ∀ change, History.Authentic graph.toObjectGraph new change →
    ∀ signed, graph'.changes.get? new = some signed → change = signed.change
  /-- No record that is known names it as its parent. -/
  childless : ∀ x signed, graph.changes.get? x = some signed → signed.change.parent ≠ some new

variable {node node' : Node} {graph graph' : MemoryGraph} {now : Int64} {repo : RepoId}
  {id new : ObjectId} {action : Action} {p : Patch}

/-- A call that goes on with a patch lets it go on. -/
theorem exists_continued {s : Snapshot}
    (hcall : node.continuePatch graph now repo id action = ⟨.ok (new, node'), graph'⟩)
    (hbefore : node.patch? graph.toObjectGraph repo id = .ok (some p))
    (hname : OwnName graph graph' new) (hs : node.snapshot repo = .ok s) (hid : p.id = id) :
    ∃ s', node'.snapshot repo = .ok s' ∧ node'.delegates = node.delegates ∧
      Continued graph.toObjectGraph graph'.toObjectGraph node.delegates s s' node.id p new
        ⟨some p.tip, node.id, now, action⟩ := by
  obtain ⟨p₀, signed, written, hp₀, hchange, hsignedId, hgraph, hset⟩ := continuePatch_eq_ok hcall
  rw [hbefore] at hp₀
  cases hp₀
  obtain ⟨s', hs', href⟩ := snapshot_of_setRef hset hs
  have hget : graph'.changes.get? new = some signed := by
    rw [hgraph]
    exact SortedMap.get?_insert_self graph.changes new signed
  refine ⟨s', hs', delegates_of_setRef hset, ?_⟩
  rw [← hchange]
  exact
    { authentic := History.authentic_iff.mpr
        ⟨signed, congrArg Except.ok hget, hsignedId, hname.verified signed hget, rfl⟩
      parent := by rw [hchange]
      same := fun x hx => by
        rw [hgraph, History.authentic?, History.authentic?, MemoryGraph.change?_of_ne hx]
      unique := fun other hauth => hname.unique other hauth signed hget
      childless := fun x other hauth => by
        obtain ⟨found, hfound, -, -, rfl⟩ := History.authentic_iff.mp hauth
        exact hname.childless x found (Except.ok.inj hfound)
      moved := fun peer => by simp [href, hid]
      heads := targetTips_congr fun peer => by simp [href]
      isAncestor := by
        rw [hgraph]
        exact MemoryGraph.isAncestor_congr rfl }

/-- A patch is read again after a call that goes on with it. -/
theorem exists_readings
    (hcall : node.continuePatch graph now repo id action = ⟨.ok (new, node'), graph'⟩)
    (hbefore : node.patch? graph.toObjectGraph repo id = .ok (some p))
    (hname : OwnName graph graph' new)
    (hwalk : node'.patch? graph'.toObjectGraph repo id ≠
      .error (.patch (.tooManyChanges id History.maxChanges))) :
    ∃ p' s s' events events', node'.patch? graph'.toObjectGraph repo id = .ok (some p') ∧
      Continued graph.toObjectGraph graph'.toObjectGraph node.delegates s s' node.id p new
        ⟨some p.tip, node.id, now, action⟩ ∧
      Reading graph.toObjectGraph node.delegates s p events ∧
      Reading graph'.toObjectGraph node.delegates s' p' events' ∧ p'.id = p.id := by
  obtain ⟨s, hs, hread⟩ := bind_eq_ok_iff.mp hbefore
  obtain ⟨rfl, events, h⟩ := inspect_eq_some (mapError_eq_ok_iff.mp hread)
  obtain ⟨s', hs', hdelegates, hc⟩ := exists_continued hcall hbefore hname hs rfl
  have hafter : node'.patch? graph'.toObjectGraph repo p.id =
      (inspect graph'.toObjectGraph node.delegates s' p.id).mapError .patch := by
    rw [patch?, hs', hdelegates]
    rfl
  obtain ⟨p', events', hp', hid, h'⟩ := hc.exists_reading h
    (fun hlimit => hwalk (by rw [hafter, hlimit]; rfl)) (answers_toObjectGraph graph')
  exact ⟨p', s, s', events, events', by rw [hafter, hp']; rfl, hc, h, h', hid⟩

/-- What a node authors it reads back on top. After it has revised a patch, the patch has the new
change as its tip, and its latest revision is made by that, on the tip that was read before. After
it has closed a patch that was open, as the author or a delegate, the patch is closed, by this node
and with the reason given. The name of the new change has to be its own, and there must not be too
many changes for reading the patch again. -/
theorem read_back {node : Node} {graph : MemoryGraph} {now : Int64} {repo : RepoId}
    {id : ObjectId} {p : Patch}
    (hbefore : node.patch? graph.toObjectGraph repo id = .ok (some p)) :
    (∀ (base head new : ObjectId) (node' : Node) (graph' : MemoryGraph),
      node.revise graph now repo id base head = ⟨.ok (new, node'), graph'⟩ →
      OwnName graph graph' new →
      node'.patch? graph'.toObjectGraph repo id ≠
        .error (.patch (.tooManyChanges id History.maxChanges)) →
      ∃ p', node'.patch? graph'.toObjectGraph repo id = .ok (some p') ∧ p'.tip = new ∧
        p'.latest = ⟨new, base, head, node.id, some p.tip, now⟩) ∧
    ∀ (reason : String) (new : ObjectId) (node' : Node) (graph' : MemoryGraph),
      p.status.isTerminal = false → Decider p.author node.delegates node.id →
      node.close graph now repo id reason = ⟨.ok (new, node'), graph'⟩ →
      OwnName graph graph' new →
      node'.patch? graph'.toObjectGraph repo id ≠
        .error (.patch (.tooManyChanges id History.maxChanges)) →
      ∃ p', node'.patch? graph'.toObjectGraph repo id = .ok (some p') ∧ p'.tip = new ∧
        p'.status = .closed ∧ p'.resolution = some (.closed node.id reason) := by
  constructor
  · intro base head new node' graph' hcall hname hwalk
    obtain ⟨p', s, s', events, events', hafter, hc, h, h', hid⟩ :=
      exists_readings hcall hbefore hname hwalk
    exact ⟨p', hafter, hc.tip_eq h h' hid, hc.latest_eq h h' hid rfl⟩
  · intro reason new node' graph' hopen hdecider hcall hname hwalk
    obtain ⟨p', s, s', events, events', hafter, hc, h, h', hid⟩ :=
      exists_readings hcall hbefore hname hwalk
    exact ⟨p', hafter, hc.tip_eq h h' hid, hc.closed h h' hid hopen rfl hdecider⟩

/-- It can be checked by listing the records whether a name is new. -/
theorem ownName_of_authentic?
    (hsigned : (History.authentic? graph'.toObjectGraph new).toOption.join.isSome = true)
    (hunknown : History.authentic? graph.toObjectGraph new = .ok none)
    (hchildless : ∀ e ∈ graph.changes.entries, e.2.change.parent ≠ some new) :
    OwnName graph graph' new where
  verified signed hget := by
    obtain ⟨change, hchange⟩ := Option.isSome_iff_exists.mp hsigned
    obtain ⟨found, hfound, -, hverify, -⟩ :=
      History.authentic_iff.mp (toOption_eq_some_iff.mp (Option.join_eq_some_iff.mp hchange))
    obtain rfl := Option.some.inj (hget.symm.trans (Except.ok.inj hfound))
    exact hverify
  unique change hauth := by
    rw [History.Authentic, hunknown] at hauth
    cases hauth
  childless x signed hget := hchildless (x, signed) (SortedMap.mem_entries_iff.mpr hget)

end Node

/-! ### Alice goes on with her patch -/

namespace Forked

open Patch

/-- The graph before Bob's change is known. -/
def withoutBob : MemoryGraph := { graph with changes := graph.changes.erase byBob }

/-- The name of the change by which Alice closes the patch. -/
def closing : ObjectId := name 0xed69a6ef6f3e818702668d3dfc2bf2fed40ead46

/-- Alice closes the patch. -/
def closed : Node.Authored := node.close withoutBob 1700000000002 repo opening "done"

set_option maxRecDepth 100000 in
/-- The patch is open and Alice's, and it can be read before and after she closes it. The facts
share the work of checking the signatures. -/
theorem facts_closed :
    (node.patch? withoutBob.toObjectGraph repo opening).map
        (Option.map fun p => (p.status.isTerminal, p.author == node.id)) =
      .ok (some (false, true)) ∧
      closed.result.map Prod.fst = .ok closing ∧
      (closed.result.bind fun done => listed done.2 closed.graph) = .ok (some [first, alices]) ∧
      (History.authentic? closed.graph.toObjectGraph closing).toOption.join.isSome = true ∧
      History.authentic? withoutBob.toObjectGraph closing = .ok none := by
  decide +kernel

/-- Alice reads back what she proposes on top of both branches, and that she closed the patch. -/
theorem read_back_by_alice :
    (∃ p node' p', node.patch? graph.toObjectGraph repo opening = .ok (some p) ∧
      authored = ⟨.ok (onTop, node'), authored.graph⟩ ∧
      node'.patch? authored.graph.toObjectGraph repo opening = .ok (some p') ∧
      p'.tip = onTop ∧
      p'.latest = ⟨onTop, commit 1, commit 5, node.id, some p.tip, 1700000000000⟩) ∧
    ∃ node' p', closed = ⟨.ok (closing, node'), closed.graph⟩ ∧
      node'.patch? closed.graph.toObjectGraph repo opening = .ok (some p') ∧
      p'.tip = closing ∧ p'.status = .closed ∧
      p'.resolution = some (.closed node.id "done") := by
  constructor
  · obtain ⟨node', p, q, hcall, hbefore, -, hafter, -⟩ := exists_patches
    obtain ⟨-, -, -, hsigned, hunknown⟩ := facts
    obtain ⟨hrevise, -⟩ := @Node.read_back node graph 1700000000000 repo opening p hbefore
    obtain ⟨p', hp', htip, hlatest⟩ := hrevise (commit 1) (commit 5) onTop node' authored.graph
      hcall (Node.ownName_of_authentic? hsigned hunknown (by decide +kernel)) (by rw [hafter]; simp)
    exact ⟨p, node', p', hbefore, hcall, hp', htip, hlatest⟩
  · obtain ⟨hopen, hresult, hafter, hsigned, hunknown⟩ := facts_closed
    obtain ⟨found, hbefore, hfound⟩ := map_eq_ok_iff.mp hopen
    obtain ⟨p, rfl, hp⟩ := Option.map_eq_some_iff.mp hfound
    obtain ⟨hopen, hauthor⟩ := Prod.mk.inj hp
    obtain ⟨⟨new, node'⟩, hdone, rfl⟩ := map_eq_ok_iff.mp hresult
    rw [hdone] at hafter
    obtain ⟨q, hafter, -⟩ := exists_patch_of_listed hafter
    have hcall : closed = ⟨.ok (closing, node'), closed.graph⟩ := Node.Authored.eq_of_result hdone
    obtain ⟨-, hclose⟩ := @Node.read_back node withoutBob 1700000000002 repo opening p hbefore
    obtain ⟨p', hp', htip, hclosed⟩ := hclose "done" closing node' closed.graph hopen
      (.inl (beq_iff_eq.mp hauthor).symm) hcall
      (Node.ownName_of_authentic? hsigned hunknown (by decide +kernel)) (by rw [hafter]; simp)
    exact ⟨node', p', hcall, hp', htip, hclosed⟩

end Forked

end SignedRefs
