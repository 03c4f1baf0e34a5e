import SignedRefs.Proofs.Digits
import SignedRefs.Proofs.Node.Writing
import SignedRefs.Proofs.Patch.Comparison

/-!
# Authoring Patches

A node keeps one ref for each patch and moves it to every change it makes there. What its ref led to
before is lost from sight unless the new change builds on it or another namespace leads to it
(`StillLed`). The new change builds on the tip, which is only the last of all changes in order: of
two branches of a patch it continues one, and the other one may have been the node's own.

## Main results

* `Node.author_eq_ok`: what a successful call does.
* `Patch.met_of_moved`: where a walk can get when the ref to a patch has moved.
* `Node.history_of_authoring`: which revisions are still listed, and when a patch stays ended.
-/

namespace SignedRefs

open Relation

/-! ### Calls -/

/-- What a node can author in a patch. -/
inductive Authoring
  /-- It opens one. -/
  | propose (target title : String) (base head : ObjectId)
  /-- It proposes another head. -/
  | revise (id base head : ObjectId)
  /-- It closes one. -/
  | close (id : ObjectId) (reason : String)
deriving DecidableEq

/-- The patch to which a call belongs, if `new` is the change that it makes. -/
def Authoring.patch (new : ObjectId) : Authoring → ObjectId
  | .propose .. => new
  | .revise id _ _ => id
  | .close id _ => id

namespace Node

variable {node node' : Node} {graph graph' : MemoryGraph} {now : Int64} {repo : RepoId}
  {call : Authoring} {new : ObjectId}

/-- Authors a change. -/
def author (node : Node) (graph : MemoryGraph) (now : Int64) (repo : RepoId) :
    Authoring → Authored
  | .propose target title base head => node.propose graph now repo target title base head
  | .revise id base head => node.revise graph now repo id base head
  | .close id reason => node.close graph now repo id reason

/-- Puts the parts of what was authored together. This is said for any result, so that a computed
one is not computed again. -/
theorem Authored.eq_of_result {authored : Authored} {result : Except NodeError (ObjectId × Node)}
    (h : authored.result = result) : authored = ⟨result, authored.graph⟩ := by
  subst h
  rfl

/-- A change that is published is in the graph, and the ref of its patch points at it. -/
theorem publish_eq_ok {patch : Option ObjectId} {change : Change}
    (h : node.publish graph now repo patch change = ⟨.ok (new, node'), graph'⟩) :
    ∃ signed written, signed.change = change ∧ signed.id = .ok new ∧
      graph' = { graph with changes := graph.changes.insert new signed } ∧
        node.setRef now repo (.patch (patch.getD new)) new = .ok (written, node') := by
  rw [publish] at h
  cases hsign : change.sign node.keys with
  | error error =>
      rw [hsign] at h
      cases h
  | ok signed =>
      have hchange : signed.change = change := by
        rw [Change.sign] at hsign
        split at hsign
        · cases hsign
        · obtain ⟨bytes, -, hsigned⟩ := bind_eq_ok_iff.mp hsign
          cases hsigned
          rfl
      rw [hsign] at h
      simp only [MemoryGraph.addChange] at h
      cases hid : signed.id with
      | error error =>
          rw [hid] at h
          cases h
      | ok id =>
          rw [hid] at h
          simp only [Authored.mk.injEq] at h
          obtain ⟨hresult, rfl⟩ := h
          obtain ⟨⟨written, _⟩, hset, hdone⟩ := map_eq_ok_iff.mp hresult
          cases hdone
          exact ⟨signed, written, hchange, hid, rfl, hset⟩

/-- Going on with a patch publishes a change on its tip. -/
theorem continuePatch_eq_ok {id : ObjectId} {action : Action}
    (h : node.continuePatch graph now repo id action = ⟨.ok (new, node'), graph'⟩) :
    ∃ p signed written, node.patch? graph.toObjectGraph repo id = .ok (some p) ∧
      signed.change = ⟨some p.tip, node.id, now, action⟩ ∧ signed.id = .ok new ∧
        graph' = { graph with changes := graph.changes.insert new signed } ∧
          node.setRef now repo (.patch id) new = .ok (written, node') := by
  rw [continuePatch] at h
  split at h
  · cases h
  · cases h
  · next p hp =>
      obtain ⟨signed, written, hchange, hid, hgraph, hset⟩ := publish_eq_ok h
      exact ⟨p, signed, written, hp, hchange, hid, hgraph, hset⟩

/-- A successful call adds a change and points the ref of its patch at it. The change opens the
patch, or it builds on the tip. -/
theorem author_eq_ok (h : node.author graph now repo call = ⟨.ok (new, node'), graph'⟩) :
    ∃ signed written, graph' = { graph with changes := graph.changes.insert new signed } ∧
      node.setRef now repo (.patch (call.patch new)) new = .ok (written, node') ∧
        (call.patch new = new ∨ ∃ p,
          node.patch? graph.toObjectGraph repo (call.patch new) = .ok (some p) ∧
            signed.change.parent = some p.tip) := by
  cases call with
  | propose target title base head =>
      simp only [author, propose] at h
      split at h
      · cases h
      · obtain ⟨signed, written, -, -, hgraph, hset⟩ := publish_eq_ok h
        exact ⟨signed, written, hgraph, hset, .inl rfl⟩
  | revise id base head =>
      obtain ⟨p, signed, written, hp, hchange, -, hgraph, hset⟩ := continuePatch_eq_ok h
      exact ⟨signed, written, hgraph, hset, .inr ⟨p, hp, by rw [hchange]⟩⟩
  | close id reason =>
      obtain ⟨p, signed, written, hp, hchange, -, hgraph, hset⟩ := continuePatch_eq_ok h
      exact ⟨signed, written, hgraph, hset, .inr ⟨p, hp, by rw [hchange]⟩⟩

end Node

/-! ### The graph afterwards -/

namespace MemoryGraph

variable {graph : MemoryGraph} {new : ObjectId} {signed : SignedChange}

/-- Commits are related by what is known of commits. -/
theorem isAncestor_congr {larger : MemoryGraph} (h : larger.commits = graph.commits) :
    larger.toObjectGraph.isAncestor = graph.toObjectGraph.isAncestor := by
  have hparents : larger.parents = graph.parents := by
    funext id
    rw [parents, parents, h]
  have hsearch : ∀ target fuel seen pending,
      larger.search target fuel seen pending = graph.search target fuel seen pending := by
    intro target fuel
    induction fuel with
    | zero =>
        intro seen pending
        cases pending <;> rfl
    | succ fuel ih =>
        intro seen pending
        cases pending with
        | nil => rfl
        | cons id pending => rw [search, search, ih, ih, hparents]
  funext ancestor descendant
  simp only [toObjectGraph, isAncestor, linkCount, hsearch, h]

/-- What is inserted into a graph is found under its own name only. -/
theorem change?_of_ne {id : ObjectId} (h : id ≠ new) :
    (toObjectGraph { graph with changes := graph.changes.insert new signed }).change? id =
      graph.toObjectGraph.change? id :=
  congrArg Except.ok (SortedMap.get?_insert_of_ne graph.changes h signed)

/-- A graph with one more change has what it had before, if this holds under the new name. -/
theorem extended_insert (h : ∀ change, History.Authentic graph.toObjectGraph new change →
      History.Authentic
        (toObjectGraph { graph with changes := graph.changes.insert new signed }) new change) :
    graph.toObjectGraph.Extended
      (toObjectGraph { graph with changes := graph.changes.insert new signed }) := by
  refine ⟨fun {id change} hauth => ?_, isAncestor_congr rfl⟩
  by_cases hid : id = new
  · subst hid
    exact h change hauth
  · rwa [History.Authentic, History.authentic?, change?_of_ne hid]

/-- What is authentic under the new name is the new change. -/
theorem change_of_authentic_insert {change : Change} (h : History.Authentic
      (toObjectGraph { graph with changes := graph.changes.insert new signed }) new change) :
    change = signed.change := by
  obtain ⟨found, hfound, -, -, rfl⟩ := History.authentic_iff.mp h
  have hget : some signed = some found :=
    (SortedMap.get?_insert_self graph.changes new signed).symm.trans (Except.ok.inj hfound)
  rw [Option.some.inj hget]

end MemoryGraph

/-! ### What is still led to -/

namespace Patch

/-- When the ref of a patch in the namespace of `owner` has moved to `new`, something still leads to
a change: `new` is this change or builds on it, or so does a tip in the namespace of somebody
else. -/
def StillLed (graph : ObjectGraph) (snapshot : Snapshot) (owner : PeerId)
    (id new change : ObjectId) : Prop :=
  ReflTransGen (History.BuildsOn graph id) new change ∨
    ∃ peer tip, peer ≠ owner ∧ snapshot.ref? peer (.patch id) = some tip ∧
      ReflTransGen (History.BuildsOn graph id) tip change

variable {graph : ObjectGraph} {s s' : Snapshot} {owner : PeerId} {id new x : ObjectId}

/-- Where a walk can get when the ref to the patch has moved. -/
theorem met_of_moved (h : ∀ peer, s'.ref? peer (.patch id) =
      if peer = owner then some new else s.ref? peer (.patch id)) :
    History.Met graph id (s'.patchTips id) x ↔ StillLed graph s owner id new x := by
  simp only [History.Met, Snapshot.mem_patchTips_iff, h]
  constructor
  · rintro ⟨tip, ⟨peer, hpeer⟩, hpath⟩
    by_cases howner : peer = owner
    · rw [if_pos howner] at hpeer
      cases hpeer
      exact .inl hpath
    · rw [if_neg howner] at hpeer
      exact .inr ⟨peer, tip, howner, hpeer, hpath⟩
  · rintro (hpath | ⟨peer, tip, hne, hpeer, hpath⟩)
    · exact ⟨new, ⟨owner, if_pos rfl⟩, hpath⟩
    · exact ⟨tip, ⟨peer, by rw [if_neg hne, hpeer]⟩, hpath⟩

/-- Where a walk can get when no ref to the patch has moved. -/
theorem met_of_same {larger : ObjectGraph} (hgraph : graph.Extended larger)
    (h : ∀ peer, s'.ref? peer (.patch id) = s.ref? peer (.patch id))
    (hmet : History.Met graph id (s.patchTips id) x) :
    History.Met larger id (s'.patchTips id) x := by
  obtain ⟨tip, htip, hpath⟩ := hmet
  obtain ⟨peer, hpeer⟩ := Snapshot.mem_patchTips_iff.mp htip
  exact ⟨tip, Snapshot.mem_patchTips_iff.mpr ⟨peer, (h peer).trans hpeer⟩,
    History.reflTransGen_extended hgraph hpath⟩

section

variable {larger : ObjectGraph} {delegates : SortedSet PeerId} {p : Patch} {events : Ending.Events}
  (h : Reading graph delegates s p events)

include h

/-- The tip of a patch is visible. -/
theorem Reading.visible_tip : Visible graph s p.id p.tip := by
  rw [h.tip]
  cases hlast : (events.history.order p.id).getLast? with
  | none => exact h.visible_opening
  | some last => exact h.mem_order_iff.mp (List.mem_of_getLast? hlast)

/-- A change on the tip leads down to the one that opened the patch. -/
theorem Reading.leads_down (hgraph : graph.Extended larger) {change : Change}
    (hauth : History.Authentic larger new change) (hparent : change.parent = some p.tip) :
    ReflTransGen (History.BuildsOn larger p.id) new p.id := by
  have hne : new ≠ p.id := by
    rintro rfl
    rw [hauth.unique (hgraph.authentic h.authentic_opening)] at hparent
    cases hparent
  exact .head ⟨hne, change, hauth, hparent⟩
    (History.reflTransGen_extended hgraph h.visible_tip.descends)

end

end Patch

/-! ### History after a call -/

namespace Node

open Patch

/-- The change that a call makes leads down to the one that opened the patch. -/
theorem leads_down_of_author {node node' : Node} {graph graph' : MemoryGraph} {now : Int64}
    {repo : RepoId} {call : Authoring} {new : ObjectId} {delegates : SortedSet PeerId}
    {s : Snapshot} {p : Patch} {events : Ending.Events}
    (hcall : node.author graph now repo call = ⟨.ok (new, node'), graph'⟩)
    (hsigned : ∃ change, History.Authentic graph'.toObjectGraph new change)
    (hgraph : graph.toObjectGraph.Extended graph'.toObjectGraph)
    (hbefore : node.patch? graph.toObjectGraph repo p.id = .ok (some p))
    (h : Reading graph.toObjectGraph delegates s p events) (hid : p.id = call.patch new) :
    ReflTransGen (History.BuildsOn graph'.toObjectGraph p.id) new p.id := by
  obtain ⟨signed, written, hadded, -, hbase⟩ := author_eq_ok hcall
  rcases hbase with hnew | ⟨p₀, hp₀, hparent⟩
  · rw [hid, hnew]
  · rw [← hid, hbefore] at hp₀
    cases hp₀
    obtain ⟨change, hauth⟩ := hsigned
    have hchange : change = signed.change := by
      subst hadded
      exact MemoryGraph.change_of_authentic_insert hauth
    exact h.leads_down hgraph hauth (hchange ▸ hparent)

/-- What a call of a node leaves of a patch. A revision is still listed exactly if the call belongs
to another patch or something still leads to it. A patch that had ended still has exactly if the
call belongs to another patch or something still leads to a change that ends it. The new change has
to carry the signature that its author made, and its name must not be that of another change. -/
theorem history_of_authoring {node node' : Node} {graph graph' : MemoryGraph} {now : Int64}
    {repo repo' : RepoId} {call : Authoring} {new id : ObjectId} {p : Patch}
    (hcall : node.author graph now repo call = ⟨.ok (new, node'), graph'⟩)
    (hbefore : node.patch? graph.toObjectGraph repo' id = .ok (some p))
    (hsigned : ∃ change, History.Authentic graph'.toObjectGraph new change)
    (hname : ∀ change, History.Authentic graph.toObjectGraph new change →
      History.Authentic graph'.toObjectGraph new change)
    (hwalk : node'.patch? graph'.toObjectGraph repo' id ≠
      .error (.patch (.tooManyChanges id History.maxChanges))) :
    ∃ s p', node.snapshot repo' = .ok s ∧
      node'.patch? graph'.toObjectGraph repo' id = .ok (some p') ∧
      (∀ v ∈ p.revisions, v ∈ p'.revisions ↔ (repo' = repo ∧ id = call.patch new →
        StillLed graph'.toObjectGraph s node.id id new v.id)) ∧
      (p.status.isTerminal = true →
        (p'.status.isTerminal = true ↔ (repo' = repo ∧ id = call.patch new →
          ∃ x, StillLed graph'.toObjectGraph s node.id id new x ∧
            ReflTransGen (History.BuildsOn graph'.toObjectGraph id) x id ∧
              Ends graph'.toObjectGraph p.author node.delegates
                (targetTips s node.delegates p.author p.target) x))) := by
  obtain ⟨signed, written, hadded, hset, -⟩ := author_eq_ok hcall
  have hgraph : graph.toObjectGraph.Extended graph'.toObjectGraph := by
    subst hadded
    exact MemoryGraph.extended_insert hname
  obtain ⟨s, hs, hread⟩ := bind_eq_ok_iff.mp hbefore
  obtain ⟨rfl, events, h⟩ := inspect_eq_some (mapError_eq_ok_iff.mp hread)
  obtain ⟨s', hs', href⟩ := snapshot_of_setRef hset hs
  have hheads : targetTips s' node.delegates p.author p.target =
      targetTips s node.delegates p.author p.target :=
    targetTips_congr fun peer => by simp [href]
  have hmoved : repo' = repo ∧ p.id = call.patch new → ∀ x,
      History.Met graph'.toObjectGraph p.id (s'.patchTips p.id) x ↔
        StillLed graph'.toObjectGraph s node.id p.id new x := by
    rintro ⟨rfl, hid⟩ x
    exact met_of_moved fun peer => by simp [href, hid]
  have hsame : ¬(repo' = repo ∧ p.id = call.patch new) → ∀ x,
      Visible graph.toObjectGraph s p.id x → Visible graph'.toObjectGraph s' p.id x := by
    intro hother x hx
    exact hx.extended hgraph <| met_of_same hgraph (fun peer => by
      rw [href, if_neg fun h => hother ⟨h.1, RefName.patch.inj h.2.2⟩]) hx.met
  have hopening : Visible graph'.toObjectGraph s' p.id p.id := by
    by_cases hown : repo' = repo ∧ p.id = call.patch new
    · refine h.visible_opening.extended hgraph ((hmoved hown p.id).mpr (.inl ?_))
      obtain ⟨rfl, hid⟩ := hown
      exact leads_down_of_author hcall hsigned hgraph hbefore h hid
    · exact hsame hown p.id h.visible_opening
  have hafter : node'.patch? graph'.toObjectGraph repo' p.id =
      (inspect graph'.toObjectGraph node.delegates s' p.id).mapError .patch := by
    rw [patch?, hs', delegates_of_setRef hset]
    rfl
  obtain ⟨p', hp', hrevisions, hterminal⟩ := exists_rereading hgraph (answers_toObjectGraph graph')
    h hheads hopening fun hlimit => hwalk (by rw [hafter, hlimit]; rfl)
  refine ⟨s, p', hs, by rw [hafter, hp']; rfl, fun v hv => ?_, fun hended => ?_⟩
  · rw [hrevisions v hv]
    by_cases hown : repo' = repo ∧ p.id = call.patch new
    · rw [← hmoved hown, imp_iff_right hown]
      exact ⟨fun hkept => hkept.met, fun hmet => (h.visible_revision hv).extended hgraph hmet⟩
    · exact iff_of_true (hsame hown _ (h.visible_revision hv)) fun h => absurd h hown
  · rw [hterminal]
    by_cases hown : repo' = repo ∧ p.id = call.patch new
    · rw [imp_iff_right hown]
      refine exists_congr fun x => ?_
      rw [← hmoved hown, ← and_assoc]
      exact and_congr_left fun _ => ⟨fun hx => ⟨hx.met, hx.descends⟩,
        fun hx => ⟨hx.1, hx.2, hopening.root_authentic⟩⟩
    · obtain ⟨x, hx, hends⟩ := h.isTerminal_iff_ends.mp hended
      exact iff_of_true ⟨x, hsame hown x hx, hends.extended hgraph⟩ fun h => absurd h hown

end Node

/-! ### A patch with two branches -/

namespace Forked

open Patch

/-- The author of the patch. -/
def alice : PeerId :=
  ⟨.ofNat 32 0x8a88e3dd7409f195fd52db2d3cba5d72ca6709bf1d94121bf3748801b40f6f5c⟩

/-- Somebody else. -/
def bob : PeerId :=
  ⟨.ofNat 32 0x8139770ea87d175f56a35466c34c7ecccb8d8a91b4ee37a25df60f5b8fc9b394⟩

/-- The repository. -/
def repo : RepoId :=
  ⟨.ofNat 32 0x8c76dc55ea9c9a9f84764ae8fe5dfd8f26dd5e2fbf94d1d53546e010e16995d5⟩

/-- An object name. -/
def name (n : Nat) : ObjectId := ⟨.ofNat 20 n⟩

/-- The name is one for a branch. -/
theorem valid_main : BranchName.fault? "main" = none := by decide

/-- A commit. -/
def commit (n : UInt8) : ObjectId := ⟨.replicate 20 n⟩

/-- A signature. -/
def signature (n : Nat) : Signature := ⟨.ofNat 64 n⟩

/-- The name of the opening change. -/
def opening : ObjectId := name 0xbfdc7a67afaed9f27c99a149cd8180a383602afb

/-- The name of what Alice proposes next. -/
def byAlice : ObjectId := name 0x21a662aa1057c5fc945457a06385827a57ce9698

/-- The name of what Bob proposes at the same time. -/
def byBob : ObjectId := name 0xd9a0eb1bbcbfdd5953679687493350994115c40b

/-- The name of what Alice proposes when she has seen both. -/
def onTop : ObjectId := name 0xcc10bec1fc71691a8548abbdf2086ac099cc1b72

/-- A change on the opening one. -/
def revising (author : PeerId) (timestamp : Int64) (head : UInt8) : Change :=
  ⟨some opening, author, timestamp, .revise (commit 1) (commit head)⟩

/-- The graph with the two branches. -/
def graph : MemoryGraph :=
  MemoryGraph.mk .empty <| .ofList
    [(opening, ⟨⟨none, alice, 1700000000000,
        .openPatch ⟨"main", valid_main⟩ "title" (commit 1) (commit 2)⟩, signature
        0x719927f0480c2a1518618237502bfa04142c8f681edda9a8d95fbbaba5dca5a7573d45d12deb0d57bdb87776e286a8621ec8ec97c4ccedd349585ca797ce9508⟩),
      (byAlice, ⟨revising alice 1700000000000 3, signature
        0xe1f40141db7aac1384ed69d2ad44031faf53d2b56434c7d7ff6df87e6fb2a313f292c9e8643f3f237fe89393246fdc607ba713eb3a461430ddf78220688a7c0a⟩),
      (byBob, ⟨revising bob 1700000000001 4, signature
        0xe0c66c842f3524e23a773bf85a69a101b5ca173bbee9efdf097b6467e8475ff43b25bca4cb118db5ed4716373695d91be0a26d61d1f8cb0827e7b70345db1a08⟩)]

/-- A manifest with a ref to the patch. -/
def manifest (owner : PeerId) (sequence : UInt64) (tip : ObjectId) (n : Nat) : SignedManifest :=
  ⟨⟨repo, owner, sequence, .ofList [(.patch opening, tip)]⟩, signature n⟩

/-- Alice's namespace leads to her own revision, and Bob's to his. -/
def store : Store := .memory <| .ofList
  [(⟨repo, alice⟩, ⟨manifest alice 2 byAlice
      0xfcd7bf0290a92aca6c6f16efd2bbf5737fee12563d61b923bcb22c95d9141687165ed46fdab353452352713c69bc4363c052a3fa216c3c8e39d7dcd05acaf000,
      name 0xa3ea75decefeb3f90eeed6c70cdab7acde29c3c1, 1700000000000, by decide +kernel⟩),
    (⟨repo, bob⟩, ⟨manifest bob 1 byBob
      0x59f6fedf7cccedc49d445f15ff01d74142e5170407c0c8ff23289fb3e36361d8643942027fba25a22fb65d5ab0c147738e6bae2f0ebf2de7a9c76b76f47f7e0b,
      name 0xf3b3fbbfc7b25809c5395c20028095ff2dee6490, 1700000000000, by decide +kernel⟩)]

/-- Alice's node. -/
def node : Node := .new ⟨.replicate 32 1⟩ store .empty .standard

/-- Alice proposes another head. -/
def authored : Node.Authored :=
  node.author graph 1700000000000 repo (.revise opening (commit 1) (commit 5))

/-- What opens the patch. -/
def first : Revision := ⟨opening, commit 1, commit 2, alice, none, 1700000000000⟩

/-- What Alice proposes next. -/
def alices : Revision := ⟨byAlice, commit 1, commit 3, alice, some opening, 1700000000000⟩

/-- What Bob proposes at the same time. -/
def bobs : Revision := ⟨byBob, commit 1, commit 4, bob, some opening, 1700000000001⟩

/-- What Alice proposes on top of that. -/
def continued : Revision := ⟨onTop, commit 1, commit 5, alice, some byBob, 1700000000000⟩

/-- The revisions that are listed. -/
def listed (node : Node) (graph : MemoryGraph) : Except NodeError (Option (List Revision)) :=
  (node.patch? graph.toObjectGraph repo opening).map (Option.map Patch.revisions)

set_option maxRecDepth 100000 in
/-- What is authored, and what is listed before and after. The facts share the work of checking the
signatures. -/
theorem facts :
    listed node graph = .ok (some [first, alices, bobs]) ∧
      authored.result.map Prod.fst = .ok onTop ∧
      (authored.result.bind fun done => listed done.2 authored.graph) =
        .ok (some [first, bobs, continued]) ∧
      (History.authentic? authored.graph.toObjectGraph onTop).toOption.join.isSome = true ∧
      History.authentic? graph.toObjectGraph onTop = .ok none := by
  decide +kernel

/-- What is listed are the revisions of a patch. -/
theorem exists_patch_of_listed {node : Node} {graph : MemoryGraph} {revisions : List Revision}
    (h : listed node graph = .ok (some revisions)) :
    ∃ p, node.patch? graph.toObjectGraph repo opening = .ok (some p) ∧ p.revisions = revisions := by
  obtain ⟨found, hfound, hsome⟩ := map_eq_ok_iff.mp h
  obtain ⟨p, rfl, hrevisions⟩ := Option.map_eq_some_iff.mp hsome
  exact ⟨p, hfound, hrevisions⟩

/-- The call succeeds, and the patch can be read before and after it. -/
theorem exists_patches : ∃ node' p p', authored = ⟨.ok (onTop, node'), authored.graph⟩ ∧
    node.patch? graph.toObjectGraph repo opening = .ok (some p) ∧
      p.revisions = [first, alices, bobs] ∧
        node'.patch? authored.graph.toObjectGraph repo opening = .ok (some p') ∧
          p'.revisions = [first, bobs, continued] := by
  obtain ⟨hbefore, hresult, hafter, -⟩ := facts
  obtain ⟨⟨new, node'⟩, hdone, rfl⟩ := map_eq_ok_iff.mp hresult
  rw [hdone] at hafter
  obtain ⟨p, hp, hrevisions⟩ := exists_patch_of_listed hbefore
  obtain ⟨p', hp', hrevisions'⟩ := exists_patch_of_listed hafter
  exact ⟨node', p, p', Node.Authored.eq_of_result hdone, hp, hrevisions, hp', hrevisions'⟩

/-- When Alice goes on with Bob's branch, her own revision is no longer listed. -/
theorem authoring_loses_revision : ∃ (node node' : Node) (graph graph' : MemoryGraph) (now : Int64)
    (repo : RepoId) (call : Authoring) (new id : ObjectId) (p p' : Patch),
    node.author graph now repo call = ⟨.ok (new, node'), graph'⟩ ∧
      node.patch? graph.toObjectGraph repo id = .ok (some p) ∧
        node'.patch? graph'.toObjectGraph repo id = .ok (some p') ∧
          ∃ v ∈ p.revisions, v ∉ p'.revisions := by
  obtain ⟨node', p, p', hcall, hbefore, hrevisions, hafter, hrevisions'⟩ := exists_patches
  refine ⟨node, node', graph, _, _, repo, _, onTop, opening, p, p', hcall, hbefore, hafter, alices,
    ?_, ?_⟩
  · rw [hrevisions]
    decide
  · rw [hrevisions']
    decide

/-- Nothing leads to Alice's revision any more, but something still leads to Bob's. -/
theorem still_led_to_one_branch : ∃ s, node.snapshot repo = .ok s ∧
    ¬StillLed authored.graph.toObjectGraph s node.id opening onTop byAlice ∧
      StillLed authored.graph.toObjectGraph s node.id opening onTop byBob := by
  obtain ⟨node', p, p', hcall, hbefore, hrevisions, hafter, hrevisions'⟩ := exists_patches
  obtain ⟨-, -, -, hsigned, hunknown⟩ := facts
  have hsigned : ∃ change, History.Authentic authored.graph.toObjectGraph onTop change := by
    obtain ⟨change, hchange⟩ := Option.isSome_iff_exists.mp hsigned
    exact ⟨change, toOption_eq_some_iff.mp (Option.join_eq_some_iff.mp hchange)⟩
  have hname : ∀ change, History.Authentic graph.toObjectGraph onTop change →
      History.Authentic authored.graph.toObjectGraph onTop change := fun change hauth => by
    rw [History.Authentic, hunknown] at hauth
    cases hauth
  have hwalk : node'.patch? authored.graph.toObjectGraph repo opening ≠
      .error (.patch (.tooManyChanges opening History.maxChanges)) := by
    rw [hafter]
    intro h
    cases h
  obtain ⟨s, q, hs, hq, hkept, -⟩ := Node.history_of_authoring hcall hbefore hsigned hname hwalk
  rw [hafter] at hq
  cases hq
  rw [hrevisions, hrevisions'] at hkept
  refine ⟨s, hs, fun hled => ?_, ?_⟩
  · have hmem := (hkept alices (by decide)).mpr fun _ => hled
    exact absurd hmem (by decide)
  · exact (hkept bobs (by decide)).mp (by decide) ⟨rfl, rfl⟩

end Forked

end SignedRefs
