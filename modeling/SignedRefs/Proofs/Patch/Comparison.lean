import SignedRefs.Proofs.Patch.Reading

/-!
# Two Readings of a Patch

A patch is read again when namespaces have changed, and perhaps the graph has learnt of more changes
in the meantime. What is authentic stays so, so a change that both readings see makes the same
revision in both, and what the first change says about the patch is the same in all readings.

## Main results

* `opening_eq`: author, target and first revision never change.
* `mem_revisions_of_visible`: a change that is visible in both readings makes the same revisions.
* `Visible.extended`: what is visible stays so where the namespaces still lead to it.
* `exists_rereading`: which revisions stay, and whether the patch has ended, in terms of what is
  visible.
-/

namespace SignedRefs

open Relation

/-- A graph still knows what another one did, and has the same commits. -/
structure ObjectGraph.Extended (graph larger : ObjectGraph) : Prop where
  /-- What was authentic still is. -/
  authentic : ∀ {id change}, History.Authentic graph id change → History.Authentic larger id change
  /-- Commits are related as before. -/
  isAncestor : larger.isAncestor = graph.isAncestor

/-- Every graph extends itself. -/
theorem ObjectGraph.Extended.refl (graph : ObjectGraph) : graph.Extended graph :=
  ⟨fun hauth => hauth, rfl⟩

variable {graph larger : ObjectGraph}

namespace History

variable {root : ObjectId}

/-- A change still builds on the same one in a larger graph. -/
theorem BuildsOn.extended {id p : ObjectId} (hgraph : graph.Extended larger)
    (h : BuildsOn graph root id p) : BuildsOn larger root id p := by
  obtain ⟨hne, change, hauth, hparent⟩ := h
  exact ⟨hne, change, hgraph.authentic hauth, hparent⟩

/-- Ways in a graph are ways in a larger one. -/
theorem reflTransGen_extended {id a : ObjectId} (hgraph : graph.Extended larger)
    (h : ReflTransGen (BuildsOn graph root) id a) : ReflTransGen (BuildsOn larger root) id a :=
  ReflTransGen.mono (fun _ _ hp => hp.extended hgraph) _ _ h

end History

namespace Patch

variable {delegates : SortedSet PeerId} {before after : Snapshot} {p p' : Patch}
  {events events' : Ending.Events}

/-- What was visible stays so where the namespaces still lead to it. -/
theorem Visible.extended {id x : ObjectId} (hgraph : graph.Extended larger)
    (h : Visible graph before id x) (hmet : History.Met larger id (after.patchTips id) x) :
    Visible larger after id x := by
  obtain ⟨opening, hopening⟩ := h.root_authentic
  exact ⟨hmet, History.reflTransGen_extended hgraph h.descends, opening,
    hgraph.authentic hopening⟩

/-- What ended a patch still does. -/
theorem Ends.extended {author : PeerId} {tips : List (PeerId × ObjectId)} {x : ObjectId}
    (hgraph : graph.Extended larger) (h : Ends graph author delegates tips x) :
    Ends larger author delegates tips x := by
  obtain ⟨change, hauth, hends⟩ := h
  refine ⟨change, hgraph.authentic hauth, ?_⟩
  simpa only [InTarget, hgraph.isAncestor] using hends

/-- What the first change says is the same in all readings. -/
theorem opening_eq (hgraph : graph.Extended larger) (h : Reading graph delegates before p events)
    (h' : Reading larger delegates after p' events') (hid : p'.id = p.id) :
    p'.author = p.author ∧ p'.target = p.target ∧ p'.root = p.root := by
  obtain ⟨hauthor, htarget, -, hroot⟩ :=
    h.opening_eq h' hid (hgraph.authentic h.authentic_opening)
  exact ⟨hauthor, htarget, hroot⟩

/-- A change that was visible before makes the same revisions afterwards. -/
theorem mem_revisions_of_visible (hgraph : graph.Extended larger)
    (h : Reading graph delegates before p events)
    (h' : Reading larger delegates after p' events') (hid : p'.id = p.id) {v : Revision}
    (hv : Visible graph before p.id v.id) (hkept : Visible larger after p.id v.id) :
    v ∈ p'.revisions ↔ v ∈ p.revisions := by
  obtain ⟨record, hrecord⟩ := hv.exists_authentic
  rw [revisions, revisions, List.mem_cons, List.mem_cons, (opening_eq hgraph h h' hid).2.2,
    h'.mem_later_iff, h.mem_later_iff, hid]
  refine or_congr_right <| and_congr_right fun _ => and_congr ⟨fun _ => hv, fun _ => hkept⟩ ?_
  constructor
  · rintro ⟨change, hauth, hrevision⟩
    obtain rfl := hauth.unique (hgraph.authentic hrecord)
    exact ⟨change, hrecord, hrevision⟩
  · rintro ⟨change, hauth, hrevision⟩
    exact ⟨change, hgraph.authentic hauth, hrevision⟩

/-- A patch that was read can be read again, unless there are too many changes, as long as its first
change is visible. The revisions that stay are the visible ones, and it has ended if a visible
change ends it. -/
theorem exists_rereading (hgraph : graph.Extended larger) (hanswers : Answers larger)
    (h : Reading graph delegates before p events)
    (hheads : targetTips after delegates p.author p.target =
      targetTips before delegates p.author p.target)
    (hopening : Visible larger after p.id p.id)
    (hlimit : inspect larger delegates after p.id ≠
      .error (.tooManyChanges p.id History.maxChanges)) :
    ∃ p', inspect larger delegates after p.id = .ok (some p') ∧
      (∀ v ∈ p.revisions, v ∈ p'.revisions ↔ Visible larger after p.id v.id) ∧
      (p'.status.isTerminal = true ↔ ∃ x, Visible larger after p.id x ∧
        Ends larger p.author delegates (targetTips before delegates p.author p.target) x) := by
  cases hread : inspect larger delegates after p.id with
  | error error =>
      have hauth := hgraph.authentic h.authentic_opening
      obtain rfl := inspect_error hanswers hauth ⟨_, _, _, _, rfl⟩ hread
      exact absurd hread hlimit
  | ok r =>
      obtain ⟨p', rfl⟩ := exists_patch_of_visible hread hopening
      obtain ⟨hid, events', h'⟩ := inspect_eq_some hread
      obtain ⟨hauthor, htarget, -⟩ := opening_eq hgraph h h' hid
      refine ⟨p', rfl, fun v hv => ⟨fun hv' => ?_, fun hkept => ?_⟩, ?_⟩
      · exact hid ▸ h'.visible_revision hv'
      · exact (mem_revisions_of_visible hgraph h h' hid (h.visible_revision hv) hkept).mpr hv
      · rw [h'.isTerminal_iff_ends, hid, hauthor, htarget, hheads]

end Patch

end SignedRefs
