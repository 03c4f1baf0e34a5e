import SignedRefs.Proofs.History.Smallest
import SignedRefs.Proofs.Patch.Resolution

/-!
# Views That Remember

Peers learn of changes one after another, and what they have seen they keep. A later view of a patch
may have other namespaces, another graph and other delegates; as long as it replays every change
that an earlier one did, under the same name, it says the same about the opening of the patch, and
lists the earlier revisions in the same order with new ones between them.

## Main results

* `Remembering.opening_eq`: author, target, title and first revision are the same.
* `Remembering.order_sublist`, `Remembering.revisions_sublist`: nothing is put in another order.
* `replay_stable`: the order in which changes are replayed, and how it grows.
-/

namespace SignedRefs

namespace Patch

open Relation

/-- Two readings of a patch, the second of which replays every change that the first one does. -/
structure Remembering (graph graph' : ObjectGraph) (delegates delegates' : SortedSet PeerId)
    (before after : Snapshot) (p p' : Patch) (events events' : Ending.Events) : Prop where
  /-- The first reading. -/
  first : Reading graph delegates before p events
  /-- The second reading. -/
  second : Reading graph' delegates' after p' events'
  /-- They are about the same patch. -/
  id_eq : p'.id = p.id
  /-- What is replayed in the first one is replayed in the second. -/
  kept : ∀ x change, Visible graph before p.id x → History.Authentic graph x change →
    Visible graph' after p.id x ∧ History.Authentic graph' x change

section

variable {graph graph' : ObjectGraph} {delegates delegates' : SortedSet PeerId}
  {before after : Snapshot} {p p' : Patch} {events events' : Ending.Events}

/-- A patch is read again wherever its changes are still replayed. -/
theorem exists_remembering {id : ObjectId} {r : Option Patch}
    (hbefore : inspect graph delegates before id = .ok (some p))
    (hafter : inspect graph' delegates' after id = .ok r)
    (hkept : ∀ x change, Replays graph before id x change → Replays graph' after id x change) :
    ∃ p' events events', r = some p' ∧
      Remembering graph graph' delegates delegates' before after p p' events events' := by
  obtain ⟨rfl, events, h⟩ := inspect_eq_some hbefore
  obtain ⟨history, hcollect, hmem, hget⟩ :=
    hkept _ _ (h.replays_iff.mpr ⟨h.visible_opening, h.authentic_opening⟩)
  have hopening := (visible_iff_mem_order hcollect
    (SortedMap.contains_eq_true_iff.mpr ⟨_, hget⟩)).mpr hmem
  obtain ⟨p', rfl⟩ := exists_patch_of_visible hafter hopening
  obtain ⟨hid, events', h'⟩ := inspect_eq_some hafter
  refine ⟨p', events, events', rfl, h, h', hid, fun x change hx hauth => ?_⟩
  have hreplays := hkept x change (h.replays_iff.mpr ⟨hx, hauth⟩)
  rw [← hid] at hreplays ⊢
  exact h'.replays_iff.mp hreplays

variable (h : Remembering graph graph' delegates delegates' before after p p' events events')

include h

/-- What was visible stays visible. -/
theorem Remembering.visible {x : ObjectId} (hx : Visible graph before p.id x) :
    Visible graph' after p'.id x := by
  obtain ⟨change, hauth⟩ := hx.exists_authentic
  rw [h.id_eq]
  exact (h.kept x change hx hauth).1

/-- A visible change has the same record in both. -/
theorem Remembering.get?_eq {x : ObjectId} (hx : Visible graph before p.id x) :
    events'.history.get? x = events.history.get? x := by
  obtain ⟨change, hauth⟩ := hx.exists_authentic
  rw [(h.first.get?_iff hx).mpr hauth,
    (h.second.get?_iff (h.visible hx)).mpr (h.kept x change hx hauth).2]

/-- What the first change says is the same. -/
theorem Remembering.opening_eq : p'.author = p.author ∧ p'.target = p.target ∧
    p'.title = p.title ∧ p'.root = p.root :=
  h.first.opening_eq h.second h.id_eq
    (h.kept _ _ h.first.visible_opening h.first.authentic_opening).2

/-- The changes of the first reading stand in the second one in the same order. -/
theorem Remembering.order_sublist :
    (events.history.order p.id).Sublist (events'.history.order p'.id) := by
  rw [h.id_eq]
  exact History.order_sublist fun x hx => h.get?_eq (h.first.descends_iff.mp hx)

/-- The records behind the opening stand in the second reading in the same order. -/
theorem Remembering.behind_sublist :
    (behind events.history p.id).Sublist (behind events'.history p'.id) := by
  have hsame : behind events.history p.id = (events.history.order p.id).tail.filterMap
      fun x => (events'.history.get? x).map fun record => (x, record) := by
    rw [behind]
    refine List.filterMap_congr fun x hx => ?_
    rw [h.get?_eq (h.first.mem_order_iff.mp (List.mem_of_mem_tail hx))]
  rw [hsame, behind]
  exact h.order_sublist.tail.filterMap _

/-- The revisions of the first reading stand in the second one in the same order. -/
theorem Remembering.revisions_sublist : p.revisions.Sublist p'.revisions := by
  rw [revisions, revisions, h.opening_eq.2.2.2, h.first.later, h.second.later]
  exact (h.behind_sublist.filterMap _).cons_cons _

end

/-- Replaying has one order, and it is stable. The changes that are connected to a root are listed
once, each one behind the one that it builds on, those that build on the same one by their names,
and no other order of them that puts parents first comes before this one, name by name. The order of
a larger set of changes holds the order of a smaller one. A patch that is read again while its
changes are still replayed keeps its revisions and their order. -/
theorem replay_stable :
    (∀ (history : History) (root : ObjectId), history.Connected root →
      history.IsReplay root (history.order root) ∧
      ((history.order root).Pairwise fun a b => ∀ parent,
        history.Links root a parent → history.Links root b parent → compare a b = .lt) ∧
      ∀ other, history.IsReplay root other →
        history.order root = other ∨ History.Precedes (history.order root) other) ∧
    (∀ (history larger : History) (root : ObjectId), history.Connected root →
      larger.Connected root →
      (∀ id change, history.get? id = some change → larger.get? id = some change) →
      (history.order root).Sublist (larger.order root)) ∧
    ∀ (graph graph' : ObjectGraph) (delegates delegates' : SortedSet PeerId)
      (before after : Snapshot) (id : ObjectId) (p : Patch) (r : Option Patch),
      inspect graph delegates before id = .ok (some p) →
      inspect graph' delegates' after id = .ok r →
      (∀ x change, Replays graph before id x change → Replays graph' after id x change) →
      ∃ p', r = some p' ∧ p.revisions.Sublist p'.revisions := by
  refine ⟨fun history root h => ⟨h.isReplay_order, History.pairwise_siblings_order,
    fun other => h.order_le⟩, fun history larger root h _ hlarger => ?_, ?_⟩
  · refine History.order_sublist fun id hid => ?_
    obtain ⟨change, hchange⟩ := SortedMap.contains_eq_true_iff.mp (h.descends_iff.mp hid)
    rw [hchange, hlarger id change hchange]
  · intro graph graph' delegates delegates' before after id p r hbefore hafter hkept
    obtain ⟨p', events, events', rfl, h⟩ := exists_remembering hbefore hafter hkept
    exact ⟨p', rfl, h.revisions_sublist⟩

end Patch

/-! ### The contested patch, before Alice is heard of -/

namespace Contested

open Patch

/-- Only Bob's namespace is known. -/
def fromBob : Snapshot :=
  { snapshot with namespaces := snapshot.namespaces.filter fun id _ => id = bob }

/-- What his refs lead to: his close and the revision behind it. -/
def historyFromBob : History :=
  .ofList [(opening, openingChange), (close, closingChange), (behindClose, behindCloseChange)]

/-- The patch as he knows it. -/
def patchFromBob : Patch :=
  { patch with
    later := [⟨behindClose, commit 1, commit 4, alice, some close, 1⟩]
    status := .closed
    resolution := some (.closed bob "done") }

set_option maxRecDepth 100000 in
/-- What is collected and read. -/
theorem facts_fromBob :
    History.collect graph opening (fromBob.patchTips opening) = .ok historyFromBob ∧
      inspect graph delegates fromBob opening = .ok (some patchFromBob) := by
  decide +kernel

/-- The history is connected. -/
theorem connected_history : history.Connected opening :=
  History.connected_of_keys (by decide) (by decide)

/-- The part of the history that is Bob's is connected. -/
theorem connected_historyFromBob : historyFromBob.Connected opening :=
  History.connected_of_keys (by decide) (by decide)

/-- Bob's part has the same changes. -/
theorem get?_history {id : ObjectId} {change : Change}
    (h : historyFromBob.get? id = some change) : history.get? id = some change := by
  have hall : ∀ e ∈ historyFromBob.entries, history.get? e.1 = some e.2 := by decide
  exact hall (id, change) (SortedMap.mem_entries_iff.mpr h)

/-- What Bob replays is replayed when the other namespaces are known. -/
theorem replays_of_fromBob {x : ObjectId} {change : Change}
    (h : Replays graph fromBob opening x change) : Replays graph snapshot opening x change := by
  obtain ⟨found, hcollect, hmem, hget⟩ := h
  rw [facts_fromBob.1] at hcollect
  cases hcollect
  have hall : ∀ x ∈ historyFromBob.order opening, x ∈ history.order opening := by decide
  exact ⟨history, facts.1, hall x hmem, get?_history hget⟩

/-- Mallory's close and Alice's revision are put between the opening and Bob's close, as their names
are smaller, and the revision behind the close stays behind it. -/
theorem order_with_alice :
    history.order opening = [opening, revision, unentitled, close, behindClose] ∧
    (historyFromBob.order opening).Sublist (history.order opening) ∧
    (history.order opening = [opening, unentitled, revision, close, behindClose] ∨
      History.Precedes (history.order opening)
        [opening, unentitled, revision, close, behindClose]) ∧
    patchFromBob.revisions.Sublist patch.revisions := by
  obtain ⟨hsmallest, hgrows, hrevisions⟩ := replay_stable
  obtain ⟨p, hp, hsublist⟩ := hrevisions _ _ _ _ _ _ _ _ _ facts_fromBob.2 facts.2 fun _ _ =>
    replays_of_fromBob
  obtain rfl := Option.some.inj hp
  exact ⟨by decide,
    hgrows _ _ _ connected_historyFromBob connected_history fun _ _ => get?_history,
    (hsmallest _ _ connected_history).2.2 _ (History.isReplay_of_idxOf (by decide) (by decide)),
    hsublist⟩

end Contested

end SignedRefs
