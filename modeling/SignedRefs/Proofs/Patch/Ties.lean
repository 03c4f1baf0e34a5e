import SignedRefs.Proofs.Patch.Remembering

/-!
# Ties

Changes that build on the same one are replayed in the order of their names, which mean nothing.
Had they other names, the changes would stand in another order, but the patch would end in the same
way: what counts is found from the ancestors of each change, and of what counts the earliest event
decides. Where an event stands in the order matters only if a merge and a close are both the
earliest (`Tied`).

## Main results

* `mem_surviving_merged_iff`, `mem_surviving_closed_iff`: in every replay of a tree the same events
  count.
* `tied_of_settle`: if one replay ends with a merge and another one with a close, there is a tie.
* `kind_of_settle`: without a tie, every replay ends in the same way.
-/

namespace SignedRefs

open Relation

/-- A history whose changes form a tree: each of them descends from the root, which builds on
nothing. -/
structure History.IsTree (history : History) (root : ObjectId) : Prop
    extends history.Connected root where
  /-- The root builds on nothing. -/
  parentless : ∀ change, history.get? root = some change → change.parent = none

namespace Ending

/-! ### What counts in a tree -/

/-- The change has this time. -/
def TimeOf (history : History) (id : ObjectId) (time : Int64) : Prop :=
  ∃ change, history.get? id = some change ∧ change.timestamp = time

/-- A merged revision from that time survives: no honoured close is a strict ancestor of it. -/
def SurvivingMerge (events : Events) (root revision : ObjectId) (time : Int64) : Prop :=
  events.merged.contains revision = true ∧ TimeOf events.history revision time ∧
    ∀ a, TransGen (events.history.Links root) revision a → events.closes.contains a = false

/-- An honoured close from that time survives: no honoured close and no merged revision is a strict
ancestor of it. -/
def SurvivingClose (events : Events) (root close : ObjectId) (time : Int64) : Prop :=
  events.closes.contains close = true ∧ TimeOf events.history close time ∧
    ∀ a, TransGen (events.history.Links root) close a →
      events.closes.contains a = false ∧ events.merged.contains a = false

/-- A merge and a close survive from one time, and nothing survives from an earlier one. -/
def Tied (events : Events) (root : ObjectId) : Prop :=
  ∃ time, (∃ revision, SurvivingMerge events root revision time) ∧
    (∃ close, SurvivingClose events root close time) ∧
    ∀ id t, SurvivingMerge events root id t ∨ SurvivingClose events root id t → time ≤ t

section

variable {events : Events} {root : ObjectId} {order order' : List ObjectId}

/-- A close that survives and is a merged revision itself survives as that. -/
theorem SurvivingClose.survivingMerge {id : ObjectId} {time : Int64}
    (h : SurvivingClose events root id time) (hmerged : events.merged.contains id = true) :
    SurvivingMerge events root id time :=
  ⟨hmerged, h.2.1, fun a ha => (h.2.2 a ha).1⟩

variable (htree : events.history.IsTree root) (hsize : events.history.size ≤ History.maxChanges)

include htree hsize

/-- In a tree within the limit, what holds of the listed ancestors holds of all of them. -/
theorem forall_ancestors_iff {id : ObjectId} {time : Int64} (htime : TimeOf events.history id time)
    {P : ObjectId → Prop} :
    (∀ a ∈ events.history.ancestors History.maxChanges id, P a) ↔
      ∀ a, TransGen (events.history.Links root) id a → P a := by
  obtain ⟨record, hrecord, -⟩ := htime
  have hdescends := htree.descends id (SortedMap.contains_eq_true_iff.mpr ⟨record, hrecord⟩)
  exact forall_congr' fun a => imp_congr_left
    (History.mem_ancestors_iff hdescends htree.contains htree.parentless hsize)

variable (horder : events.history.IsReplay root order)

include horder

/-- The merges that count are those that survive. -/
theorem mem_surviving_merged_iff {revision : ObjectId} {time : Int64} :
    (time, .merged revision) ∈ surviving events order ↔
      SurvivingMerge events root revision time := by
  rw [mem_surviving_iff, change, at?_eq_some_merged_iff, horder.mem_iff]
  constructor
  · rintro ⟨-, ⟨-, hmerged, hnone⟩, htime⟩
    exact ⟨hmerged, htime, (forall_ancestors_iff htree hsize htime).mp hnone⟩
  · rintro ⟨hmerged, htime, hnone⟩
    obtain ⟨record, hrecord, -⟩ := id htime
    exact ⟨SortedMap.contains_eq_true_iff.mpr ⟨record, hrecord⟩,
      ⟨rfl, hmerged, (forall_ancestors_iff htree hsize htime).mpr hnone⟩, htime⟩

/-- The closes that count are those that survive and are no merges. -/
theorem mem_surviving_closed_iff {close : ObjectId} {time : Int64} :
    (time, .closed close) ∈ surviving events order ↔
      SurvivingClose events root close time ∧ events.merged.contains close = false := by
  rw [mem_surviving_iff, change, at?_eq_some_closed_iff, horder.mem_iff]
  constructor
  · rintro ⟨-, ⟨-, hmerged, hclosed, hnone⟩, htime⟩
    exact ⟨⟨hclosed, htime, (forall_ancestors_iff htree hsize htime).mp hnone⟩, hmerged⟩
  · rintro ⟨⟨hclosed, htime, hnone⟩, hmerged⟩
    obtain ⟨record, hrecord, -⟩ := id htime
    exact ⟨SortedMap.contains_eq_true_iff.mpr ⟨record, hrecord⟩,
      ⟨rfl, hmerged, hclosed, (forall_ancestors_iff htree hsize htime).mpr hnone⟩, htime⟩

/-- What survives counts, a close that is a merge as such. -/
theorem exists_mem_surviving {id : ObjectId} {time : Int64}
    (h : SurvivingMerge events root id time ∨ SurvivingClose events root id time) :
    ∃ event, (time, event) ∈ surviving events order := by
  rcases h with hmerge | hclose
  · exact ⟨_, (mem_surviving_merged_iff htree hsize horder).mpr hmerge⟩
  · cases hmerged : events.merged.contains id with
    | true =>
        exact ⟨_, (mem_surviving_merged_iff htree hsize horder).mpr
          (hclose.survivingMerge hmerged)⟩
    | false => exact ⟨_, (mem_surviving_closed_iff htree hsize horder).mpr ⟨hclose, hmerged⟩⟩

/-- What counts survives. -/
theorem survives_of_mem_surviving {event : Ending} {time : Int64}
    (h : (time, event) ∈ surviving events order) :
    SurvivingMerge events root event.change time ∨
      SurvivingClose events root event.change time := by
  cases event with
  | merged revision => exact .inl ((mem_surviving_merged_iff htree hsize horder).mp h)
  | closed close => exact .inr ((mem_surviving_closed_iff htree hsize horder).mp h).1

/-! ### Two replays of one tree -/

/-- A replay leaves the patch open exactly if nothing survives. -/
theorem settle_eq_none_iff_survives : settle events order = none ↔
    ∀ id time, ¬(SurvivingMerge events root id time ∨ SurvivingClose events root id time) := by
  rw [settle_eq_none_iff, List.eq_nil_iff_forall_not_mem]
  constructor
  · intro hnone id time hsurvives
    obtain ⟨event, hevent⟩ := exists_mem_surviving htree hsize horder hsurvives
    exact hnone _ hevent
  · rintro hnone ⟨time, event⟩ hevent
    exact hnone _ _ (survives_of_mem_surviving htree hsize horder hevent)

/-- If one replay ends with a merge and another one with a close, there is a tie: each of the two
counts in both replays, so neither is earlier than the other. -/
theorem tied_of_settle (horder' : events.history.IsReplay root order')
    {revision close : ObjectId} (hmerged : settle events order = some (.merged revision))
    (hclosed : settle events order' = some (.closed close)) : Tied events root := by
  obtain ⟨⟨time, first, hmerge⟩, -⟩ := settle_eq_merged_iff.mp hmerged
  obtain ⟨time', hclose⟩ := settle_eq_closed_iff.mp hclosed
  have hfirst := (mem_surviving_merged_iff htree hsize horder).mp hmerge.mem
  obtain ⟨hsurvives, hnot⟩ := (mem_surviving_closed_iff htree hsize horder').mp hclose.mem
  obtain rfl : time = time' := by
    refine Std.le_antisymm ?_ ?_
    · exact hmerge.le _ ((mem_surviving_closed_iff htree hsize horder).mpr ⟨hsurvives, hnot⟩)
    · exact hclose.le _ ((mem_surviving_merged_iff htree hsize horder').mpr hfirst)
  refine ⟨time, ⟨first, hfirst⟩, ⟨close, hsurvives⟩, fun id t h => ?_⟩
  obtain ⟨event, hevent⟩ := exists_mem_surviving htree hsize horder h
  exact hmerge.le _ hevent

end

/-- It can be checked by comparing times that nothing is tied. -/
theorem not_tied_of_keys {events : Events} {root : ObjectId}
    (h : ∀ revision ∈ events.merged.keys, ∀ close ∈ events.closes.keys,
      (events.history.get? revision).map Change.timestamp ≠
        (events.history.get? close).map Change.timestamp) : ¬Tied events root := by
  rintro ⟨time, ⟨revision, hmerged, ⟨c, hc, rfl⟩, -⟩, ⟨close, hclosed, ⟨d, hd, htime⟩, -⟩, -⟩
  refine h revision (SortedMap.mem_keys_iff.mpr hmerged) close
    (SortedMap.mem_keys_iff.mpr hclosed) ?_
  rw [hc, hd, Option.map_some, Option.map_some, htime]

/-- The order of siblings alone does not decide between merged and closed. Two replays of one tree
of changes leave the patch open, or end it with a merge, or end it with a close, both in the same
way, unless a surviving merge and a surviving close are both from the earliest time of all that
survives. -/
theorem kind_of_settle {events : Events} {root : ObjectId} {order order' : List ObjectId}
    (htree : events.history.IsTree root) (hsize : events.history.size ≤ History.maxChanges)
    (horder : events.history.IsReplay root order) (horder' : events.history.IsReplay root order')
    (htie : ¬Tied events root) :
    (settle events order).map isMerge = (settle events order').map isMerge := by
  have hopen : settle events order = none ↔ settle events order' = none := by
    rw [settle_eq_none_iff_survives htree hsize horder,
      settle_eq_none_iff_survives htree hsize horder']
  cases h : settle events order with
  | none => rw [hopen.mp h]
  | some event =>
      cases h' : settle events order' with
      | none =>
          rw [hopen.mpr h'] at h
          cases h
      | some event' =>
          cases event with
          | merged revision =>
              cases event' with
              | merged revision' => rfl
              | closed close =>
                  exact absurd (tied_of_settle htree hsize horder horder' h h') htie
          | closed close =>
              cases event' with
              | merged revision =>
                  exact absurd (tied_of_settle htree hsize horder' horder h' h) htie
              | closed close' => rfl

end Ending

/-! ### The contested patch, replayed in another order -/

namespace Contested

open Ending

/-- Both of Alice's revisions are merged, and Bob's close is honoured. -/
def events : Events := ⟨history, .ofList [close], .ofList [(revision, bob), (behindClose, bob)]⟩

/-- The same, but for Alice's revision, which is as late as Bob's close. -/
def tiedEvents : Events :=
  { events with history := history.insert revision { revisingChange with timestamp := 30 } }

/-- The changes, with Bob's close before the revision that Alice makes beside it. -/
def closeFirst : List ObjectId := [opening, close, behindClose, unentitled, revision]

/-- The changes form a tree. -/
theorem isTree_history : events.history.IsTree opening where
  toConnected := connected_history
  parentless := by decide

/-- Alice's revision ends the patch in both orders. -/
theorem merged_in_both_orders :
    (settle events (history.order opening)).map isMerge = some true ∧
      (settle events closeFirst).map isMerge = some true := by
  have horder := connected_history.isReplay_order
  have hcloseFirst : history.IsReplay opening closeFirst :=
    History.isReplay_of_idxOf (by decide) (by decide)
  have hkind := kind_of_settle isTree_history (by decide) horder hcloseFirst
    (not_tied_of_keys (by decide))
  have hmerged : (settle events (history.order opening)).map isMerge = some true := by decide
  exact ⟨hmerged, hkind.symm.trans hmerged⟩

/-- Among equally early events the order decides. -/
example : settle tiedEvents (tiedEvents.history.order opening) = some (.merged revision) ∧
    settle tiedEvents closeFirst = some (.closed close) := by
  decide

end Contested

end SignedRefs
