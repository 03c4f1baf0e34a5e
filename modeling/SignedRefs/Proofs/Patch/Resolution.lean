import SignedRefs.Proofs.Digits
import SignedRefs.Proofs.Patch.Target

/-!
# How a Patch Ended

A patch ends when a revision is merged or when someone who decides about it closes it, and the
status and the resolution of a patch that is read say no more and no less. Not every such event
counts: a merge does unless the change builds on an honoured close (`MergeCounts`), a close does
unless it builds on another one or on a merged revision (`CloseCounts`). Some event that counts
always remains, and the resolution names one of the kind that came first.

## Main results

* `Reading.at?_eq_merged_iff`, `Reading.at?_eq_closed_iff`: the events that count, in terms of the
  graph.
* `status_determined`: the status of a patch, and when it has a resolution of which kind.
* `resolution_sound`: what a resolution says.
-/

namespace SignedRefs

namespace Patch

open Relation

/-! ### The replay -/

/-- The names of the replayed changes, in order. -/
def ReplayOrder (graph : ObjectGraph) (snapshot : Snapshot) (id : ObjectId)
    (order : List ObjectId) : Prop :=
  ∃ history, History.collect graph id (snapshot.patchTips id) = .ok history ∧
    history.order id = order

/-- A change is replayed under a name. -/
def Replays (graph : ObjectGraph) (snapshot : Snapshot) (id x : ObjectId) (change : Change) :
    Prop :=
  ∃ history, History.collect graph id (snapshot.patchTips id) = .ok history ∧
    x ∈ history.order id ∧ history.get? x = some change

/-! ### The events that count -/

/-- A revision that some target branch contains was made under a name. -/
def MergedAt (graph : ObjectGraph) (delegates : SortedSet PeerId) (snapshot : Snapshot) (p : Patch)
    (x : ObjectId) : Prop :=
  ∃ v ∈ p.revisions, v.id = x ∧ ∃ peer, Decider p.author delegates peer ∧
    HeadContains graph snapshot p.target peer v.head

/-- A merged revision counts: it builds on no honoured close. -/
structure MergeCounts (graph : ObjectGraph) (delegates : SortedSet PeerId) (snapshot : Snapshot)
    (p : Patch) (x : ObjectId) : Prop where
  /-- It is merged. -/
  merged : MergedAt graph delegates snapshot p x
  /-- No ancestor is an honoured close. -/
  notClosed : ∀ a, TransGen (History.BuildsOn graph p.id) x a →
    ¬HonouredClose graph p.author delegates a

/-- An honoured close counts: it builds on no other one, and on no merged revision. -/
structure CloseCounts (graph : ObjectGraph) (delegates : SortedSet PeerId) (snapshot : Snapshot)
    (p : Patch) (x : ObjectId) : Prop where
  /-- It is replayed. -/
  replayed : Visible graph snapshot p.id x
  /-- Someone who decides about the patch closes it. -/
  honoured : HonouredClose graph p.author delegates x
  /-- No ancestor is an honoured close. -/
  notClosed : ∀ a, TransGen (History.BuildsOn graph p.id) x a →
    ¬HonouredClose graph p.author delegates a
  /-- No ancestor is a merged revision. -/
  notMerged : ∀ a, TransGen (History.BuildsOn graph p.id) x a →
    ¬MergedAt graph delegates snapshot p a

/-- The author of a change says that it was made at some time. -/
def MadeAt (graph : ObjectGraph) (x : ObjectId) (time : Int64) : Prop :=
  ∃ change, History.Authentic graph x change ∧ change.timestamp = time

variable {graph : ObjectGraph} {delegates : SortedSet PeerId} {snapshot : Snapshot}

/-- A close is honoured if it is by someone who decides about the patch. -/
theorem isHonouredClose_iff {author : PeerId} {change : Change} :
    isHonouredClose author delegates change = true ↔
      (∃ reason, change.action = .close reason) ∧ Decider author delegates change.author := by
  rw [isHonouredClose]
  cases change.action with
  | openPatch target title base head => simp
  | revise base head => simp
  | close reason => simp [Decider]

section

variable {p : Patch} {events : Ending.Events} (h : Reading graph delegates snapshot p events)

include h

/-- The replayed changes are the authentic ones that are visible. -/
theorem Reading.replays_iff {x : ObjectId} {change : Change} :
    Replays graph snapshot p.id x change ↔
      Visible graph snapshot p.id x ∧ History.Authentic graph x change := by
  constructor
  · rintro ⟨history, hcollect, hmem, hget⟩
    rw [h.collected] at hcollect
    cases hcollect
    have hx := h.mem_order_iff.mp hmem
    exact ⟨hx, (h.get?_iff hx).mp hget⟩
  · rintro ⟨hx, hauth⟩
    exact ⟨events.history, h.collected, h.mem_order_iff.mpr hx, (h.get?_iff hx).mpr hauth⟩

/-- A name is among the merged ones exactly if a revision that some target branch contains was made
under it. -/
theorem Reading.contains_merged_iff_mergedAt {x : ObjectId} :
    events.merged.contains x = true ↔ MergedAt graph delegates snapshot p x := by
  simp only [h.contains_merged_iff, inTarget_iff]
  rfl

/-- What is merged is visible. -/
theorem Reading.visible_of_mergedAt {x : ObjectId} (hx : MergedAt graph delegates snapshot p x) :
    Visible graph snapshot p.id x := by
  obtain ⟨v, hv, rfl, -⟩ := hx
  exact h.visible_revision hv

/-- Below a visible change, the closes that were found are the honoured ones. -/
theorem Reading.forall_ancestor_iff {x : ObjectId} (hx : Visible graph snapshot p.id x) :
    (∀ a ∈ events.history.ancestors History.maxChanges x, events.closes.contains a = false) ↔
      ∀ a, TransGen (History.BuildsOn graph p.id) x a →
        ¬HonouredClose graph p.author delegates a := by
  refine forall_congr' fun a => ?_
  rw [h.mem_ancestors_iff hx]
  refine forall_congr' fun ha => ?_
  rw [← Bool.not_eq_true, h.contains_closes_iff]
  exact not_congr (and_iff_right (hx.ancestor ha))

/-- The merges that count are the events that were found. -/
theorem Reading.at?_eq_merged_iff {x : ObjectId} :
    Ending.at? events x = some (.merged x) ↔ MergeCounts graph delegates snapshot p x := by
  rw [Ending.at?_eq_some_merged_iff, h.contains_merged_iff_mergedAt]
  constructor
  · rintro ⟨-, hmerged, hnone⟩
    exact ⟨hmerged, (h.forall_ancestor_iff (h.visible_of_mergedAt hmerged)).mp hnone⟩
  · rintro ⟨hmerged, hnone⟩
    exact ⟨rfl, hmerged, (h.forall_ancestor_iff (h.visible_of_mergedAt hmerged)).mpr hnone⟩

/-- An honoured close makes no revision. -/
theorem Reading.not_mergedAt_of_honouredClose {x : ObjectId}
    (hx : HonouredClose graph p.author delegates x) : ¬MergedAt graph delegates snapshot p x := by
  rintro ⟨v, hv, rfl, -⟩
  obtain ⟨change, hauth, hclose⟩ := hx
  obtain ⟨⟨reason, haction⟩, -⟩ := isHonouredClose_iff.mp hclose
  obtain ⟨change', hauth', hproposal⟩ := h.exists_proposal hv
  rw [← hauth.unique hauth', Change.revision?, haction] at hproposal
  cases hproposal

/-- The closes that count are the events that were found. -/
theorem Reading.at?_eq_closed_iff {x : ObjectId} :
    Ending.at? events x = some (.closed x) ↔ CloseCounts graph delegates snapshot p x := by
  have hmerged : ∀ a, events.merged.contains a = false ↔ ¬MergedAt graph delegates snapshot p a :=
    fun a => by rw [← Bool.not_eq_true, h.contains_merged_iff_mergedAt]
  rw [Ending.at?_eq_some_closed_iff, h.contains_closes_iff]
  simp only [hmerged, forall_and, true_and]
  constructor
  · rintro ⟨-, ⟨hx, hhonoured⟩, hclosed, hnone⟩
    exact ⟨hx, hhonoured, (h.forall_ancestor_iff hx).mp hclosed,
      fun a ha => hnone a ((h.mem_ancestors_iff hx).mpr ha)⟩
  · rintro ⟨hx, hhonoured, hclosed, hnone⟩
    exact ⟨h.not_mergedAt_of_honouredClose hhonoured, ⟨hx, hhonoured⟩,
      (h.forall_ancestor_iff hx).mpr hclosed,
      fun a ha => hnone a ((h.mem_ancestors_iff hx).mp ha)⟩

/-- A merge that counts, with its time. -/
theorem Reading.stamp?_eq_merged_iff {x : ObjectId} {time : Int64} :
    Ending.stamp? events x = some (time, .merged x) ↔
      MergeCounts graph delegates snapshot p x ∧ MadeAt graph x time := by
  rw [Ending.stamp?_eq_some_iff, h.at?_eq_merged_iff]
  refine and_congr_right fun hx => exists_congr fun change => ?_
  rw [h.get?_iff (h.visible_of_mergedAt hx.merged)]

/-- A close that counts, with its time. -/
theorem Reading.stamp?_eq_closed_iff {x : ObjectId} {time : Int64} :
    Ending.stamp? events x = some (time, .closed x) ↔
      CloseCounts graph delegates snapshot p x ∧ MadeAt graph x time := by
  rw [Ending.stamp?_eq_some_iff, h.at?_eq_closed_iff]
  refine and_congr_right fun hx => exists_congr fun change => ?_
  rw [h.get?_iff hx.replayed]

/-- The merges among the events that count. -/
theorem Reading.mem_surviving_merged_iff {x : ObjectId} {time : Int64} :
    (time, .merged x) ∈ Ending.surviving events (events.history.order p.id) ↔
      MergeCounts graph delegates snapshot p x ∧ MadeAt graph x time := by
  rw [← h.stamp?_eq_merged_iff, Ending.mem_surviving_iff, ← Ending.stamp?_eq_some_iff]
  refine and_iff_right_of_imp fun hstamp => h.mem_order_iff.mpr ?_
  exact h.visible_of_mergedAt (h.stamp?_eq_merged_iff.mp hstamp).1.merged

/-- The closes among the events that count. -/
theorem Reading.mem_surviving_closed_iff {x : ObjectId} {time : Int64} :
    (time, .closed x) ∈ Ending.surviving events (events.history.order p.id) ↔
      CloseCounts graph delegates snapshot p x ∧ MadeAt graph x time := by
  rw [← h.stamp?_eq_closed_iff, Ending.mem_surviving_iff, ← Ending.stamp?_eq_some_iff]
  refine and_iff_right_of_imp fun hstamp => h.mem_order_iff.mpr ?_
  exact (h.stamp?_eq_closed_iff.mp hstamp).1.replayed

/-! ### The status -/

/-- An open patch is updated if it has further revisions. -/
theorem Reading.status_of_open (hopen : p.status.isTerminal = false) :
    p.status = if p.revisions.length = 1 then .proposed else .updated := by
  rw [← Bool.not_eq_true, h.isTerminal_iff_settle, not_not] at hopen
  rw [h.status_eq, hopen, conclude, revisions]
  cases p.later with
  | nil => simp
  | cons v later => simp

/-- What a merge resolves to has an owner. -/
theorem Reading.resolution_of_merged {revision : ObjectId}
    (hsettle : Ending.settle events (events.history.order p.id) = some (.merged revision)) :
    ∃ into, p.resolution = some (.merged revision into) ∧
      events.merged.get? revision = some into := by
  obtain ⟨time, hmem⟩ := Ending.mem_of_settle_merged hsettle
  have hmerged := (h.mem_surviving_merged_iff.mp hmem).1.merged
  obtain ⟨into, hinto⟩ := SortedMap.contains_eq_true_iff.mp
    (h.contains_merged_iff_mergedAt.mpr hmerged)
  exact ⟨into, by rw [h.resolution_eq, hsettle, conclude, hinto, Option.map_some], hinto⟩

/-- A close that decides says who closed the patch, and why. -/
theorem Reading.exists_close_of_settle {close : ObjectId}
    (hsettle : Ending.settle events (events.history.order p.id) = some (.closed close)) :
    ∃ change reason, Replays graph snapshot p.id close change ∧
      CloseCounts graph delegates snapshot p close ∧ change.action = .close reason ∧
        Decider p.author delegates change.author ∧
          p.resolution = some (.closed change.author reason) := by
  obtain ⟨time, hdecides⟩ := Ending.settle_eq_closed_iff.mp hsettle
  have hcounts := (h.mem_surviving_closed_iff.mp hdecides.mem).1
  obtain ⟨change, hauth, hclose⟩ := hcounts.honoured
  obtain ⟨⟨reason, haction⟩, hdecider⟩ := isHonouredClose_iff.mp hclose
  have hresolution := h.resolution_of_closed hsettle ((h.get?_iff hcounts.replayed).mpr hauth)
  rw [reasonOf, haction] at hresolution
  exact ⟨change, reason, h.replays_iff.mpr ⟨hcounts.replayed, hauth⟩, hcounts, haction, hdecider,
    hresolution⟩

/-- A patch is open, merged or closed, and the resolution goes with it. -/
theorem Reading.cases_resolution :
    (p.status.isTerminal = false ∧ p.resolution = none) ∨
      (p.status = .merged ∧ ∃ revision into, p.resolution = some (.merged revision into)) ∨
        (p.status = .closed ∧ ∃ author reason, p.resolution = some (.closed author reason)) := by
  cases hsettle : Ending.settle events (events.history.order p.id) with
  | none =>
      have hopen := h.isTerminal_iff_settle.not.mpr (not_not.mpr hsettle)
      refine .inl ⟨Bool.eq_false_iff.mpr hopen, ?_⟩
      rw [h.resolution_eq, hsettle, conclude]
  | some event =>
      cases event with
      | merged revision =>
          obtain ⟨into, hresolution, -⟩ := h.resolution_of_merged hsettle
          exact .inr (.inl ⟨h.status_eq_merged_iff.mpr ⟨_, hsettle⟩, _, _, hresolution⟩)
      | closed close =>
          obtain ⟨change, reason, -, -, -, -, hresolution⟩ := h.exists_close_of_settle hsettle
          exact .inr (.inr ⟨h.status_eq_closed_iff.mpr ⟨_, hsettle⟩, _, _, hresolution⟩)

/-! ### The resolution -/

/-- A merge names a revision that counts behind which no other one does, and the first owner of a
target branch that contains it. For every close that counts some merge that counts is as early. -/
theorem Reading.of_settle_merged {revision : ObjectId}
    (hsettle : Ending.settle events (events.history.order p.id) = some (.merged revision)) :
    (∃ before after, events.history.order p.id = before ++ revision :: after ∧
        ∀ x ∈ after, ¬MergeCounts graph delegates snapshot p x) ∧
      MergeCounts graph delegates snapshot p revision ∧
      ∀ close time, CloseCounts graph delegates snapshot p close → MadeAt graph close time →
        ∃ x t, MergeCounts graph delegates snapshot p x ∧ MadeAt graph x t ∧ t ≤ time := by
  obtain ⟨⟨t, first, hdecides⟩, hlast⟩ := Ending.settle_eq_merged_iff.mp hsettle
  obtain ⟨before, after, hsplit, ⟨t', hstamp⟩, hafter⟩ := Ending.exists_split_of_last hlast
  refine ⟨⟨before, after, hsplit, fun x hx hcounts => ?_⟩, (h.stamp?_eq_merged_iff.mp hstamp).1,
    fun close time hclose htime => ?_⟩
  · obtain ⟨change, hauth⟩ := (h.visible_of_mergedAt hcounts.merged).exists_authentic
    exact hafter x hx _ (h.stamp?_eq_merged_iff.mpr ⟨hcounts, change, hauth, rfl⟩)
  · obtain ⟨hfirst, hmade⟩ := h.mem_surviving_merged_iff.mp hdecides.mem
    exact ⟨first, t, hfirst, hmade,
      hdecides.le _ (h.mem_surviving_closed_iff.mpr ⟨hclose, htime⟩)⟩

/-- For every merge that counts, the close that decides is as early. -/
theorem Reading.exists_earlier_close {close : ObjectId}
    (hsettle : Ending.settle events (events.history.order p.id) = some (.closed close))
    {x : ObjectId} {time : Int64} (hx : MergeCounts graph delegates snapshot p x)
    (htime : MadeAt graph x time) : ∃ t, MadeAt graph close t ∧ t ≤ time := by
  obtain ⟨t, hdecides⟩ := Ending.settle_eq_closed_iff.mp hsettle
  exact ⟨t, (h.mem_surviving_closed_iff.mp hdecides.mem).2,
    hdecides.le _ (h.mem_surviving_merged_iff.mpr ⟨hx, htime⟩)⟩

end

/-! ### What a patch says -/

/-- The status of a patch that is read is determined by what its namespaces show. It has ended
exactly if the target branch of someone who decides about it contains the head of a revision, or if
one of them made a replayed change that closes it. A patch that has not ended is proposed if it has
one revision, and updated if it has more. There is a resolution exactly if it has ended, and it is
of the same kind as the status. -/
theorem status_determined {id : ObjectId} {p : Patch}
    (hread : inspect graph delegates snapshot id = .ok (some p)) :
    (p.status.isTerminal = true ↔
      (∃ v ∈ p.revisions, ∃ peer, Decider p.author delegates peer ∧
        HeadContains graph snapshot p.target peer v.head) ∨
      ∃ x change reason, Replays graph snapshot id x change ∧ change.action = .close reason ∧
        Decider p.author delegates change.author) ∧
    (p.status.isTerminal = false →
      (p.status = .proposed ↔ p.revisions.length = 1) ∧
        (p.status = .updated ↔ 1 < p.revisions.length)) ∧
    p.resolution.isSome = p.status.isTerminal ∧
    (p.status = .merged ↔ ∃ revision into, p.resolution = some (.merged revision into)) ∧
    (p.status = .closed ↔ ∃ author reason, p.resolution = some (.closed author reason)) := by
  obtain ⟨rfl, events, h⟩ := inspect_eq_some hread
  refine ⟨?_, fun hopen => ?_, ?_⟩
  · rw [h.isTerminal_iff]
    constructor
    · rintro ⟨x, hclose | hmerged⟩
      · obtain ⟨hx, change, hauth, hhonoured⟩ := h.contains_closes_iff.mp hclose
        obtain ⟨⟨reason, haction⟩, hdecider⟩ := isHonouredClose_iff.mp hhonoured
        exact .inr ⟨x, change, reason, h.replays_iff.mpr ⟨hx, hauth⟩, haction, hdecider⟩
      · obtain ⟨v, hv, -, hin⟩ := h.contains_merged_iff_mergedAt.mp hmerged
        exact .inl ⟨v, hv, hin⟩
    · rintro (⟨v, hv, hin⟩ | ⟨x, change, reason, hreplays, haction, hdecider⟩)
      · exact ⟨v.id, .inr (h.contains_merged_iff_mergedAt.mpr ⟨v, hv, rfl, hin⟩)⟩
      · obtain ⟨hx, hauth⟩ := h.replays_iff.mp hreplays
        have hhonoured := isHonouredClose_iff.mpr ⟨⟨reason, haction⟩, hdecider⟩
        exact ⟨x, .inl (h.contains_closes_iff.mpr ⟨hx, change, hauth, hhonoured⟩)⟩
  · have hpos : 0 < p.revisions.length := Nat.succ_pos _
    rw [h.status_of_open hopen]
    by_cases hone : p.revisions.length = 1
    · simp [hone]
    · have hmore : 1 < p.revisions.length := by omega
      simp [hone, hmore]
  · rcases h.cases_resolution with ⟨hopen, hnone⟩ | ⟨hmerged, revision, into, hsome⟩ |
      ⟨hclosed, author, reason, hsome⟩
    · have hmerged : p.status ≠ .merged := fun heq => by
        rw [heq] at hopen
        cases hopen
      have hclosed : p.status ≠ .closed := fun heq => by
        rw [heq] at hopen
        cases hopen
      simp [hnone, hopen, hmerged, hclosed]
    · simp [hsome, hmerged, PatchStatus.isTerminal]
    · simp [hsome, hclosed, PatchStatus.isTerminal]

/-- The resolution of a patch that has ended is sound. A merge names the last revision in the order
of the replay that is merged and counts, and the smallest identity among those who decide whose
target branch contains it. A close names someone who decides about the patch and made a close that
counts, with the reason given there. In both cases no event of the other kind that counts is earlier
than all of the reported kind. -/
theorem resolution_sound {id : ObjectId} {p : Patch}
    (hread : inspect graph delegates snapshot id = .ok (some p))
    (hended : p.status.isTerminal = true) :
    (∃ revision into, p.resolution = some (.merged revision into) ∧
      MergeCounts graph delegates snapshot p revision ∧
      (∃ before after, ReplayOrder graph snapshot id (before ++ revision :: after) ∧
        ∀ x ∈ after, ¬MergeCounts graph delegates snapshot p x) ∧
      (∃ v ∈ p.revisions, v.id = revision ∧
        FirstOwner graph snapshot delegates p.author p.target v.head into) ∧
      ∀ close time, CloseCounts graph delegates snapshot p close → MadeAt graph close time →
        ∃ x t, MergeCounts graph delegates snapshot p x ∧ MadeAt graph x t ∧ t ≤ time) ∨
    ∃ author reason, p.resolution = some (.closed author reason) ∧
      (∃ close change, CloseCounts graph delegates snapshot p close ∧
        Replays graph snapshot id close change ∧ change.author = author ∧
        change.action = .close reason ∧ Decider p.author delegates author) ∧
      ∀ x time, MergeCounts graph delegates snapshot p x → MadeAt graph x time →
        ∃ close t, CloseCounts graph delegates snapshot p close ∧ MadeAt graph close t ∧
          t ≤ time := by
  obtain ⟨rfl, events, h⟩ := inspect_eq_some hread
  obtain ⟨event, hsettle⟩ := Option.ne_none_iff_exists'.mp (h.isTerminal_iff_settle.mp hended)
  cases event with
  | merged revision =>
      obtain ⟨into, hresolution, hinto⟩ := h.resolution_of_merged hsettle
      obtain ⟨⟨before, after, hsplit, hafter⟩, hcounts, hearliest⟩ := h.of_settle_merged hsettle
      exact .inl ⟨revision, into, hresolution, hcounts,
        ⟨before, after, ⟨events.history, h.collected, hsplit⟩, hafter⟩,
        h.get?_merged_iff.mp hinto, hearliest⟩
  | closed close =>
      obtain ⟨change, reason, hreplays, hcounts, haction, hdecider, hresolution⟩ :=
        h.exists_close_of_settle hsettle
      refine .inr ⟨change.author, reason, hresolution,
        ⟨close, change, hcounts, hreplays, rfl, haction, hdecider⟩, fun x time hx htime => ?_⟩
      obtain ⟨t, hmade, hle⟩ := h.exists_earlier_close hsettle hx htime
      exact ⟨close, t, hcounts, hmade, hle⟩

end Patch

/-! ### A contested patch -/

namespace Contested

open Patch

/-- Who opens the patch and revises it twice. -/
def alice : PeerId :=
  ⟨.ofNat 32 0x8a88e3dd7409f195fd52db2d3cba5d72ca6709bf1d94121bf3748801b40f6f5c⟩

/-- A delegate. -/
def bob : PeerId :=
  ⟨.ofNat 32 0x8139770ea87d175f56a35466c34c7ecccb8d8a91b4ee37a25df60f5b8fc9b394⟩

/-- Someone who may not close the patch, but does. -/
def mallory : PeerId :=
  ⟨.ofNat 32 0xed4928c628d1c2c6eae90338905995612959273a5c63f93636c14614ac8737d1⟩

/-- Someone who spreads a revision that Alice has not signed. -/
def dave : PeerId :=
  ⟨.ofNat 32 0xca93ac1705187071d67b83c7ff0efe8108e8ec4530575d7726879333dbdabe7c⟩

/-- The name of the change that opens the patch. -/
def opening : ObjectId := ⟨.ofNat 20 0x11bf17ac68b3a2c3dd823e1344ca1b2008493569⟩

/-- The name of Mallory's close, the earliest of all. -/
def unentitled : ObjectId := ⟨.ofNat 20 0x57a07d6c33d37d5c8722f49dc207f7dcdbe968bf⟩

/-- The name of Bob's close. -/
def close : ObjectId := ⟨.ofNat 20 0xff064a337016fc006159f6f04861c1eb256a4d94⟩

/-- The name of the revision that Alice makes besides Bob's close, at an earlier time. -/
def revision : ObjectId := ⟨.ofNat 20 0x3e757a8800462dd1fc92473b949b94de59cd2a51⟩

/-- The name of the revision that Alice makes behind Bob's close. -/
def behindClose : ObjectId := ⟨.ofNat 20 0xb63d4532db66e65d2485dde348ddfb8ec91fc560⟩

/-- The name of the revision that Alice has not signed. -/
def forged : ObjectId := ⟨.ofNat 20 0xd204ad282233dbb7b4a330c5cf1b98b038248976⟩

/-- The name is one for a branch. -/
theorem valid_main : BranchName.fault? "main" = none := by decide

/-- The target branch. -/
def target : BranchName := ⟨"main", valid_main⟩

/-- A commit. -/
def commit (n : UInt8) : ObjectId := ⟨.replicate 20 n⟩

/-- Opens the patch. -/
def openingChange : Change := ⟨none, alice, 10, .openPatch target "title" (commit 1) (commit 2)⟩

/-- Closes the patch without a right to it. -/
def unentitledChange : Change := ⟨some opening, mallory, 5, .close "mine"⟩

/-- Closes the patch. -/
def closingChange : Change := ⟨some opening, bob, 30, .close "done"⟩

/-- Revises the patch. -/
def revisingChange : Change := ⟨some opening, alice, 20, .revise (commit 1) (commit 3)⟩

/-- Builds on the close, but claims the earliest time. -/
def behindCloseChange : Change := ⟨some close, alice, 1, .revise (commit 1) (commit 4)⟩

/-- Is not by the author that it names. -/
def forgedChange : Change := ⟨some revision, alice, 40, .revise (commit 1) (commit 5)⟩

/-- A signature. -/
def signature (n : Nat) : Signature := ⟨.ofNat 64 n⟩

/-- The changes that are known. -/
def changes : SortedMap ObjectId SignedChange :=
  .ofList
    [(opening, ⟨openingChange, signature
        0x7b7f7aba7345091756c798a225eab9e0b9551f9497a2ebf07514e533f78b177e260ee0d1a4d0779c7ddf16c51b10d361b1dc711e1bb468758bb82ff1cec6600c⟩),
      (unentitled, ⟨unentitledChange, signature
        0xc9d87ce8f893e2746188d77bb3a652b752a0767435f49cd42145ab752becb6771ed25c5a0ff04a35dd32dbc2bdfe60edaf54f861c7a74d9d26eccdbe90870a0f⟩),
      (close, ⟨closingChange, signature
        0x7fac8e3877e3f2b9bdd6c9deacfa36dcb2fd4c80ae883782db7d708b09fa4838b1bd4f6ae4625e359f55bf0fc0bb0d0ef207c08bd935cf3cee1228e57401e90d⟩),
      (revision, ⟨revisingChange, signature
        0xb7fc26d0389477786fe3b20be99bab2b52257009026cce1f06a3629de0267a48d30c9ce7b05e6dcae0ce28f86948d8443aec0184d9ca468afc0207896e46d90b⟩),
      (behindClose, ⟨behindCloseChange, signature
        0x39a7d787cb66bc99edca46275a8ad375fb9fdeb610a49d8b99ceaf1d1bfe556357bcd98c02c8806c89e5329173dd153f670e6900468c1678bc118db0256f6c01⟩),
      (forged, ⟨forgedChange, signature 0⟩)]

/-- The graph in which the commits of both revisions are in one line. -/
def graph : ObjectGraph :=
  (MemoryGraph.mk (.ofList [(commit 3, [commit 1]), (commit 4, [commit 3])]) changes).toObjectGraph

/-- The only delegate is Bob. -/
def delegates : SortedSet PeerId := .ofList [bob]

/-- The first manifest of a namespace. -/
def manifest (owner : PeerId) (refs : List (RefName × ObjectId)) : SignedManifest :=
  ⟨⟨⟨.replicate 32 0⟩, owner, 1, .ofList refs⟩, signature 0⟩

/-- Alice and Bob both have the second revision on the target branch. -/
def snapshot : Snapshot :=
  ⟨⟨.replicate 32 0⟩, .ofList
    [(alice, ⟨manifest alice [(.head target, commit 4), (.patch opening, revision)],
        ⟨.ofNat 20 0xe171178377b4e1d72d96284e23063d9a59f537ea⟩, 0, by decide +kernel⟩),
      (bob, ⟨manifest bob [(.head target, commit 4), (.patch opening, behindClose)],
        ⟨.ofNat 20 0x6aec126aeb9e22dc21d5188399e19235492b1dd3⟩, 0, by decide +kernel⟩),
      (mallory, ⟨manifest mallory [(.patch opening, unentitled)],
        ⟨.ofNat 20 0x90ab9c24c3f9958cad5c23fd3d5eeb4df5a22482⟩, 0, by decide +kernel⟩),
      (dave, ⟨manifest dave [(.patch opening, forged)],
        ⟨.ofNat 20 0xa6d15872ea363b30962219e8140174651eb72a65⟩, 0, by decide +kernel⟩)]⟩

/-- What is collected. -/
def history : History :=
  .ofList [(opening, openingChange), (unentitled, unentitledChange), (close, closingChange),
    (revision, revisingChange), (behindClose, behindCloseChange)]

/-- The patch: the first of Alice's revisions is merged, and counts before Bob's close. -/
def patch : Patch where
  id := opening
  author := alice
  target := target
  title := "title"
  root := ⟨opening, commit 1, commit 2, alice, none, 10⟩
  later := [⟨revision, commit 1, commit 3, alice, some opening, 20⟩,
    ⟨behindClose, commit 1, commit 4, alice, some close, 1⟩]
  status := .merged
  resolution := some (.merged revision bob)
  tip := behindClose

set_option maxRecDepth 100000 in
/-- What is collected and read. The two facts share the work of checking the signatures. -/
theorem facts : History.collect graph opening (snapshot.patchTips opening) = .ok history ∧
    inspect graph delegates snapshot opening = .ok (some patch) := by
  decide +kernel

/-- Bob's close is replayed, so the patch has ended. -/
theorem ended_by_replayed_close :
    Replays graph snapshot opening close closingChange ∧ patch.status.isTerminal = true := by
  obtain ⟨hcollect, hread⟩ := facts
  have hreplays : Replays graph snapshot opening close closingChange :=
    ⟨history, hcollect, by decide, by decide⟩
  obtain ⟨hended, -⟩ := status_determined hread
  exact ⟨hreplays, hended.mpr (.inr ⟨_, _, _, hreplays, rfl, .inr (by decide)⟩)⟩

/-- The merged revision counts, and Bob is the first whose target branch contains it. -/
theorem merged_into_first_owner :
    MergeCounts graph delegates snapshot patch revision ∧
      FirstOwner graph snapshot delegates alice target (commit 3) bob := by
  obtain ⟨-, hread⟩ := facts
  rcases resolution_sound hread rfl with ⟨merged, into, hresolution, hcounts, -, howner, -⟩ |
    ⟨author, reason, hresolution, -⟩
  · cases hresolution
    obtain ⟨v, hv, hid, hfirst⟩ := howner
    have hhead : ∀ v ∈ patch.revisions, v.id = revision → v.head = commit 3 := by decide
    exact ⟨hcounts, hhead v hv hid ▸ hfirst⟩
  · cases hresolution

end Contested

end SignedRefs
