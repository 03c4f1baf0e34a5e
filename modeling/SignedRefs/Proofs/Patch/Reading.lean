import SignedRefs.Patch.Inspect
import SignedRefs.Proofs.History.Limit
import SignedRefs.Proofs.Patch.Ending

/-!
# Reading a Patch

What `Patch.inspect` finds is put into terms of the graph. A change takes part if it is `Visible`:
some namespace leads to it, and authentic changes lead from it down to the one that opened the
patch. The revisions are the proposals among the visible changes, the closes the honoured ones among
them, and a revision is merged if a target branch contains its head.

## Main results

* `inspect_eq_some`: a patch that is read has a `Reading`.
* `Reading.exists_revision`, `Reading.contains_closes_iff`, `Reading.contains_merged_iff`: what
  takes part.
* `Reading.mem_ancestors_iff`: the listed ancestors are those in the graph.
* `Reading.isTerminal_iff`: a patch has ended exactly if a visible revision is merged or a visible
  close is honoured.
-/

namespace SignedRefs

namespace Patch

open Relation

/-! ### What takes part -/

/-- Some namespace leads to a change of a patch, and authentic changes lead from it down to the one
that opened the patch. -/
def Visible (graph : ObjectGraph) (snapshot : Snapshot) (id change : ObjectId) : Prop :=
  History.Replayed graph id (snapshot.patchTips id) change

/-- A change is an authentic close by the author of the patch or by a delegate. -/
def HonouredClose (graph : ObjectGraph) (author : PeerId) (delegates : SortedSet PeerId)
    (id : ObjectId) : Prop :=
  ∃ change, History.Authentic graph id change ∧ isHonouredClose author delegates change = true

/-- Where the opening change is collected, the visible changes are those that are listed. -/
theorem visible_iff_mem_order {graph : ObjectGraph} {snapshot : Snapshot} {id x : ObjectId}
    {history : History} (h : History.collect graph id (snapshot.patchTips id) = .ok history)
    (hid : history.contains id = true) :
    Visible graph snapshot id x ↔ x ∈ history.order id := by
  rw [History.mem_order_iff, History.descends_of_collect h hid]
  rfl

/-- One of the tips contains a commit. -/
def InTarget (graph : ObjectGraph) (tips : List (PeerId × ObjectId)) (head : ObjectId) : Prop :=
  ∃ owner tip, (owner, tip) ∈ tips ∧ graph.isAncestor head tip = .ok true

/-- A change ends a patch in which it takes part: it is an honoured close, or it proposes what one
of the tips contains. -/
def Ends (graph : ObjectGraph) (author : PeerId) (delegates : SortedSet PeerId)
    (tips : List (PeerId × ObjectId)) (id : ObjectId) : Prop :=
  ∃ change, History.Authentic graph id change ∧
    (isHonouredClose author delegates change = true ∨
      ∃ base head, change.revision? = some (base, head) ∧ InTarget graph tips head)

/-- The changes behind the opening one, in order. -/
def behind (history : History) (id : ObjectId) : List (ObjectId × Change) :=
  (history.order id).tail.filterMap fun change =>
    (history.get? change).map fun record => (change, record)

/-- How a patch was read: the history that was collected, the closes and merged revisions that were
found in it, and what follows from them. -/
structure Reading (graph : ObjectGraph) (delegates : SortedSet PeerId) (snapshot : Snapshot)
    (p : Patch) (events : Ending.Events) : Prop where
  /-- The history is what the namespaces lead to. -/
  collected : History.collect graph p.id (snapshot.patchTips p.id) = .ok events.history
  /-- The first change opens the patch. -/
  opened : ∃ parent, events.history.get? p.id = some ⟨parent, p.author, p.root.timestamp,
    .openPatch p.target p.title p.root.base p.root.head⟩
  /-- The first revision is the one that it makes. -/
  root : p.root = ⟨p.id, p.root.base, p.root.head, p.author, none, p.root.timestamp⟩
  /-- The further revisions are made by the changes behind it. -/
  later : p.later = (behind events.history p.id).filterMap fun e => revisionOf? e.1 e.2
  /-- The honoured closes are among these. -/
  closes : events.closes = .ofList (((behind events.history p.id).filter fun e =>
    isHonouredClose p.author delegates e.2).map Prod.fst)
  /-- The merged revisions are those that a target branch contains. -/
  merged : mergedRevisions graph (targetTips snapshot delegates p.author p.target) p.revisions =
    .ok events.merged
  /-- The events decide how far the patch has come. -/
  concluded : (p.status, p.resolution) =
    conclude events (!p.later.isEmpty) (Ending.settle events (events.history.order p.id))
  /-- The tip is the last change. -/
  tip : p.tip = (events.history.order p.id).getLast?.getD p.id

variable {graph : ObjectGraph} {delegates : SortedSet PeerId} {snapshot : Snapshot}

/-- A patch that is read has a reading. -/
theorem inspect_eq_some {id : ObjectId} {p : Patch}
    (h : inspect graph delegates snapshot id = .ok (some p)) :
    p.id = id ∧ ∃ events, Reading graph delegates snapshot p events := by
  rw [inspect] at h
  split at h
  · cases h
  · next tips htips =>
      cases hcollect : History.collect graph id (snapshot.patchTips id) with
      | error error =>
          rw [hcollect] at h
          cases h
      | ok history =>
          rw [hcollect] at h
          simp only at h
          cases hopening : history.get? id with
          | none =>
              rw [hopening] at h
              cases h
          | some opening =>
              rw [hopening] at h
              obtain ⟨parent, author, timestamp, action⟩ := opening
              cases action with
              | revise base head => cases h
              | close reason => cases h
              | openPatch target title base head =>
                  simp only at h
                  split at h
                  · cases h
                  · next merged hmerged =>
                      cases h
                      refine ⟨rfl, ⟨history, _, merged⟩, hcollect, ⟨parent, hopening⟩, rfl, rfl,
                        rfl, hmerged, rfl, rfl⟩

/-- A patch is read wherever the change that opens it is visible. -/
theorem exists_patch_of_visible {id : ObjectId} {r : Option Patch}
    (h : inspect graph delegates snapshot id = .ok r) (hid : Visible graph snapshot id id) :
    ∃ p, r = some p := by
  obtain ⟨opening, hauth⟩ := hid.root_authentic
  obtain ⟨tip, htip, -⟩ := hid.met
  rw [inspect] at h
  split at h
  · next htips =>
      rw [htips] at htip
      cases htip
  · next tips htips =>
      cases hcollect : History.collect graph id (snapshot.patchTips id) with
      | error error =>
          rw [hcollect] at h
          cases h
      | ok history =>
          rw [hcollect] at h
          simp only [(History.get?_of_collect hcollect).mpr ⟨hid.met, hauth⟩] at h
          split at h
          · split at h
            · cases h
            · cases h
              exact ⟨_, rfl⟩
          · cases h

/-! ### Merged revisions -/

/-- Where the graph answers, the search for a tip that contains a commit finds one if there is
one. -/
theorem containedIn?_eq_ok {head : ObjectId} {tips : List (PeerId × ObjectId)}
    {found : Option PeerId} (h : containedIn? graph head tips = .ok found) :
    found.isSome = true ↔ InTarget graph tips head := by
  induction tips with
  | nil =>
      cases h
      simp [InTarget]
  | cons entry tips ih =>
      obtain ⟨owner, tip⟩ := entry
      rw [containedIn?] at h
      cases hanc : graph.isAncestor head tip with
      | error fault =>
          rw [hanc] at h
          cases h
      | ok answer =>
          rw [hanc] at h
          cases answer with
          | true =>
              cases h
              exact ⟨fun _ => ⟨owner, tip, List.mem_cons_self, hanc⟩, fun _ => rfl⟩
          | false =>
              rw [ih h]
              constructor
              · rintro ⟨owner', tip', hmem, hanc'⟩
                exact ⟨owner', tip', List.mem_cons_of_mem _ hmem, hanc'⟩
              · rintro ⟨owner', tip', hmem, hanc'⟩
                rcases List.mem_cons.mp hmem with heq | hmem
                · cases heq
                  rw [hanc] at hanc'
                  cases hanc'
                · exact ⟨owner', tip', hmem, hanc'⟩

/-- The merged revisions are those that a tip contains: these are what the fold adds to whatever map
it starts from. -/
theorem contains_mergedRevisions {tips : List (PeerId × ObjectId)} {revisions : List Revision}
    {merged : SortedMap ObjectId PeerId} (h : mergedRevisions graph tips revisions = .ok merged)
    {id : ObjectId} :
    merged.contains id = true ↔ ∃ v ∈ revisions, v.id = id ∧ InTarget graph tips v.head := by
  rw [mergedRevisions] at h
  suffices hfold : merged.contains id = true ↔
      (SortedMap.empty : SortedMap ObjectId PeerId).contains id = true ∨
        ∃ v ∈ revisions, v.id = id ∧ InTarget graph tips v.head by
    rw [hfold]
    simp
  generalize (SortedMap.empty : SortedMap ObjectId PeerId) = start at h ⊢
  induction revisions generalizing start with
  | nil =>
      cases h
      simp
  | cons revision revisions ih =>
      rw [List.foldlM_cons] at h
      cases hfound : containedIn? graph revision.head tips with
      | error fault =>
          rw [hfound] at h
          cases h
      | ok found =>
          have hspec := containedIn?_eq_ok hfound
          rw [hfound] at h
          simp only [List.mem_cons, exists_eq_or_imp]
          cases found with
          | some peer =>
              rw [ih (start.insert revision.id peer) h, SortedMap.contains_insert]
              have hin := hspec.mp rfl
              simp only [hin, and_true]
              rw [or_assoc, or_left_comm, eq_comm (a := id)]
          | none =>
              have hout : ¬InTarget graph tips revision.head := fun hin => by
                cases hspec.mpr hin
              rw [ih start h]
              simp only [hout, and_false, false_or]

/-! ### Failing -/

/-- A graph that answers every question. -/
structure Answers (graph : ObjectGraph) : Prop where
  /-- It knows of every name whether a change has it. -/
  change : ∀ id, ∃ found, graph.change? id = .ok found
  /-- It relates any two commits. -/
  isAncestor : ∀ ancestor descendant, ∃ answer, graph.isAncestor ancestor descendant = .ok answer

/-- A graph in memory always answers. -/
theorem answers_toObjectGraph (g : MemoryGraph) : Answers g.toObjectGraph :=
  ⟨fun _ => ⟨_, rfl⟩, fun _ _ => ⟨_, rfl⟩⟩

/-- A graph that answers can be asked who contains a commit. -/
theorem Answers.containedIn? (h : Answers graph) (head : ObjectId)
    (tips : List (PeerId × ObjectId)) : ∃ found, containedIn? graph head tips = .ok found := by
  induction tips with
  | nil => exact ⟨none, rfl⟩
  | cons entry tips ih =>
      obtain ⟨answer, hanswer⟩ := h.isAncestor head entry.2
      rw [Patch.containedIn?, hanswer]
      cases answer with
      | true => exact ⟨some entry.1, rfl⟩
      | false => exact ih

/-- A graph that answers can be asked which revisions are merged. -/
theorem Answers.mergedRevisions (h : Answers graph) (tips : List (PeerId × ObjectId))
    (revisions : List Revision) : ∃ merged, mergedRevisions graph tips revisions = .ok merged := by
  rw [Patch.mergedRevisions]
  generalize (SortedMap.empty : SortedMap ObjectId PeerId) = start
  induction revisions generalizing start with
  | nil => exact ⟨start, rfl⟩
  | cons revision revisions ih =>
      obtain ⟨found, hfound⟩ := h.containedIn? revision.head tips
      rw [List.foldlM_cons, hfound]
      cases found with
      | none => exact ih start
      | some owner => exact ih (start.insert revision.id owner)

/-- Where the graph answers and the first change opens the patch, reading fails only at the
limit. -/
theorem inspect_error {id : ObjectId} {error : PatchError} (hgraph : Answers graph)
    {opening : Change} (hauth : History.Authentic graph id opening)
    (hopens : ∃ target title base head, opening.action = .openPatch target title base head)
    (h : inspect graph delegates snapshot id = .error error) :
    error = .tooManyChanges id History.maxChanges := by
  rw [inspect] at h
  split at h
  · cases h
  · next tips htips =>
      cases hcollect : History.collect graph id (snapshot.patchTips id) with
      | error e =>
          rw [hcollect] at h
          cases h
          exact History.collect_error hgraph.change hcollect
      | ok history =>
          rw [hcollect] at h
          simp only at h
          cases hfound : history.get? id with
          | none =>
              rw [hfound] at h
              cases h
          | some found =>
              obtain rfl := ((History.get?_of_collect hcollect).mp hfound).2.unique hauth
              obtain ⟨target, title, base, head, haction⟩ := hopens
              rw [hfound] at h
              simp only [haction] at h
              split at h
              · next fault hmerged =>
                  obtain ⟨merged, hok⟩ := hgraph.mergedRevisions _ _
                  rw [hok] at hmerged
                  cases hmerged
              · cases h

/-! ### What takes part, in terms of the graph -/

/-- What is behind a change are the changes of the history that descend from it, without itself. -/
theorem mem_behind_iff {history : History} {id x : ObjectId} {change : Change} :
    (x, change) ∈ behind history id ↔
      x ≠ id ∧ history.Descends id x ∧ history.get? x = some change := by
  simp only [behind, List.mem_filterMap, History.mem_tail_order_iff, Option.map_eq_some_iff,
    Prod.mk.injEq]
  constructor
  · rintro ⟨y, ⟨hne, hdesc⟩, record, hget, rfl, rfl⟩
    exact ⟨hne, hdesc, hget⟩
  · rintro ⟨hne, hdesc, hget⟩
    exact ⟨x, ⟨hne, hdesc⟩, change, hget, rfl, rfl⟩

section

variable {p : Patch} {events : Ending.Events} (h : Reading graph delegates snapshot p events)

include h

/-- The change that opens the patch. -/
theorem Reading.authentic_opening : History.Authentic graph p.id
    ⟨none, p.author, p.root.timestamp, .openPatch p.target p.title p.root.base p.root.head⟩ := by
  obtain ⟨parent, hget⟩ := h.opened
  have hauth := ((History.get?_of_collect h.collected).mp hget).2
  obtain rfl : parent = none := hauth.parent_of_openPatch rfl
  exact hauth

/-- What the first change says is the same wherever that change is authentic. -/
theorem Reading.opening_eq {graph' : ObjectGraph} {delegates' : SortedSet PeerId}
    {snapshot' : Snapshot} {p' : Patch} {events' : Ending.Events}
    (h' : Reading graph' delegates' snapshot' p' events') (hid : p'.id = p.id)
    (hauth : History.Authentic graph' p.id ⟨none, p.author, p.root.timestamp,
      .openPatch p.target p.title p.root.base p.root.head⟩) :
    p'.author = p.author ∧ p'.target = p.target ∧ p'.title = p.title ∧ p'.root = p.root := by
  have hopening := h'.authentic_opening
  rw [hid] at hopening
  have heq := hopening.unique hauth
  simp only [Change.mk.injEq, Action.openPatch.injEq, true_and] at heq
  obtain ⟨hauthor, htime, htarget, htitle, hbase, hhead⟩ := heq
  refine ⟨hauthor, htarget, htitle, ?_⟩
  rw [h'.root, h.root, hid, hauthor, htime, hbase, hhead]

/-- The opening change is in the history. -/
theorem Reading.contains_opening : events.history.contains p.id = true := by
  obtain ⟨parent, hget⟩ := h.opened
  exact SortedMap.contains_eq_true_iff.mpr ⟨_, hget⟩

/-- The opening change has no parent. -/
theorem Reading.parent_of_opening (change : Change)
    (hget : events.history.get? p.id = some change) : change.parent = none := by
  have hauth := ((History.get?_of_collect h.collected).mp hget).2
  rw [hauth.unique h.authentic_opening]

/-- What descends from the opening change is what is visible. -/
theorem Reading.descends_iff {x : ObjectId} :
    events.history.Descends p.id x ↔ Visible graph snapshot p.id x :=
  History.descends_of_collect h.collected h.contains_opening

/-- The opening change is visible itself. -/
theorem Reading.visible_opening : Visible graph snapshot p.id p.id := h.descends_iff.mp .refl

/-- What is replayed is what is visible. -/
theorem Reading.mem_order_iff {x : ObjectId} :
    x ∈ events.history.order p.id ↔ Visible graph snapshot p.id x :=
  (visible_iff_mem_order h.collected h.contains_opening).symm

/-- The record of a visible change is the authentic one. -/
theorem Reading.get?_iff {x : ObjectId} (hx : Visible graph snapshot p.id x) {change : Change} :
    events.history.get? x = some change ↔ History.Authentic graph x change := by
  rw [History.get?_of_collect h.collected]
  exact and_iff_right hx.met

/-- Behind the opening change is what else is visible. -/
theorem Reading.mem_behind_iff {x : ObjectId} {change : Change} :
    (x, change) ∈ behind events.history p.id ↔
      x ≠ p.id ∧ Visible graph snapshot p.id x ∧ History.Authentic graph x change := by
  rw [Patch.mem_behind_iff, h.descends_iff]
  exact and_congr_right fun _ => and_congr_right fun hx => h.get?_iff hx

/-- The listed ancestors of a visible change are those in the graph. -/
theorem Reading.mem_ancestors_iff {x a : ObjectId} (hx : Visible graph snapshot p.id x) :
    a ∈ events.history.ancestors History.maxChanges x ↔
      TransGen (History.BuildsOn graph p.id) x a := by
  rw [History.mem_ancestors_iff (h.descends_iff.mpr hx) h.contains_opening h.parent_of_opening
    (History.size_of_collect h.collected), History.transGen_links_of_collect h.collected hx.met]

/-- The honoured closes are the visible ones. -/
theorem Reading.contains_closes_iff {x : ObjectId} :
    events.closes.contains x = true ↔
      Visible graph snapshot p.id x ∧ HonouredClose graph p.author delegates x := by
  rw [h.closes, SortedSet.contains_ofList, List.mem_map]
  constructor
  · rintro ⟨⟨y, change⟩, hmem, rfl⟩
    obtain ⟨hmem, hclose⟩ := List.mem_filter.mp hmem
    obtain ⟨-, hy, hauth⟩ := h.mem_behind_iff.mp hmem
    exact ⟨hy, change, hauth, hclose⟩
  · rintro ⟨hx, change, hauth, hclose⟩
    have hne : x ≠ p.id := by
      rintro rfl
      rw [hauth.unique h.authentic_opening] at hclose
      cases hclose
    exact ⟨(x, change), List.mem_filter.mpr ⟨h.mem_behind_iff.mpr ⟨hne, hx, hauth⟩, hclose⟩, rfl⟩

/-- The further revisions are the visible proposals. -/
theorem Reading.mem_later_iff {v : Revision} :
    v ∈ p.later ↔ v.id ≠ p.id ∧ Visible graph snapshot p.id v.id ∧
      ∃ change, History.Authentic graph v.id change ∧ revisionOf? v.id change = some v := by
  have hid : ∀ {x : ObjectId} {change : Change}, revisionOf? x change = some v → v.id = x := by
    intro x change hv
    rw [revisionOf?] at hv
    split at hv <;> cases hv
    rfl
  rw [h.later, List.mem_filterMap]
  constructor
  · rintro ⟨⟨x, change⟩, hmem, hv⟩
    obtain ⟨hne, hx, hauth⟩ := h.mem_behind_iff.mp hmem
    obtain rfl := hid hv
    exact ⟨hne, hx, change, hauth, hv⟩
  · rintro ⟨hne, hx, change, hauth, hv⟩
    exact ⟨(v.id, change), h.mem_behind_iff.mpr ⟨hne, hx, hauth⟩, hv⟩

/-- Every revision is made by a visible change. -/
theorem Reading.visible_revision {v : Revision} (hv : v ∈ p.revisions) :
    Visible graph snapshot p.id v.id := by
  rcases List.mem_cons.mp hv with rfl | hv
  · rw [h.root]
    exact h.visible_opening
  · exact (h.mem_later_iff.mp hv).2.1

/-- A revision is what its change proposes. -/
theorem Reading.exists_proposal {v : Revision} (hv : v ∈ p.revisions) :
    ∃ change, History.Authentic graph v.id change ∧ change.revision? = some (v.base, v.head) := by
  rcases List.mem_cons.mp hv with rfl | hv
  · rw [h.root]
    exact ⟨_, h.authentic_opening, rfl⟩
  · obtain ⟨-, -, change, hauth, hrevision⟩ := h.mem_later_iff.mp hv
    refine ⟨change, hauth, ?_⟩
    rw [revisionOf?] at hrevision
    split at hrevision
    · next base head haction =>
        rw [Change.revision?, haction, ← Option.some.inj hrevision]
    · cases hrevision

/-- What a visible change proposes is a revision. -/
theorem Reading.exists_revision {x : ObjectId} (hx : Visible graph snapshot p.id x)
    {change : Change} (hauth : History.Authentic graph x change) {base head : ObjectId}
    (hproposal : change.revision? = some (base, head)) :
    ∃ v ∈ p.revisions, v.id = x ∧ v.head = head := by
  rcases ReflTransGen.cases_head hx.descends with rfl | ⟨parent, ⟨hne, record, hrecord, hparent⟩, -⟩
  · obtain rfl := hauth.unique h.authentic_opening
    cases hproposal
    exact ⟨p.root, List.mem_cons_self, by rw [h.root], rfl⟩
  · obtain rfl := hauth.unique hrecord
    rw [Change.revision?] at hproposal
    split at hproposal
    · next haction =>
        rw [hauth.parent_of_openPatch haction] at hparent
        cases hparent
    · next haction =>
        cases hproposal
        let v : Revision := ⟨x, base, head, change.author, change.parent, change.timestamp⟩
        have hrevision : revisionOf? x change = some v := by rw [revisionOf?, haction]
        exact ⟨v, List.mem_cons_of_mem _ (h.mem_later_iff.mpr ⟨hne, hx, change, hauth, hrevision⟩),
          rfl, rfl⟩
    · cases hproposal

/-- The merged revisions are those that a target branch contains. -/
theorem Reading.contains_merged_iff {x : ObjectId} :
    events.merged.contains x = true ↔ ∃ v ∈ p.revisions, v.id = x ∧
      InTarget graph (targetTips snapshot delegates p.author p.target) v.head :=
  contains_mergedRevisions h.merged

/-! ### How it ended -/

/-- The status is concluded from the event that settles. -/
theorem Reading.status_eq : p.status = (conclude events (!p.later.isEmpty)
    (Ending.settle events (events.history.order p.id))).1 :=
  congrArg Prod.fst h.concluded

/-- The resolution is concluded from the event that settles. -/
theorem Reading.resolution_eq : p.resolution = (conclude events (!p.later.isEmpty)
    (Ending.settle events (events.history.order p.id))).2 :=
  congrArg Prod.snd h.concluded

/-- A patch is merged exactly if the events settle that way. -/
theorem Reading.status_eq_merged_iff :
    p.status = .merged ↔
      ∃ revision, Ending.settle events (events.history.order p.id) = some (.merged revision) := by
  rw [h.status_eq]
  cases Ending.settle events (events.history.order p.id) with
  | none => cases hlater : !p.later.isEmpty <;> simp [conclude]
  | some event => cases event <;> simp [conclude]

/-- A patch is closed exactly if the events settle that way. -/
theorem Reading.status_eq_closed_iff :
    p.status = .closed ↔
      ∃ close, Ending.settle events (events.history.order p.id) = some (.closed close) := by
  rw [h.status_eq]
  cases Ending.settle events (events.history.order p.id) with
  | none => cases hlater : !p.later.isEmpty <;> simp [conclude]
  | some event => cases event <;> simp [conclude]

/-- A patch has ended exactly if some event counts. -/
theorem Reading.isTerminal_iff_settle :
    p.status.isTerminal = true ↔ Ending.settle events (events.history.order p.id) ≠ none := by
  rw [h.status_eq]
  cases Ending.settle events (events.history.order p.id) with
  | none => cases hlater : !p.later.isEmpty <;> simp [conclude, PatchStatus.isTerminal]
  | some event => cases event <;> simp [conclude, PatchStatus.isTerminal]

/-- A closed patch says who closed it, and why. -/
theorem Reading.resolution_of_closed {close : ObjectId} {change : Change}
    (hsettle : Ending.settle events (events.history.order p.id) = some (.closed close))
    (hget : events.history.get? close = some change) :
    p.resolution = some (.closed change.author (reasonOf change)) := by
  rw [h.resolution_eq, hsettle, conclude, hget, Option.map_some]

/-- A merge resolves to the revision that the events settle for. -/
theorem Reading.settle_of_resolution_merged {revision : ObjectId} {into : PeerId}
    (hresolution : p.resolution = some (.merged revision into)) :
    Ending.settle events (events.history.order p.id) = some (.merged revision) := by
  have hconcluded := hresolution.symm.trans h.resolution_eq
  cases hsettle : Ending.settle events (events.history.order p.id) with
  | none => simp [hsettle, conclude] at hconcluded
  | some event =>
      cases event with
      | closed close =>
          rw [hsettle, conclude] at hconcluded
          obtain ⟨change, -, heq⟩ := Option.map_eq_some_iff.mp hconcluded.symm
          cases heq
      | merged found =>
          rw [hsettle, conclude] at hconcluded
          obtain ⟨owner, -, heq⟩ := Option.map_eq_some_iff.mp hconcluded.symm
          cases heq
          rfl

/-- If a visible change is an honoured close or a merged revision, then some event counts: the first
one on the way up from the opening change. On this way an event at or below a change is below its
parent, or there is none there, and then it counts. -/
theorem Reading.exists_event {x : ObjectId} (hx : Visible graph snapshot p.id x)
    (hevent : events.closes.contains x = true ∨ events.merged.contains x = true) :
    ∃ y event, Visible graph snapshot p.id y ∧ Ending.at? events y = some event := by
  suffices hway : ∀ y, events.history.Descends p.id y →
      (∃ a, ReflTransGen (History.BuildsOn graph p.id) y a ∧
        (events.closes.contains a = true ∨ events.merged.contains a = true)) →
      ∃ z event, Visible graph snapshot p.id z ∧ Ending.at? events z = some event from
    hway x (h.descends_iff.mpr hx) ⟨x, .refl, hevent⟩
  have hfirst : ∀ y, Visible graph snapshot p.id y →
      (events.closes.contains y = true ∨ events.merged.contains y = true) →
      (∀ a, TransGen (History.BuildsOn graph p.id) y a →
        events.closes.contains a = false ∧ events.merged.contains a = false) →
      ∃ event, Ending.at? events y = some event := by
    intro y hy hevent hnone
    have hnone' : ∀ a ∈ events.history.ancestors History.maxChanges y,
        events.closes.contains a = false ∧ events.merged.contains a = false := fun a ha =>
      hnone a ((h.mem_ancestors_iff hy).mp ha)
    cases hm : events.merged.contains y with
    | true => exact ⟨_, Ending.at?_eq_some_merged_iff.mpr ⟨rfl, hm, fun a ha => (hnone' a ha).1⟩⟩
    | false =>
        have hc := hevent.resolve_right (Bool.eq_false_iff.mp hm)
        exact ⟨_, Ending.at?_eq_some_closed_iff.mpr ⟨rfl, hm, hc, hnone'⟩⟩
  intro y hy
  induction hy using ReflTransGen.head_induction_on with
  | refl =>
      rintro ⟨a, ha, hevent⟩
      rcases ReflTransGen.cases_head ha with rfl | ⟨b, hb, -⟩
      · obtain ⟨event, hat⟩ := hfirst _ h.visible_opening hevent fun a ha => by
          obtain ⟨b, hb, -⟩ := TransGen.head'_iff.mp ha
          exact absurd hb History.not_buildsOn_root
        exact ⟨_, event, h.visible_opening, hat⟩
      · exact absurd hb History.not_buildsOn_root
  | @head y parent hlink hparent ih =>
      rintro ⟨a, ha, hevent⟩
      by_cases hbelow : ∃ a, TransGen (History.BuildsOn graph p.id) y a ∧
          (events.closes.contains a = true ∨ events.merged.contains a = true)
      · obtain ⟨b, hb, hevent⟩ := hbelow
        obtain ⟨q, hq, hqb⟩ := TransGen.head'_iff.mp hb
        obtain rfl := hq.unique ((History.links_of_collect h.collected).mp hlink).2
        exact ih ⟨b, hqb, hevent⟩
      · have hy : Visible graph snapshot p.id y := h.descends_iff.mp (.head hlink hparent)
        rcases reflTransGen_iff_eq_or_transGen.mp ha with rfl | ha
        · obtain ⟨event, hat⟩ := hfirst a hy hevent fun b hb => by
            simp only [not_exists, not_and, not_or, Bool.not_eq_true] at hbelow
            exact hbelow b hb
          exact ⟨a, event, hy, hat⟩
        · exact absurd ⟨a, ha, hevent⟩ hbelow

/-- A patch has ended exactly if a visible change closes it by right or a revision is merged. -/
theorem Reading.isTerminal_iff :
    p.status.isTerminal = true ↔
      ∃ x, events.closes.contains x = true ∨ events.merged.contains x = true := by
  rw [h.isTerminal_iff_settle, ne_eq, Ending.settle_eq_none_iff]
  constructor
  · intro hsome
    obtain ⟨⟨time, event⟩, hmem⟩ := List.exists_mem_of_ne_nil _ hsome
    obtain ⟨-, hat, -⟩ := Ending.mem_surviving_iff.mp hmem
    exact ⟨_, (Ending.contains_of_at? hat).symm⟩
  · rintro ⟨x, hevent⟩ hnone
    have hx : Visible graph snapshot p.id x := by
      rcases hevent with hclose | hmerged
      · exact (h.contains_closes_iff.mp hclose).1
      · obtain ⟨v, hv, rfl, -⟩ := h.contains_merged_iff.mp hmerged
        exact h.visible_revision hv
    obtain ⟨y, event, hy, hat⟩ := h.exists_event hx hevent
    obtain rfl := Ending.change_of_at? hat
    obtain ⟨change, hauth⟩ := hy.exists_authentic
    have hmem := Ending.mem_surviving_iff.mpr
      ⟨h.mem_order_iff.mpr hy, hat, change, (h.get?_iff hy).mpr hauth, rfl⟩
    rw [hnone] at hmem
    cases hmem

/-- A patch has ended exactly if a visible change ends it. -/
theorem Reading.isTerminal_iff_ends :
    p.status.isTerminal = true ↔ ∃ x, Visible graph snapshot p.id x ∧
      Ends graph p.author delegates (targetTips snapshot delegates p.author p.target) x := by
  rw [h.isTerminal_iff]
  constructor
  · rintro ⟨x, hclose | hmerged⟩
    · obtain ⟨hx, change, hauth, hclose⟩ := h.contains_closes_iff.mp hclose
      exact ⟨x, hx, change, hauth, .inl hclose⟩
    · obtain ⟨v, hv, rfl, hin⟩ := h.contains_merged_iff.mp hmerged
      obtain ⟨change, hauth, hproposal⟩ := h.exists_proposal hv
      exact ⟨v.id, h.visible_revision hv, change, hauth, .inr ⟨_, _, hproposal, hin⟩⟩
  · rintro ⟨x, hx, change, hauth, hclose | ⟨base, head, hproposal, hin⟩⟩
    · exact ⟨x, .inl (h.contains_closes_iff.mpr ⟨hx, change, hauth, hclose⟩)⟩
    · obtain ⟨v, hv, rfl, rfl⟩ := h.exists_revision hx hauth hproposal
      exact ⟨v.id, .inr (h.contains_merged_iff.mpr ⟨v, hv, rfl, hin⟩)⟩

end

end Patch

end SignedRefs
