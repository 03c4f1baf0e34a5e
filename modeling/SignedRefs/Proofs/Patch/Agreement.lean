import SignedRefs.Proofs.History.Chain
import SignedRefs.Proofs.Patch.Remembering

/-!
# Views That Agree

A patch is a function of the changes that are replayed and of the target branches that contain its
revisions. Two views, with other namespaces and other graphs, may lead to more names, to forged and
to missing ones; as long as the replayed changes are the same and the same revisions are merged into
the same branches, they show the same patch. What is replayed depends only on the chains of genuine
records, and is found unless there is too much to look at or the graph does not answer.

## Main results

* `Agreement.order_eq`, `Agreement.later_eq`, `Agreement.merged_eq`, `Agreement.settle_eq`: what two
  readings share, step by step.
* `inspect_eq_of_agreement`: views that agree show the same patch.
* `replay_exact`: what is replayed, what is lost, when collecting fails, and on what a patch
  depends.
-/

namespace SignedRefs

namespace Patch

open Relation

/-- Two readings of a patch, in which the same changes are replayed and the same target branches
contain its revisions. -/
structure Agreement (graph graph' : ObjectGraph) (delegates : SortedSet PeerId)
    (snapshot snapshot' : Snapshot) (p p' : Patch) (events events' : Ending.Events) : Prop where
  /-- The first reading. -/
  first : Reading graph delegates snapshot p events
  /-- The second reading. -/
  second : Reading graph' delegates snapshot' p' events'
  /-- They are about the same patch. -/
  id_eq : p'.id = p.id
  /-- The same changes are replayed. -/
  seen_iff : ∀ x change,
    Visible graph' snapshot' p.id x ∧ History.Authentic graph' x change ↔
      Visible graph snapshot p.id x ∧ History.Authentic graph x change
  /-- The same revisions are merged into the same branches. -/
  heads_iff : ∀ v ∈ p.revisions, ∀ peer, Decider p.author delegates peer →
    (HeadContains graph' snapshot' p.target peer v.head ↔
      HeadContains graph snapshot p.target peer v.head)

section

variable {graph graph' : ObjectGraph} {delegates : SortedSet PeerId}
  {snapshot snapshot' : Snapshot} {p p' : Patch} {events events' : Ending.Events}
  (h : Agreement graph graph' delegates snapshot snapshot' p p' events events')

include h

/-! ### The same changes -/

/-- The same changes are visible. -/
theorem Agreement.visible_iff {x : ObjectId} :
    Visible graph' snapshot' p'.id x ↔ Visible graph snapshot p.id x := by
  rw [h.id_eq]
  constructor
  · intro hx
    obtain ⟨change, hauth⟩ := hx.exists_authentic
    exact ((h.seen_iff x change).mp ⟨hx, hauth⟩).1
  · intro hx
    obtain ⟨change, hauth⟩ := hx.exists_authentic
    exact ((h.seen_iff x change).mpr ⟨hx, hauth⟩).1

/-- A visible change is the same in both. -/
theorem Agreement.authentic_iff {x : ObjectId} (hx : Visible graph snapshot p.id x)
    {change : Change} : History.Authentic graph' x change ↔ History.Authentic graph x change := by
  have hx' : Visible graph' snapshot' p.id x := h.id_eq ▸ h.visible_iff.mpr hx
  exact ⟨fun hauth => ((h.seen_iff x change).mp ⟨hx', hauth⟩).2,
    fun hauth => ((h.seen_iff x change).mpr ⟨hx, hauth⟩).2⟩

/-- The second reading replays all that the first one does. -/
theorem Agreement.remembering :
    Remembering graph graph' delegates delegates snapshot snapshot' p p' events events' :=
  ⟨h.first, h.second, h.id_eq, fun x change hx hauth => (h.seen_iff x change).mpr ⟨hx, hauth⟩⟩

/-- What was visible is the same change in both histories. -/
theorem Agreement.get?_eq {x : ObjectId} (hx : Visible graph snapshot p.id x) :
    events'.history.get? x = events.history.get? x := h.remembering.get?_eq hx

/-- A visible change builds on the same one in both. -/
theorem Agreement.buildsOn_iff {x a : ObjectId} (hx : Visible graph snapshot p.id x) :
    History.BuildsOn graph' p'.id x a ↔ History.BuildsOn graph p.id x a := by
  rw [History.BuildsOn, History.BuildsOn, h.id_eq]
  refine and_congr_right fun _ => exists_congr fun change => ?_
  rw [h.authentic_iff hx]

/-- A visible change has the same ancestors in both. -/
theorem Agreement.ancestor_iff {x a : ObjectId} (hx : Visible graph snapshot p.id x) :
    TransGen (History.BuildsOn graph' p'.id) x a ↔ TransGen (History.BuildsOn graph p.id) x a := by
  constructor
  · intro ha
    suffices hboth : TransGen (History.BuildsOn graph p.id) x a ∧ Visible graph snapshot p.id a from
      hboth.1
    induction ha with
    | single hp =>
        have hp := (h.buildsOn_iff hx).mp hp
        exact ⟨.single hp, hx.parent hp⟩
    | tail _ hp ih =>
        have hp := (h.buildsOn_iff ih.2).mp hp
        exact ⟨ih.1.tail hp, ih.2.parent hp⟩
  · intro ha
    induction ha with
    | single hp => exact .single ((h.buildsOn_iff hx).mpr hp)
    | tail hpath hp ih => exact ih.tail ((h.buildsOn_iff (hx.ancestor hpath)).mpr hp)

open Classical in
/-- The changes stand in the same order. -/
theorem Agreement.order_eq : events'.history.order p'.id = events.history.order p.id := by
  have hsame : ∀ x, events.history.Descends p.id x →
      events'.history.get? x = events.history.get? x := fun x hx =>
    h.get?_eq (h.first.descends_iff.mp hx)
  rw [h.id_eq, ← History.order_filter hsame]
  refine (List.filter_eq_self.mpr fun x hx => ?_).symm
  rw [← h.id_eq, h.second.mem_order_iff, h.visible_iff, ← h.first.descends_iff] at hx
  exact decide_eq_true hx

/-- What the first change says is the same. -/
theorem Agreement.opening_eq : p'.author = p.author ∧ p'.target = p.target ∧ p'.title = p.title ∧
    p'.root = p.root := h.remembering.opening_eq

/-- The same records stand behind the first one. -/
theorem Agreement.behind_eq : behind events'.history p'.id = behind events.history p.id := by
  rw [behind, behind, h.order_eq]
  refine List.filterMap_congr fun x hx => ?_
  rw [h.get?_eq (h.first.mem_order_iff.mp (List.mem_of_mem_tail hx))]

/-- Both patches have the same later revisions. -/
theorem Agreement.later_eq : p'.later = p.later := by
  rw [h.second.later, h.first.later, h.behind_eq]

/-- Both patches have the same revisions. -/
theorem Agreement.revisions_eq : p'.revisions = p.revisions := by
  rw [revisions, revisions, h.opening_eq.2.2.2, h.later_eq]

/-! ### The same end -/

/-- Both histories have the same closes. -/
theorem Agreement.closes_eq : events'.closes = events.closes := by
  rw [h.second.closes, h.first.closes, h.behind_eq, h.opening_eq.1]

/-- The same peer is the first whose target branch contains a revision. -/
theorem Agreement.firstOwner_iff {v : Revision} (hv : v ∈ p.revisions) {peer : PeerId} :
    FirstOwner graph' snapshot' delegates p.author p.target v.head peer ↔
      FirstOwner graph snapshot delegates p.author p.target v.head peer := by
  constructor
  · rintro ⟨hdecider, hcontains, hleast⟩
    exact ⟨hdecider, (h.heads_iff v hv peer hdecider).mp hcontains, fun other hother hin =>
      hleast other hother ((h.heads_iff v hv other hother).mpr hin)⟩
  · rintro ⟨hdecider, hcontains, hleast⟩
    exact ⟨hdecider, (h.heads_iff v hv peer hdecider).mpr hcontains, fun other hother hin =>
      hleast other hother ((h.heads_iff v hv other hother).mp hin)⟩

/-- The same revisions are merged in both. -/
theorem Agreement.merged_eq : events'.merged = events.merged := by
  obtain ⟨hauthor, htarget, -, -⟩ := h.opening_eq
  refine SortedMap.ext fun x => Option.ext fun peer => ?_
  rw [h.second.get?_merged_iff, h.first.get?_merged_iff, h.revisions_eq, hauthor, htarget]
  exact exists_congr fun v => and_congr_right fun hv => and_congr_right fun _ => h.firstOwner_iff hv

/-- A visible change is the same event in both. -/
theorem Agreement.stamp?_eq {x : ObjectId} (hx : Visible graph snapshot p.id x) :
    Ending.stamp? events' x = Ending.stamp? events x := by
  have hat : Ending.at? events' x = Ending.at? events x := by
    refine Ending.at?_congr (fun a => ?_) fun a _ => ?_
    · rw [h.second.mem_ancestors_iff (h.visible_iff.mpr hx), h.first.mem_ancestors_iff hx,
        h.ancestor_iff hx]
    · rw [h.closes_eq, h.merged_eq]
      exact ⟨rfl, rfl⟩
  rw [Ending.stamp?, Ending.stamp?, hat, h.get?_eq hx]

/-- The same event decides. -/
theorem Agreement.settle_eq : Ending.settle events' (events'.history.order p'.id) =
    Ending.settle events (events.history.order p.id) := by
  have hsurviving : Ending.surviving events' (events.history.order p.id) =
      Ending.surviving events (events.history.order p.id) := by
    rw [Ending.surviving_eq, Ending.surviving_eq]
    exact List.filterMap_congr fun x hx => h.stamp?_eq (h.first.mem_order_iff.mp hx)
  rw [h.order_eq, Ending.settle, Ending.settle, hsurviving]

/-- The patch ended in the same way. -/
theorem Agreement.conclude_eq : (p'.status, p'.resolution) = (p.status, p.resolution) := by
  rw [h.second.concluded, h.first.concluded, h.settle_eq, h.later_eq]
  cases hsettle : Ending.settle events (events.history.order p.id) with
  | none => rfl
  | some event =>
      cases event with
      | merged revision => rw [conclude, conclude, h.merged_eq]
      | closed close =>
          obtain ⟨time, hdecides⟩ := Ending.settle_eq_closed_iff.mp hsettle
          have hclose : close ∈ events.history.order p.id :=
            (Ending.mem_surviving_iff.mp hdecides.mem).1
          rw [conclude, conclude, h.get?_eq (h.first.mem_order_iff.mp hclose)]

/-- Both readings give the same patch. -/
theorem Agreement.patch_eq : p' = p := by
  obtain ⟨hauthor, htarget, htitle, hroot⟩ := h.opening_eq
  obtain ⟨hstatus, hresolution⟩ := Prod.mk.inj h.conclude_eq
  have htip := h.second.tip
  rw [h.order_eq, h.id_eq, ← h.first.tip] at htip
  have hid := h.id_eq
  have hlater := h.later_eq
  cases p
  cases p'
  simp only at hid hauthor htarget htitle hroot hlater hstatus hresolution htip
  subst hid hauthor htarget htitle hroot hlater hstatus hresolution htip
  rfl

end

/-! ### What a patch depends on -/

variable {graph graph' : ObjectGraph} {delegates : SortedSet PeerId} {snapshot snapshot' : Snapshot}

/-- Views in which the same changes are replayed and the same target branches contain the revisions
show the same patch, or none at all. -/
theorem inspect_eq_of_agreement {id : ObjectId} {r r' : Option Patch}
    (hread : inspect graph delegates snapshot id = .ok r)
    (hread' : inspect graph' delegates snapshot' id = .ok r')
    (hseen : ∀ x change, Visible graph' snapshot' id x ∧ History.Authentic graph' x change ↔
      Visible graph snapshot id x ∧ History.Authentic graph x change)
    (hheads : ∀ p, r = some p → ∀ v ∈ p.revisions, ∀ peer, Decider p.author delegates peer →
      (HeadContains graph' snapshot' p.target peer v.head ↔
        HeadContains graph snapshot p.target peer v.head)) : r' = r := by
  have hopening : Visible graph' snapshot' id id ↔ Visible graph snapshot id id := by
    constructor
    · intro hid
      obtain ⟨opening, hauth⟩ := hid.root_authentic
      exact ((hseen id opening).mp ⟨hid, hauth⟩).1
    · intro hid
      obtain ⟨opening, hauth⟩ := hid.root_authentic
      exact ((hseen id opening).mpr ⟨hid, hauth⟩).1
  cases r with
  | none =>
      cases r' with
      | none => rfl
      | some p' =>
          obtain ⟨rfl, events', h'⟩ := inspect_eq_some hread'
          obtain ⟨p, hp⟩ := exists_patch_of_visible hread (hopening.mp h'.visible_opening)
          cases hp
  | some p =>
      obtain ⟨rfl, events, h⟩ := inspect_eq_some hread
      obtain ⟨p', rfl⟩ := exists_patch_of_visible hread' (hopening.mpr h.visible_opening)
      obtain ⟨hid, events', h'⟩ := inspect_eq_some hread'
      have hagree : Agreement graph graph' delegates snapshot snapshot' p p' events events' :=
        ⟨h, h', hid, hseen, hheads p rfl⟩
      rw [hagree.patch_eq]

/-- The changes that are replayed are those on the chains of genuine records from the namespaces'
refs down to the opening change, each once and behind the one that it builds on. If a record goes
bad, what builds on it is not replayed any more, nor what no ref leads to without it, and nothing
else is lost. Collecting ends, and it succeeds only if there is no more to be met than the limit
allows; it fails at the limit only if there is, and that is so whenever the graph answers, or with
the graph's fault about a name that is met. A patch depends on the replayed changes and on the
target branches that contain its revisions, and on nothing else. -/
theorem replay_exact (graph : ObjectGraph) (delegates : SortedSet PeerId) (snapshot : Snapshot)
    (id : ObjectId) :
    let tips := snapshot.patchTips id
    (∀ history, History.collect graph id tips = .ok history → history.contains id = true →
      (history.order id).Nodup ∧
      (∀ x, x ∈ history.order id ↔ History.OnChain graph id tips x) ∧
      ∀ before x after, history.order id = before ++ x :: after →
        ∀ p, History.BuildsOn graph id x p → p ∈ before) ∧
    (∀ spoiled bad, History.Spoiled graph spoiled bad → ∀ x,
      History.OnChain spoiled id tips x ↔ History.OnChain graph id tips x ∧
        ¬ReflTransGen (History.BuildsOn graph id) x bad ∧ History.Met spoiled id tips x) ∧
    ((∀ history, History.collect graph id tips = .ok history →
        (History.closure graph id tips).encard ≤ History.maxChanges) ∧
      (∀ error, History.collect graph id tips = .error error →
        History.Stops graph id tips error) ∧
      ((∀ x, History.Met graph id tips x → ∃ found, graph.change? x = .ok found) →
        (History.collect graph id tips = .error (.tooManyChanges id History.maxChanges) ↔
          (History.maxChanges : ℕ∞) < (History.closure graph id tips).encard))) ∧
    ∀ graph' snapshot' r r', inspect graph delegates snapshot id = .ok r →
      inspect graph' delegates snapshot' id = .ok r' →
      (∀ x change,
        History.OnChain graph' id (snapshot'.patchTips id) x ∧ History.Authentic graph' x change ↔
          History.OnChain graph id tips x ∧ History.Authentic graph x change) →
      (∀ p, r = some p → ∀ v ∈ p.revisions, ∀ peer, Decider p.author delegates peer →
        (HeadContains graph' snapshot' p.target peer v.head ↔
          HeadContains graph snapshot p.target peer v.head)) →
      r' = r := by
  intro tips
  refine ⟨fun history hcollect hid => ⟨History.nodup_order, fun x => ?_, ?_⟩,
    fun spoiled bad hspoiled x => ?_, ⟨fun history => History.encard_closure_le_of_collect,
      fun error => .of_collect, History.collect_eq_error_iff⟩, ?_⟩
  · rw [← History.replayed_iff_onChain, History.mem_order_iff,
      History.descends_of_collect hcollect hid]
  · intro before x after hsplit p hp
    have hx : x ∈ history.order id := by simp [hsplit]
    rw [History.mem_order_iff, History.descends_of_collect hcollect hid] at hx
    exact History.mem_before_of_links hsplit
      ((History.links_of_collect hcollect).mpr ⟨hx.met, hp⟩)
  · rw [← History.replayed_iff_onChain, ← History.replayed_iff_onChain, hspoiled.replayed_iff]
  · intro graph' snapshot' r r' hread hread' hseen hheads
    simp only [← History.replayed_iff_onChain] at hseen
    exact inspect_eq_of_agreement hread hread' hseen hheads

end Patch

/-! ### What else a patch depends on -/

namespace Contested

open Patch Relation

/-- The changes that are known, with some commits. -/
def graphWith (commits : List (ObjectId × List ObjectId)) : ObjectGraph :=
  (MemoryGraph.mk (.ofList commits) changes).toObjectGraph

/-- Alice has opened the patch, and has its head on the target branch. -/
def opened : Snapshot :=
  ⟨⟨.replicate 32 0⟩, .ofList
    [(alice, ⟨manifest alice [(.head target, commit 2), (.patch opening, opening)],
        ⟨.ofNat 20 0x2594b1ce3cc86eaae9d931bb173fd9a6342d588a⟩, 0, by decide +kernel⟩)]⟩

/-- The patch as long as its head is not known as a commit. -/
def openedPatch : Patch where
  id := opening
  author := alice
  target := target
  title := "title"
  root := ⟨opening, commit 1, commit 2, alice, none, 10⟩
  later := []
  status := .proposed
  resolution := none
  tip := opening

/-- The patch when it is. -/
def mergedPatch : Patch :=
  { openedPatch with status := .merged, resolution := some (.merged opening alice) }

set_option maxRecDepth 100000 in
/-- What is read without and with the commit. -/
theorem facts_opened :
    inspect (graphWith []) .empty opened opening = .ok (some openedPatch) ∧
      inspect (graphWith [(commit 2, [])]) .empty opened opening = .ok (some mergedPatch) := by
  decide +kernel

/-- Whether a patch is merged depends on the commits. -/
theorem merged_with_commit : (∀ x change,
    History.OnChain (graphWith [(commit 2, [])]) opening (opened.patchTips opening) x ∧
        History.Authentic (graphWith [(commit 2, [])]) x change ↔
      History.OnChain (graphWith []) opening (opened.patchTips opening) x ∧
        History.Authentic (graphWith []) x change) ∧
    inspect (graphWith []) .empty opened opening = .ok (some openedPatch) ∧
    inspect (graphWith [(commit 2, [])]) .empty opened opening = .ok (some mergedPatch) ∧
    openedPatch ≠ mergedPatch := by
  have hrecords : (graphWith [(commit 2, [])]).change? = (graphWith []).change? := rfl
  exact ⟨fun x change => and_congr (History.onChain_congr hrecords) Iff.rfl, facts_opened.1,
    facts_opened.2, by decide⟩

/-- The graph when the revision behind the close is missing. -/
def without : ObjectGraph :=
  (MemoryGraph.mk (.ofList [(commit 3, [commit 1]), (commit 4, [commit 3])])
    (changes.erase behindClose)).toObjectGraph

/-- Without the record, the graph is the other one with this record gone bad. -/
theorem spoiled_without : History.Spoiled graph without behindClose := by
  constructor
  · intro change hauth
    obtain ⟨signed, hgenuine, -⟩ := hauth.exists_genuine
    have hmissing : without.change? behindClose = .ok none := by decide
    rw [hgenuine.stored] at hmissing
    cases hmissing
  · intro x change hne
    have hchange : without.change? x = graph.change? x := by
      change Except.ok ((changes.erase behindClose).get? x) = Except.ok (changes.get? x)
      rw [SortedMap.get?_erase_of_ne hne]
    rw [History.Authentic, History.Authentic, History.authentic?, History.authentic?, hchange]

/-- What the refs still lead to: the close is not among it. -/
def reached : List ObjectId := [opening, unentitled, revision, behindClose, forged]

/-- What can be met without the record is among what the refs still lead to. -/
theorem mem_reached_of_met {x : ObjectId}
    (hx : History.Met without opening (snapshot.patchTips opening) x) : x ∈ reached := by
  have hclosed : ∀ x ∈ reached, ((changes.erase behindClose).get? x).all fun signed =>
      signed.change.parent.all (reached.contains ·) := by decide
  obtain ⟨tip, htip, hpath⟩ := hx
  induction hpath with
  | refl =>
      have htips : ∀ tip ∈ snapshot.patchTips opening, tip ∈ reached := by decide
      exact htips tip htip
  | tail _ hp ih =>
      obtain ⟨-, change, hauth, hparent⟩ := hp
      obtain ⟨signed, hgenuine, rfl⟩ := hauth.exists_genuine
      have hstored := Except.ok.inj hgenuine.stored
      change (changes.erase behindClose).get? _ = some signed at hstored
      have hin := hclosed _ ih
      rw [hstored, Option.all_some, hparent, Option.all_some] at hin
      exact List.contains_iff_mem.mp hin

/-- The close, on which the missing revision builds, is lost with it, though it does not build on
the revision itself: it builds on the opening change, and this builds on nothing. -/
theorem close_lost_with_revision :
    History.OnChain graph opening (snapshot.patchTips opening) close ∧
      ¬ReflTransGen (History.BuildsOn graph opening) close behindClose ∧
      ¬History.OnChain without opening (snapshot.patchTips opening) close := by
  obtain ⟨hcollect, -⟩ := facts
  have hclose : History.Authentic graph close closingChange :=
    ((History.get?_of_collect hcollect).mp (by decide)).2
  refine ⟨?_, fun hbelow => ?_, fun hchain => ?_⟩
  · rw [← History.replayed_iff_onChain]
    exact (visible_iff_mem_order hcollect (by decide)).mpr (by decide)
  · rcases ReflTransGen.cases_head hbelow with heq | ⟨p, hp, hbelow⟩
    · exact absurd heq (by decide)
    · obtain rfl : p = opening := hp.unique ⟨by decide, _, hclose, rfl⟩
      rcases ReflTransGen.cases_head hbelow with heq | ⟨p, hp, -⟩
      · exact absurd heq (by decide)
      · exact History.not_buildsOn_root hp
  · have hmet := (History.replayed_iff_onChain.mpr hchain).met
    exact absurd (mem_reached_of_met hmet) (by decide)

/-- Names that stand for nothing. -/
def names (n : Nat) : List ObjectId := (List.range n).map fun i => ⟨.ofNat 20 i⟩

/-- Numbers that fit into a name make different names. -/
theorem nodup_names {n : Nat} (hn : n ≤ 256 ^ 20) : (names n).Nodup := by
  refine List.nodup_range.map_on fun i hi j hj heq => ?_
  have hi := List.mem_range.mp hi
  have hj := List.mem_range.mp hj
  exact (FixedBytes.ofNat_inj (by omega) (by omega)).mp (ObjectId.mk.inj heq)

/-- A graph that does not answer. -/
def silent : ObjectGraph where
  change? id := .error (.brokenChange id)
  isAncestor ancestor _ := .error (.brokenCommit ancestor)

/-- A graph that does not answer is not asked often enough to reach the limit. -/
theorem limit_not_reported :
    (History.maxChanges : ℕ∞) < (History.closure silent opening (names 10001)).encard ∧
      History.collect silent opening (names 10001) ≠
        .error (.tooManyChanges opening History.maxChanges) := by
  have hlength : (names 10001).length = History.maxChanges + 1 := by
    rw [names, List.length_map, List.length_range, History.maxChanges]
  constructor
  · refine lt_of_lt_of_le ?_ (History.length_le_encard_closure (nodup_names (by decide)))
    rw [hlength]
    exact_mod_cast Nat.lt_succ_self _
  · have hne : names 10001 ≠ [] := fun hnil => by
      rw [hnil] at hlength
      cases hlength
    have hsilent : ∀ id ∈ names 10001, ∃ fault, silent.change? id = .error fault := fun id _ =>
      ⟨.brokenChange id, rfl⟩
    obtain ⟨fault, hfails⟩ : ∃ fault,
        History.collect silent opening (names 10001) = .error (.graph fault) :=
      History.collect_of_silent hsilent hne
    rw [hfails]
    intro heq
    cases heq

/-- What is replayed does not determine a patch without the commits, a graph that does not answer
hides that there is too much to look at, and a missing change takes more along than what builds on
it. -/
theorem limits_of_replay :
    ((∀ x change,
      History.OnChain (graphWith [(commit 2, [])]) opening (opened.patchTips opening) x ∧
          History.Authentic (graphWith [(commit 2, [])]) x change ↔
        History.OnChain (graphWith []) opening (opened.patchTips opening) x ∧
          History.Authentic (graphWith []) x change) ∧
      inspect (graphWith []) .empty opened opening = .ok (some openedPatch) ∧
      inspect (graphWith [(commit 2, [])]) .empty opened opening = .ok (some mergedPatch) ∧
      openedPatch ≠ mergedPatch) ∧
    ((History.maxChanges : ℕ∞) < (History.closure silent opening (names 10001)).encard ∧
      History.collect silent opening (names 10001) ≠
        .error (.tooManyChanges opening History.maxChanges)) ∧
    History.Spoiled graph without behindClose ∧
      History.OnChain graph opening (snapshot.patchTips opening) close ∧
      ¬ReflTransGen (History.BuildsOn graph opening) close behindClose ∧
      ¬History.OnChain without opening (snapshot.patchTips opening) close :=
  ⟨merged_with_commit, limit_not_reported, spoiled_without, close_lost_with_revision⟩

/-- Of the names that the refs of the contested patch lead to, the forged one is not replayed. -/
theorem replayed_without_forged :
    History.OnChain graph opening (snapshot.patchTips opening) behindClose ∧
      ¬History.OnChain graph opening (snapshot.patchTips opening) forged := by
  obtain ⟨hcollect, -⟩ := facts
  obtain ⟨hreplayed, -⟩ := replay_exact graph delegates snapshot opening
  obtain ⟨-, hmem, -⟩ := hreplayed history hcollect (by decide)
  exact ⟨(hmem behindClose).mp (by decide), fun hforged => absurd ((hmem forged).mpr hforged)
    (by decide)⟩

end Contested

end SignedRefs
