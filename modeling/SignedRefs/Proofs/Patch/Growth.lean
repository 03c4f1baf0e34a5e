import SignedRefs.Proofs.Digits
import SignedRefs.Proofs.Patch.Comparison

/-!
# Patches That Grow

Namespaces learn of new changes all the time, and authors may give these any time they like. A
change is late if it builds on an honoured close, if the patch is merged and it builds on a merged
revision, or if it is a close by someone who is not entitled to it. Late changes are listed, but
they do not change how a patch ended: the events that were there are still the same, they stand in
the same order, and a late event that counts is a merge behind a merge.

## Main results

* `stamp?_of_visible`: an old change is the same event in both readings.
* `Late.of_resolution`: what builds on the revision that a merge resolves to is late.
* `ending_of_late`: late changes do not change how a patch ended.
-/

namespace SignedRefs

namespace Patch

open Relation

/-- A change that comes too late to change how a patch ended. -/
inductive Late (graph : ObjectGraph) (delegates : SortedSet PeerId) (snapshot : Snapshot)
    (p : Patch) (id : ObjectId) : Prop
  /-- It builds on an honoured close. -/
  | behindClose {close : ObjectId} (hbelow : TransGen (History.BuildsOn graph p.id) id close)
      (hclose : HonouredClose graph p.author delegates close)
  /-- The patch is merged, and it builds on a merged revision. -/
  | behindMerge {v : Revision} (hmerged : p.status = .merged) (hv : v ∈ p.revisions)
      (htarget : InTarget graph (targetTips snapshot delegates p.author p.target) v.head)
      (hbelow : TransGen (History.BuildsOn graph p.id) id v.id)
  /-- It closes the patch, but is by someone who is not entitled to that. -/
  | unentitled {change : Change} {reason : String} (hauth : History.Authentic graph id change)
      (haction : change.action = .close reason) (hauthor : change.author ≠ p.author)
      (hdelegate : delegates.contains change.author = false)

section

variable {graph : ObjectGraph} {delegates : SortedSet PeerId} {before after : Snapshot}
  {p p' : Patch} {events events' : Ending.Events}

/-! ### What stays -/

/-- A change that was visible before is the same event afterwards. -/
theorem contains_events_of_visible (h : Reading graph delegates before p events)
    (h' : Reading graph delegates after p' events') (hid : p'.id = p.id)
    (hheads : targetTips after delegates p.author p.target =
      targetTips before delegates p.author p.target) {x : ObjectId}
    (hx : Visible graph before p.id x) (hkept : Visible graph after p.id x) :
    events'.closes.contains x = events.closes.contains x ∧
      events'.merged.contains x = events.merged.contains x := by
  obtain ⟨hauthor, htarget, -⟩ := opening_eq (.refl graph) h h' hid
  refine ⟨Bool.eq_iff_iff.mpr ?_, Bool.eq_iff_iff.mpr ?_⟩
  · rw [h'.contains_closes_iff, h.contains_closes_iff, hid, hauthor]
    exact and_congr_left fun _ => ⟨fun _ => hx, fun _ => hkept⟩
  · rw [h'.contains_merged_iff, h.contains_merged_iff, hauthor, htarget, hheads]
    refine exists_congr fun v => ?_
    constructor
    · rintro ⟨hv, rfl, hin⟩
      exact ⟨(mem_revisions_of_visible (.refl graph) h h' hid hx hkept).mp hv, rfl, hin⟩
    · rintro ⟨hv, rfl, hin⟩
      exact ⟨(mem_revisions_of_visible (.refl graph) h h' hid hx hkept).mpr hv, rfl, hin⟩

/-- A change that was visible before is the same event, with the same time, afterwards. -/
theorem stamp?_of_visible (h : Reading graph delegates before p events)
    (h' : Reading graph delegates after p' events') (hid : p'.id = p.id)
    (hheads : targetTips after delegates p.author p.target =
      targetTips before delegates p.author p.target)
    (hkept : ∀ x, Visible graph before p.id x → Visible graph after p.id x) {x : ObjectId}
    (hx : Visible graph before p.id x) :
    Ending.stamp? events' x = Ending.stamp? events x := by
  have hx' : Visible graph after p'.id x := hid ▸ hkept x hx
  have hat : Ending.at? events' x = Ending.at? events x := by
    refine Ending.at?_congr (fun a => ?_) fun a ha => ?_
    · rw [h'.mem_ancestors_iff hx', h.mem_ancestors_iff hx, hid]
    · have ha : Visible graph before p.id a := by
        rcases ha with rfl | ha
        · exact hx
        · rw [h'.mem_ancestors_iff hx', hid] at ha
          exact hx.ancestor ha
      exact contains_events_of_visible h h' hid hheads ha (hkept a ha)
  have hget : events'.history.get? x = events.history.get? x := by
    refine Option.ext fun change => ?_
    rw [h'.get?_iff hx', h.get?_iff hx]
  rw [Ending.stamp?, Ending.stamp?, hat, hget]

/-! ### What is late -/

/-- A late change is no event that counts, or a merge of a patch that is merged. -/
theorem Late.event (h : Reading graph delegates before p events)
    (h' : Reading graph delegates after p' events') (hid : p'.id = p.id)
    (hheads : targetTips after delegates p.author p.target =
      targetTips before delegates p.author p.target)
    (hkept : ∀ x, Visible graph before p.id x → Visible graph after p.id x) {x : ObjectId}
    (hx : Visible graph after p.id x) (hlate : Late graph delegates before p x) {event : Ending}
    (hat : Ending.at? events' x = some event) : p.status = .merged ∧ event.isMerge = true := by
  obtain ⟨hauthor, -, -⟩ := opening_eq (.refl graph) h h' hid
  have hx' : Visible graph after p'.id x := hid.symm ▸ hx
  have hancestor : ∀ {a}, TransGen (History.BuildsOn graph p.id) x a →
      a ∈ events'.history.ancestors History.maxChanges x := fun ha => by
    rw [h'.mem_ancestors_iff hx', hid]
    exact ha
  cases hlate with
  | behindClose hbelow hclose =>
      have hcloses := h'.contains_closes_iff.mpr
        ⟨hid.symm ▸ hx.ancestor hbelow, hauthor.symm ▸ hclose⟩
      rw [Ending.at?_of_closed_ancestor (hancestor hbelow) hcloses] at hat
      cases hat
  | @behindMerge v hmerged hv htarget hbelow =>
      have hvisible := h.visible_revision hv
      have hcontains := (contains_events_of_visible h h' hid hheads hvisible (hkept _ hvisible)).2
      rw [h.contains_merged_iff.mpr ⟨v, hv, rfl, htarget⟩] at hcontains
      exact ⟨hmerged, Ending.isMerge_of_merged_ancestor (hancestor hbelow) hcontains hat⟩
  | @unentitled change reason hauth haction hnotAuthor hnotDelegate =>
      exfalso
      rcases Ending.contains_of_at? hat with hmerged | hcloses
      · obtain ⟨v, hv, rfl, -⟩ := h'.contains_merged_iff.mp hmerged
        rcases List.mem_cons.mp hv with rfl | hlater
        · have hopening := h'.authentic_opening
          rw [h'.root] at hauth
          rw [hauth.unique hopening] at haction
          cases haction
        · obtain ⟨-, -, change', hauth', hrevision⟩ := h'.mem_later_iff.mp hlater
          rw [← hauth.unique hauth', revisionOf?, haction] at hrevision
          cases hrevision
      · obtain ⟨-, change', hauth', hhonoured⟩ := h'.contains_closes_iff.mp hcloses
        rw [← hauth.unique hauth', isHonouredClose, haction, hauthor, hnotDelegate] at hhonoured
        simp [hnotAuthor] at hhonoured

/-- The revision that a merge resolves to is merged, so what builds on it is late. -/
theorem Late.of_resolution (h : Reading graph delegates before p events) {revision x : ObjectId}
    {into : PeerId} (hresolution : p.resolution = some (.merged revision into))
    (hbelow : TransGen (History.BuildsOn graph p.id) x revision) :
    Late graph delegates before p x := by
  have hsettle := h.settle_of_resolution_merged hresolution
  obtain ⟨time, hmem⟩ := Ending.mem_of_settle_merged hsettle
  obtain ⟨-, hat, -⟩ := Ending.mem_surviving_iff.mp hmem
  obtain ⟨v, hv, rfl, hin⟩ := h.contains_merged_iff.mp (Ending.at?_eq_some_merged_iff.mp hat).2.1
  exact .behindMerge (h.status_eq_merged_iff.mpr ⟨_, hsettle⟩) hv hin hbelow

end

open Classical in
/-- Changes that come late are listed, but a patch that is open stays open, one that is merged stays
merged, and one that is closed stays closed, by the same person and for the same reason. -/
theorem ending_of_late {graph : ObjectGraph} {delegates : SortedSet PeerId}
    {before after : Snapshot} {id : ObjectId} {p : Patch} {r : Option Patch}
    (hbefore : inspect graph delegates before id = .ok (some p))
    (hafter : inspect graph delegates after id = .ok r)
    (hheads : targetTips after delegates p.author p.target =
      targetTips before delegates p.author p.target)
    (hkept : ∀ x, Visible graph before id x → Visible graph after id x)
    (hlate : ∀ x, Visible graph after id x → ¬Visible graph before id x →
      Late graph delegates before p x) :
    ∃ p', r = some p' ∧ (p'.status = .merged ↔ p.status = .merged) ∧
      (p'.status = .closed ↔ p.status = .closed) ∧
      (p.status = .closed → p'.resolution = p.resolution) := by
  obtain ⟨rfl, events, h⟩ := inspect_eq_some hbefore
  obtain ⟨p', rfl⟩ := exists_patch_of_visible hafter (hkept _ h.visible_opening)
  obtain ⟨hid, events', h'⟩ := inspect_eq_some hafter
  have hstamp := fun x => stamp?_of_visible h h' hid hheads hkept (x := x)
  have hget : ∀ x, events.history.Descends p.id x →
      events'.history.get? x = events.history.get? x := fun x hx => by
    have hx := h.descends_iff.mp hx
    refine Option.ext fun change => ?_
    rw [h'.get?_iff (hid.symm ▸ hkept x hx), h.get?_iff hx]
  have horder := History.order_filter hget
  have hsurviving := Ending.filter_surviving horder fun x hx => hstamp x (h.mem_order_iff.mp hx)
  obtain ⟨hopen, hclosed⟩ := Ending.settle_of_later hsurviving fun s hs hnew => by
    obtain ⟨hmem, hat, -⟩ := Ending.mem_surviving_iff.mp hs
    have hx : Visible graph after p.id s.2.change := by
      rw [← hid]
      exact h'.mem_order_iff.mp (hid.symm ▸ hmem)
    have hnew : ¬Visible graph before p.id s.2.change := fun hx => hnew (h.descends_iff.mpr hx)
    obtain ⟨hmerged, hmerge⟩ := (hlate _ hx hnew).event h h' hid hheads hkept hx hat
    exact ⟨h.status_eq_merged_iff.mp hmerged, hmerge⟩
  refine ⟨p', rfl, ?_, ?_, fun hstatus => ?_⟩
  · rw [h'.status_eq_merged_iff, h.status_eq_merged_iff, hid, Ending.exists_merged_iff,
      Ending.exists_merged_iff]
    simp only [ne_eq, hopen, hclosed]
  · rw [h'.status_eq_closed_iff, h.status_eq_closed_iff, hid]
    simp only [hclosed]
  · obtain ⟨close, hclose⟩ := h.status_eq_closed_iff.mp hstatus
    obtain ⟨time, hdecides⟩ := Ending.settle_eq_closed_iff.mp hclose
    obtain ⟨hmem, -, change, hchange, -⟩ := Ending.mem_surviving_iff.mp hdecides.mem
    have hchange' := (hget close (History.mem_order_iff.mp hmem)).trans hchange
    have hclose' := (hclosed close).mpr hclose
    rw [← hid] at hclose'
    rw [h.resolution_of_closed hclose hchange, h'.resolution_of_closed hclose' hchange']

end Patch

/-! ### A revision behind a close -/

namespace Reopening

open Patch Relation

/-- Who opens the patch, closes it and revises it. -/
def author : PeerId :=
  ⟨.ofNat 32 0x8a88e3dd7409f195fd52db2d3cba5d72ca6709bf1d94121bf3748801b40f6f5c⟩

/-- The name of the opening change. -/
def opening : ObjectId :=
  ⟨.ofNat 20 0x11bf17ac68b3a2c3dd823e1344ca1b2008493569⟩

/-- The name of the close. -/
def close : ObjectId :=
  ⟨.ofNat 20 0xa6d0967946feb8283819a7065c3a54b1ed36af54⟩

/-- The name of the revision. -/
def revision : ObjectId :=
  ⟨.ofNat 20 0x31210d1017ee70c54a45bf6c24347c68d7c2817b⟩

/-- The name is one for a branch. -/
theorem valid_main : BranchName.fault? "main" = none := by decide

/-- A commit. -/
def commit (n : UInt8) : ObjectId := ⟨.replicate 20 n⟩

/-- Opens the patch. -/
def openingChange : Change :=
  ⟨none, author, 10, .openPatch ⟨"main", valid_main⟩ "title" (commit 1) (commit 2)⟩

/-- Closes the patch. -/
def closingChange : Change := ⟨some opening, author, 30, .close "reason"⟩

/-- Builds on the close, but claims an earlier time. -/
def revisingChange : Change := ⟨some close, author, 20, .revise (commit 1) (commit 3)⟩

/-- A signature. -/
def signature (n : Nat) : Signature := ⟨.ofNat 64 n⟩

/-- The graph that knows all three. -/
def graph : ObjectGraph :=
  (MemoryGraph.mk .empty <| .ofList
    [(opening, ⟨openingChange, signature
        0x7b7f7aba7345091756c798a225eab9e0b9551f9497a2ebf07514e533f78b177e260ee0d1a4d0779c7ddf16c51b10d361b1dc711e1bb468758bb82ff1cec6600c⟩),
      (close, ⟨closingChange, signature
        0x0091da52234cee66a42269304be9ac83508c8277d039472737f710baf3ce55c8be29419762257e290af138394cf74902147c5346d6680b14a983966e68767204⟩),
      (revision, ⟨revisingChange, signature
        0x7f1965d74388a605ac5790d8fe7b2fdc93524ae8bfe1ca271034a0818b53d6d8a8ff212b834248175583d23bf72f718f1eb7e6198bac840558dbb014c2680b0c⟩)]).toObjectGraph

/-- The author's namespace when it leads to a change of the patch. -/
def manifest (sequence : UInt64) (tip : ObjectId) : SignedManifest :=
  ⟨⟨⟨.replicate 32 0⟩, author, sequence, .ofList [(.patch opening, tip)]⟩, signature 0⟩

/-- The author has closed the patch. -/
def before : Snapshot :=
  ⟨⟨.replicate 32 0⟩, .ofList [(author, ⟨manifest 1 close,
    ⟨.ofNat 20 0xa965a53521eee39c7528316cf9e50eabaf2e66fd⟩, 0,
    by decide +kernel⟩)]⟩

/-- The author has revised the closed patch. -/
def after : Snapshot :=
  ⟨⟨.replicate 32 0⟩, .ofList [(author, ⟨manifest 2 revision,
    ⟨.ofNat 20 0x3e613469d812d72a9178c88fba53daac0037de5c⟩, 0,
    by decide +kernel⟩)]⟩

/-- The patch when it has been closed. -/
def patch : Patch where
  id := opening
  author := author
  target := ⟨"main", valid_main⟩
  title := "title"
  root := ⟨opening, commit 1, commit 2, author, none, 10⟩
  later := []
  status := .closed
  resolution := some (.closed author "reason")
  tip := close

set_option maxRecDepth 100000 in
/-- What is collected and read before and after. The four facts share the work of checking the
signatures. -/
theorem facts :
    History.collect graph opening (before.patchTips opening) =
        .ok (.ofList [(opening, openingChange), (close, closingChange)]) ∧
      History.collect graph opening (after.patchTips opening) =
        .ok (.ofList [(opening, openingChange), (close, closingChange),
          (revision, revisingChange)]) ∧
      inspect graph .empty before opening = .ok (some patch) ∧
      (inspect graph .empty after opening).isOk = true := by
  decide +kernel

/-- A revision built on a close does not open the patch again. -/
theorem ending_of_revision_behind_close : ∃ p',
    inspect graph .empty after opening = .ok (some p') ∧
      p'.resolution = some (.closed author "reason") := by
  obtain ⟨hcollect, hcollect', hbefore, hok⟩ := facts
  obtain ⟨r, hafter⟩ : ∃ r, inspect graph .empty after opening = .ok r := by
    cases hinspect : inspect graph .empty after opening with
    | ok r => exact ⟨r, rfl⟩
    | error error =>
        rw [hinspect] at hok
        cases hok
  have hvisible : ∀ x, Visible graph before opening x ↔ x ∈ [opening, close] := fun x =>
    visible_iff_mem_order hcollect (by decide)
  have hvisible' : ∀ x, Visible graph after opening x ↔ x ∈ [opening, close, revision] := fun x =>
    visible_iff_mem_order hcollect' (by decide)
  have hclose : History.Authentic graph close closingChange :=
    ((History.get?_of_collect hcollect').mp (by decide)).2
  have hrevision : History.Authentic graph revision revisingChange :=
    ((History.get?_of_collect hcollect').mp (by decide)).2
  obtain ⟨p', rfl, -, -, hresolution⟩ := ending_of_late hbefore hafter (by decide) (by simp_all)
    fun x hx hnew => by
      have hx : x = revision := by simp_all
      subst hx
      have hbelow : TransGen (History.BuildsOn graph opening) revision close :=
        .single ⟨by decide, _, hrevision, rfl⟩
      exact .behindClose hbelow ⟨_, hclose, by decide⟩
  exact ⟨p', hafter, hresolution rfl⟩

end Reopening

end SignedRefs
