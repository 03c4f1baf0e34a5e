import SignedRefs.Proofs.Patch.Reading

/-!
# Target Branches

Those who decide about a patch are its author and the delegates. A revision is merged if the head of
the target branch in the namespace of one of them contains its head, and then the first of these
owners is named: `Patch.targetTips` lists them in order, and the search stops at the first head that
contains the revision. Every change makes at most one revision, so no owner is overwritten.

## Main results

* `mem_targetTips_iff`, `pairwise_targetTips`: the heads that are looked at, and their order.
* `inTarget_iff`: some head contains a commit.
* `FirstOwner.of_containedIn?`: the owner that is found.
* `Reading.sublist_order`: the revisions stand in the order of the replay.
* `Reading.get?_merged_iff`: the owner that is named for a merged revision.
-/

namespace SignedRefs

namespace Patch

/-- Those who decide about a patch: its author and the delegates. -/
def Decider (author : PeerId) (delegates : SortedSet PeerId) (peer : PeerId) : Prop :=
  peer = author ∨ delegates.contains peer = true

/-- The head of a branch in the namespace of a peer contains a commit. -/
def HeadContains (graph : ObjectGraph) (snapshot : Snapshot) (target : BranchName)
    (peer : PeerId) (commit : ObjectId) : Prop :=
  ∃ found tip, snapshot.get? peer = some found ∧
    found.manifest.refs.get? (.head target) = some tip ∧ graph.isAncestor commit tip = .ok true

/-- A peer is the first of those who decide about a patch whose target branch contains a commit. -/
structure FirstOwner (graph : ObjectGraph) (snapshot : Snapshot) (delegates : SortedSet PeerId)
    (author : PeerId) (target : BranchName) (commit : ObjectId) (peer : PeerId) : Prop where
  /-- They decide about the patch. -/
  decider : Decider author delegates peer
  /-- Their target branch contains the commit. -/
  contains : HeadContains graph snapshot target peer commit
  /-- No smaller identity among those who decide has a target branch that does. -/
  least : ∀ other, Decider author delegates other →
    HeadContains graph snapshot target other commit → (compare peer other).isLE = true

variable {graph : ObjectGraph} {snapshot : Snapshot} {delegates : SortedSet PeerId}
  {author : PeerId} {target : BranchName}

/-! ### The heads that are looked at -/

/-- Those who decide are the delegates and the author. -/
theorem contains_insert_iff {peer : PeerId} :
    (delegates.insert author).contains peer = true ↔ Decider author delegates peer :=
  SortedMap.contains_insert

/-- The heads that are looked at are those of the ones who decide. -/
theorem mem_targetTips_iff {peer : PeerId} {tip : ObjectId} :
    (peer, tip) ∈ targetTips snapshot delegates author target ↔
      Decider author delegates peer ∧ ∃ found, snapshot.get? peer = some found ∧
        found.manifest.refs.get? (.head target) = some tip := by
  rw [targetTips, List.mem_filterMap]
  simp only [SortedSet.toList, SortedMap.mem_keys_iff, contains_insert_iff, Option.bind_eq_bind,
    Option.pure_def, Option.bind_eq_some_iff, Option.some.injEq, Prod.mk.injEq]
  constructor
  · rintro ⟨_, hdecider, found, hfound, _, htip, rfl, rfl⟩
    exact ⟨hdecider, found, hfound, htip⟩
  · rintro ⟨hdecider, found, hfound, htip⟩
    exact ⟨peer, hdecider, found, hfound, tip, htip, rfl, rfl⟩

/-- They are looked at by ascending owner. -/
theorem pairwise_targetTips :
    (targetTips snapshot delegates author target).Pairwise fun a b => compare a.1 b.1 = .lt := by
  have hkeys : (delegates.insert author).toList.Pairwise fun a b => compare a b = .lt := by
    rw [SortedSet.toList, SortedMap.keys, List.pairwise_map]
    exact (delegates.insert author).ascending
  rw [targetTips, List.pairwise_filterMap]
  refine hkeys.imp fun {a b} hlt e he e' he' => ?_
  simp only [Option.bind_eq_bind, Option.pure_def, Option.bind_eq_some_iff,
    Option.some.injEq] at he he'
  obtain ⟨-, -, -, -, rfl⟩ := he
  obtain ⟨-, -, -, -, rfl⟩ := he'
  exact hlt

/-- One of the heads contains a commit. -/
theorem inTarget_iff {commit : ObjectId} :
    InTarget graph (targetTips snapshot delegates author target) commit ↔
      ∃ peer, Decider author delegates peer ∧ HeadContains graph snapshot target peer commit := by
  simp only [InTarget, mem_targetTips_iff]
  constructor
  · rintro ⟨peer, tip, ⟨hdecider, found, hfound, htip⟩, hanc⟩
    exact ⟨peer, hdecider, found, tip, hfound, htip, hanc⟩
  · rintro ⟨peer, hdecider, found, tip, hfound, htip, hanc⟩
    exact ⟨peer, tip, ⟨hdecider, found, hfound, htip⟩, hanc⟩

/-! ### The owner that is found -/

/-- The search stops at the first head that contains the commit. -/
theorem exists_split_of_containedIn? {commit : ObjectId} {tips : List (PeerId × ObjectId)}
    {peer : PeerId} (h : containedIn? graph commit tips = .ok (some peer)) :
    ∃ before tip after, tips = before ++ (peer, tip) :: after ∧
      graph.isAncestor commit tip = .ok true ∧
        ∀ e ∈ before, graph.isAncestor commit e.2 = .ok false := by
  induction tips with
  | nil => cases h
  | cons e tips ih =>
      obtain ⟨owner, tip⟩ := e
      rw [containedIn?] at h
      cases hanc : graph.isAncestor commit tip with
      | error fault =>
          rw [hanc] at h
          cases h
      | ok answer =>
          rw [hanc] at h
          cases answer with
          | true =>
              cases h
              exact ⟨[], tip, tips, rfl, hanc, by simp⟩
          | false =>
              obtain ⟨before, tip', after, rfl, hanc', hbefore⟩ := ih h
              refine ⟨(owner, tip) :: before, tip', after, rfl, hanc', fun e he => ?_⟩
              rcases List.mem_cons.mp he with rfl | he
              · exact hanc
              · exact hbefore e he

/-- The owner that is found is the first one. -/
theorem FirstOwner.of_containedIn? {commit : ObjectId} {peer : PeerId}
    (h : containedIn? graph commit (targetTips snapshot delegates author target) =
      .ok (some peer)) : FirstOwner graph snapshot delegates author target commit peer := by
  obtain ⟨before, tip, after, hsplit, hanc, hbefore⟩ := exists_split_of_containedIn? h
  have hmem : (peer, tip) ∈ targetTips snapshot delegates author target := by simp [hsplit]
  obtain ⟨hdecider, found, hfound, htip⟩ := mem_targetTips_iff.mp hmem
  refine ⟨hdecider, ⟨found, tip, hfound, htip, hanc⟩, fun other hother hcontains => ?_⟩
  obtain ⟨found', tip', hfound', htip', hanc'⟩ := hcontains
  have hmem' := mem_targetTips_iff.mpr ⟨hother, found', hfound', htip'⟩
  have hordered : (targetTips snapshot delegates author target).Pairwise
      fun a b => compare a.1 b.1 = .lt := pairwise_targetTips
  rw [hsplit] at hmem' hordered
  rcases List.mem_append.mp hmem' with hin | hin
  · rw [hbefore _ hin] at hanc'
    cases hanc'
  · rcases List.mem_cons.mp hin with heq | hin
    · cases heq
      simp
    · have hlt := (List.pairwise_cons.mp (List.pairwise_append.mp hordered).2.1).1 _ hin
      simp only at hlt
      simp [hlt]

/-- There is one first owner only. -/
theorem FirstOwner.unique {commit : ObjectId} {peer other : PeerId}
    (h : FirstOwner graph snapshot delegates author target commit peer)
    (h' : FirstOwner graph snapshot delegates author target commit other) : peer = other := by
  have hle := h.least other h'.decider h'.contains
  have hge := h'.least peer h.decider h.contains
  exact Std.LawfulEqOrd.eq_of_compare (Std.OrientedCmp.isLE_antisymm hle hge)

/-! ### Merged revisions -/

/-- Among revisions of different changes, each merged one is kept with the owner that was found. The
fold may start from any map without their names. -/
theorem get?_mergedRevisions {tips : List (PeerId × ObjectId)} {revisions : List Revision}
    {merged : SortedMap ObjectId PeerId} (h : mergedRevisions graph tips revisions = .ok merged)
    (hnodup : (revisions.map Revision.id).Nodup) {id : ObjectId} {peer : PeerId} :
    merged.get? id = some peer ↔
      ∃ v ∈ revisions, v.id = id ∧ containedIn? graph v.head tips = .ok (some peer) := by
  rw [mergedRevisions] at h
  suffices hfold : merged.get? id = some peer ↔
      (SortedMap.empty : SortedMap ObjectId PeerId).get? id = some peer ∨
        ∃ v ∈ revisions, v.id = id ∧ containedIn? graph v.head tips = .ok (some peer) by
    simpa using hfold
  have hfresh : ∀ v ∈ revisions, (SortedMap.empty : SortedMap ObjectId PeerId).get? v.id = none :=
    fun _ _ => rfl
  generalize (SortedMap.empty : SortedMap ObjectId PeerId) = start at h hfresh ⊢
  induction revisions generalizing start with
  | nil =>
      cases h
      simp
  | cons v revisions ih =>
      rw [List.map_cons, List.nodup_cons] at hnodup
      obtain ⟨hnew, hnodup⟩ := hnodup
      rw [List.foldlM_cons] at h
      simp only [List.mem_cons, exists_eq_or_imp]
      cases hfound : containedIn? graph v.head tips with
      | error fault =>
          rw [hfound] at h
          cases h
      | ok found =>
          rw [hfound] at h
          cases found with
          | none =>
              have hrest := fun w hw => hfresh w (List.mem_cons_of_mem _ hw)
              refine (ih hnodup start h hrest).trans ?_
              simp
          | some owner =>
              have hne : ∀ w ∈ revisions, w.id ≠ v.id := fun w hw heq =>
                hnew (List.mem_map.mpr ⟨w, hw, heq⟩)
              have hrest : ∀ w ∈ revisions, (start.insert v.id owner).get? w.id = none := by
                intro w hw
                rw [SortedMap.get?_insert_of_ne _ (hne w hw)]
                exact hfresh w (List.mem_cons_of_mem _ hw)
              refine (ih hnodup (start.insert v.id owner) h hrest).trans ?_
              by_cases hid : id = v.id
              · subst hid
                rw [SortedMap.get?_insert_self, hfresh v List.mem_cons_self]
                simp
              · rw [SortedMap.get?_insert_of_ne _ hid]
                simp [Ne.symm hid]

/-- Names that are kept or dropped stay in their order. -/
theorem sublist_filterMap {f : ObjectId → Option ObjectId} (hf : ∀ x y, f x = some y → y = x)
    (l : List ObjectId) : (l.filterMap f).Sublist l := by
  induction l with
  | nil => exact .slnil
  | cons x l ih =>
      rw [List.filterMap_cons]
      cases hx : f x with
      | none => exact ih.cons x
      | some y =>
          obtain rfl := hf x y hx
          exact ih.cons_cons y

section

variable {p : Patch} {events : Ending.Events} (h : Reading graph delegates snapshot p events)

include h

/-- The revisions stand in the order in which their changes are replayed. -/
theorem Reading.sublist_order :
    (p.revisions.map Revision.id).Sublist (events.history.order p.id) := by
  rw [revisions, List.map_cons, h.root, h.later, History.order_eq_cons, behind,
    List.filterMap_filterMap, List.map_filterMap]
  refine (sublist_filterMap (fun x y hxy => ?_) _).cons_cons _
  simp only [Option.map_eq_some_iff, Option.bind_eq_some_iff] at hxy
  obtain ⟨v, ⟨_, ⟨change, -, rfl⟩, hv⟩, rfl⟩ := hxy
  rw [revisionOf?] at hv
  split at hv <;> cases hv
  rfl

/-- Every change makes at most one revision. -/
theorem Reading.nodup_revisions : (p.revisions.map Revision.id).Nodup :=
  h.sublist_order.nodup History.nodup_order

/-- A merged revision is kept with the first owner of a target branch that contains it: the search
has found someone, and there is one first owner only. -/
theorem Reading.get?_merged_iff {x : ObjectId} {peer : PeerId} :
    events.merged.get? x = some peer ↔ ∃ v ∈ p.revisions, v.id = x ∧
      FirstOwner graph snapshot delegates p.author p.target v.head peer := by
  rw [get?_mergedRevisions h.merged h.nodup_revisions]
  refine exists_congr fun v => and_congr_right fun hv => and_congr_right fun hid => ?_
  refine ⟨FirstOwner.of_containedIn?, fun hfirst => ?_⟩
  have hin := inTarget_iff.mpr ⟨peer, hfirst.decider, hfirst.contains⟩
  obtain ⟨owner, howner⟩ := SortedMap.contains_eq_true_iff.mp
    (h.contains_merged_iff.mpr ⟨v, hv, rfl, hin⟩)
  obtain ⟨w, hw, hwid, hfound⟩ := (get?_mergedRevisions h.merged h.nodup_revisions).mp howner
  obtain rfl : w = v := List.inj_on_of_nodup_map h.nodup_revisions hw hv hwid
  rwa [hfirst.unique (.of_containedIn? hfound)]

end

end Patch

end SignedRefs
