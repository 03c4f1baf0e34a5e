import Mathlib.Data.List.Perm.Subperm
import SignedRefs.Proofs.Entries
import SignedRefs.Ref.Update

/-!
# Replaying Ref Updates

A change of a ref says what the ref led to before and what it leads to afterwards, each time
possibly nothing. The changes from one set of refs to another are exactly those that say this truly
of a ref for which it is not the same (`RefUpdate.mem_diff_iff`). So there is one change for each
such ref, and as the changes are about different refs they can be made in any order.

## Main results

* `RefUpdate.mem_diff_iff`: which changes are listed.
* `RefUpdate.foldl_apply_diff`: the changes lead from one set of refs to the other.
* `RefUpdate.diff_eq_mergeSort`: the changes seen from either set, sorted by name.
* `RefUpdate.diff_exact`: what is listed, in which order, and that nothing less would do.
-/

namespace SignedRefs

namespace RefUpdate

variable {old new refs : SortedMap RefName ObjectId} {update : RefUpdate} {name : RefName}

/-! ### What a change says -/

/-- What the ref led to before. -/
def before? : RefUpdate → Option ObjectId
  | .created _ _ => none
  | .moved _ old _ => some old
  | .deleted _ old => some old

/-- What the ref leads to afterwards. -/
def after? : RefUpdate → Option ObjectId
  | .created _ target => some target
  | .moved _ _ new => some new
  | .deleted _ _ => none

/-- The change of a ref whose targets are known. -/
theorem between?_eq_some_iff {before after : Option ObjectId} :
    between? name before after = some update ↔ update.name = name ∧ update.before? = before ∧
      update.after? = after ∧ before ≠ after := by
  cases before with
  | none =>
      cases after with
      | none => cases update <;> simp [between?]
      | some target => cases update <;> simp [between?, RefUpdate.name, before?, after?, eq_comm]
  | some previous =>
      cases after with
      | none => cases update <;> simp [between?, RefUpdate.name, before?, after?, eq_comm]
      | some target =>
          by_cases hsame : previous = target
          · simp [between?, hsame]
          · cases update <;> simp [between?, hsame, RefUpdate.name, before?, after?, eq_comm]

/-! ### What is listed -/

/-- Listed are the changes that say truly what a ref led to and leads to, if this is not the
same. -/
theorem mem_diff_iff : update ∈ diff old new ↔ old.get? update.name = update.before? ∧
    new.get? update.name = update.after? ∧ update.before? ≠ update.after? := by
  simp only [diff, List.mem_filterMap, between?_eq_some_iff]
  constructor
  · rintro ⟨_, -, rfl, hbefore, hafter, hne⟩
    exact ⟨hbefore.symm, hafter.symm, by rwa [hbefore, hafter]⟩
  · rintro ⟨hbefore, hafter, hne⟩
    refine ⟨update.name, ?_, rfl, hbefore.symm, hafter.symm, by rwa [hbefore, hafter]⟩
    rw [SortedMap.mem_keys_iff, SortedMap.contains_merge, SortedMap.contains, SortedMap.contains,
      hbefore, hafter]
    cases update <;> simp [before?, after?]

/-- The names are listed in their order, none of them twice. -/
theorem pairwise_diff (old new : SortedMap RefName ObjectId) :
    (diff old new).Pairwise fun a b => compare a.name b.name = .lt := by
  have hkeys : (old.merge new).keys.Pairwise fun a b => compare a b = .lt := by
    rw [SortedMap.keys, List.pairwise_map]
    exact (old.merge new).ascending
  refine List.pairwise_filterMap.mpr (hkeys.imp fun hlt a ha b hb => ?_)
  rwa [(between?_eq_some_iff.mp ha).1, (between?_eq_some_iff.mp hb).1]

/-- No ref is listed twice. -/
theorem nodup_names_diff (old new : SortedMap RefName ObjectId) :
    ((diff old new).map RefUpdate.name).Nodup := by
  rw [List.nodup_iff_pairwise_ne, List.pairwise_map]
  refine (pairwise_diff old new).imp fun hlt heq => ?_
  simp [heq] at hlt

/-- The refs that are listed are those for which something has changed. -/
theorem mem_names_diff_iff :
    name ∈ (diff old new).map RefUpdate.name ↔ old.get? name ≠ new.get? name := by
  simp only [List.mem_map, mem_diff_iff]
  constructor
  · rintro ⟨update, ⟨hbefore, hafter, hne⟩, rfl⟩
    rwa [hbefore, hafter]
  · intro hne
    cases hold : old.get? name with
    | none =>
        cases hnew : new.get? name with
        | none => exact absurd (hold.trans hnew.symm) hne
        | some target => exact ⟨.created name target, ⟨hold, hnew, nofun⟩, rfl⟩
    | some previous =>
        cases hnew : new.get? name with
        | none => exact ⟨.deleted name previous, ⟨hold, hnew, nofun⟩, rfl⟩
        | some target =>
            refine ⟨.moved name previous target, ⟨hold, hnew, fun hsame => hne ?_⟩, rfl⟩
            rw [hold, hnew]
            exact hsame

/-! ### Making the changes -/

/-- A change is about one ref. -/
theorem get?_apply : (apply refs update).get? name =
    if name = update.name then update.after? else refs.get? name := by
  have hinsert (target : ObjectId) : (refs.insert update.name target).get? name =
      if name = update.name then some target else refs.get? name := by
    rw [SortedMap.get?_insert]
    simp only [Std.LawfulEqOrd.compare_eq_iff_eq]
  cases update with
  | created ref target => exact hinsert target
  | moved ref previous target => exact hinsert target
  | deleted ref previous =>
      rw [apply, SortedMap.get?_erase]
      simp only [Std.LawfulEqOrd.compare_eq_iff_eq, eq_comm (a := ref)]
      rfl

/-- Changes leave the refs alone that they are not about. -/
theorem get?_foldl_apply_of_not_mem {updates : List RefUpdate}
    (h : name ∉ updates.map RefUpdate.name) :
    (updates.foldl apply refs).get? name = refs.get? name := by
  induction updates generalizing refs with
  | nil => rfl
  | cons update updates ih =>
      obtain ⟨hname, hrest⟩ := not_or.mp (mt List.mem_cons.mpr h)
      rw [List.foldl_cons, ih hrest, get?_apply, if_neg hname]

/-- Of changes of different refs each one is in effect when all are made. -/
theorem get?_foldl_apply_of_mem {updates : List RefUpdate}
    (hnodup : (updates.map RefUpdate.name).Nodup) (h : update ∈ updates) :
    (updates.foldl apply refs).get? update.name = update.after? := by
  induction updates generalizing refs with
  | nil => cases h
  | cons first updates ih =>
      obtain ⟨hfirst, hrest⟩ := List.nodup_cons.mp hnodup
      rw [List.foldl_cons]
      rcases List.mem_cons.mp h with rfl | hmem
      · rw [get?_foldl_apply_of_not_mem hfirst, get?_apply, if_pos rfl]
      · exact ih hrest hmem

/-- The changes lead from one set of refs to the other, in whatever order they are made. -/
theorem foldl_apply_diff {order : List RefUpdate} (h : order.Perm (diff old new)) :
    order.foldl apply old = new := by
  have hnames : (order.map RefUpdate.name).Perm ((diff old new).map RefUpdate.name) :=
    h.map RefUpdate.name
  have hnodup : (order.map RefUpdate.name).Nodup :=
    hnames.nodup_iff.mpr (nodup_names_diff old new)
  refine SortedMap.ext fun name => ?_
  by_cases hsame : old.get? name = new.get? name
  · have hnot : name ∉ order.map RefUpdate.name := fun hmem =>
      mem_names_diff_iff.mp (hnames.mem_iff.mp hmem) hsame
    rw [get?_foldl_apply_of_not_mem hnot, hsame]
  · obtain ⟨update, hmem, rfl⟩ := List.mem_map.mp (mem_names_diff_iff.mpr hsame)
    rw [get?_foldl_apply_of_mem hnodup (h.mem_iff.mpr hmem), (mem_diff_iff.mp hmem).2.1]

/-- Whatever leads from one set of refs to the other is about every ref that differs, so there are
at least as many changes. -/
theorem length_diff_le {others : List RefUpdate} (h : others.foldl apply old = new) :
    (diff old new).length ≤ others.length := by
  have hsub : (diff old new).map RefUpdate.name ⊆ others.map RefUpdate.name := by
    intro name hname
    by_contra hnot
    refine mem_names_diff_iff.mp hname ?_
    rw [← h, get?_foldl_apply_of_not_mem hnot]
  have hle := ((nodup_names_diff old new).subperm hsub).length_le
  rwa [List.length_map, List.length_map] at hle

/-- Nothing is listed if nothing differs. -/
theorem diff_eq_nil_iff : diff old new = [] ↔ old = new := by
  constructor
  · intro hnil
    have hsame := foldl_apply_diff (.refl (diff old new))
    rwa [hnil] at hsame
  · rintro rfl
    refine List.eq_nil_iff_forall_not_mem.mpr fun update hmem => ?_
    obtain ⟨hbefore, hafter, hne⟩ := mem_diff_iff.mp hmem
    exact hne (hbefore.symm.trans hafter)

/-! ### The two sets one after the other -/

/-- The changes that show in the new refs. -/
def appearing (old new : SortedMap RefName ObjectId) : List RefUpdate :=
  new.entries.filterMap fun (name, target) => between? name (old.get? name) (some target)

/-- The changes of the refs that are among the old ones only. -/
def vanishing (old new : SortedMap RefName ObjectId) : List RefUpdate :=
  old.entries.filterMap fun (name, target) =>
    match new.get? name with
    | none => some (.deleted name target)
    | some _ => none

/-- The changes that show in the new refs are those listed whose ref is among the new ones. -/
theorem mem_appearing_iff :
    update ∈ appearing old new ↔ update ∈ diff old new ∧ new.contains update.name = true := by
  simp only [appearing, List.mem_filterMap, Prod.exists, SortedMap.mem_entries_iff,
    between?_eq_some_iff, mem_diff_iff, SortedMap.contains_eq_true_iff]
  constructor
  · rintro ⟨_, target, htarget, rfl, hbefore, hafter, hne⟩
    exact ⟨⟨hbefore.symm, htarget.trans hafter.symm, by rwa [hbefore, hafter]⟩, target, htarget⟩
  · rintro ⟨⟨hbefore, hafter, hne⟩, target, htarget⟩
    have hsame : update.after? = some target := hafter.symm.trans htarget
    exact ⟨update.name, target, htarget, rfl, hbefore.symm, hsame, by rwa [hbefore, ← hsame]⟩

/-- The changes of the refs that are among the old ones only are those listed whose ref is not among
the new ones. -/
theorem mem_vanishing_iff :
    update ∈ vanishing old new ↔ update ∈ diff old new ∧ new.get? update.name = none := by
  simp only [vanishing, List.mem_filterMap, Prod.exists, SortedMap.mem_entries_iff, mem_diff_iff]
  constructor
  · rintro ⟨name, target, htarget, hgone⟩
    split at hgone
    · next hnone =>
        cases hgone
        exact ⟨⟨htarget, hnone, nofun⟩, hnone⟩
    · cases hgone
  · rintro ⟨⟨hbefore, hafter, -⟩, hnone⟩
    rw [hnone] at hafter
    cases update with
    | created name target => cases hafter
    | moved name previous target => cases hafter
    | deleted name previous =>
        have hgone : new.get? name = none := hnone
        exact ⟨name, previous, hbefore, by rw [hgone]⟩

/-- Changes that are made one for each of some refs are different. -/
theorem nodup_filterMap_entries {f : RefName × ObjectId → Option RefUpdate}
    (hf : ∀ e update, f e = some update → update.name = e.1) :
    (refs.entries.filterMap f).Nodup := by
  rw [List.nodup_iff_pairwise_ne, List.pairwise_filterMap]
  refine refs.ascending.imp fun {e e'} hlt update hupdate update' hupdate' heq => ?_
  rw [← hf e update hupdate, heq, hf e' update' hupdate'] at hlt
  simp at hlt

/-- Each change shows in one of the two sets. -/
theorem perm_diff (old new : SortedMap RefName ObjectId) :
    (appearing old new ++ vanishing old new).Perm (diff old new) := by
  have hdiff : (diff old new).Nodup := .of_map _ (nodup_names_diff old new)
  have happearing : (appearing old new).Nodup :=
    nodup_filterMap_entries fun e update hupdate => (between?_eq_some_iff.mp hupdate).1
  have hvanishing : (vanishing old new).Nodup := by
    refine nodup_filterMap_entries fun e update hupdate => ?_
    dsimp only at hupdate
    split at hupdate
    · cases hupdate
      rfl
    · cases hupdate
  refine (List.perm_ext_iff_of_nodup (List.nodup_append.mpr ⟨happearing, hvanishing, ?_⟩)
    hdiff).mpr fun update => ?_
  · rintro update happear _ hvanish rfl
    obtain ⟨target, htarget⟩ := SortedMap.contains_eq_true_iff.mp (mem_appearing_iff.mp happear).2
    rw [(mem_vanishing_iff.mp hvanish).2] at htarget
    cases htarget
  · rw [List.mem_append, mem_appearing_iff, mem_vanishing_iff, ← and_or_left,
      SortedMap.contains_eq_true_iff]
    refine and_iff_left ?_
    cases new.get? update.name with
    | none => exact .inr rfl
    | some target => exact .inl ⟨target, rfl⟩

/-- The changes are those that show in the new refs and those of the refs that are among the old
ones only, sorted by name. -/
theorem diff_eq_mergeSort (old new : SortedMap RefName ObjectId) :
    diff old new = (appearing old new ++ vanishing old new).mergeSort
      fun a b => (compare a.name b.name).isLE := by
  have hsorted : (diff old new).Pairwise fun a b => (compare a.name b.name).isLE = true :=
    (pairwise_diff old new).imp fun hlt => by rw [hlt]; rfl
  have htotal (a b : RefUpdate) :
      ((compare a.name b.name).isLE || (compare b.name a.name).isLE) = true := by
    have hswap : compare b.name a.name = (compare a.name b.name).swap := Std.OrientedCmp.eq_swap
    rw [hswap]
    cases compare a.name b.name <;> rfl
  refine List.Perm.eq_of_pairwise (fun a b ha hb hab hba => ?_) hsorted
    (List.pairwise_mergeSort (fun _ _ _ => Std.TransCmp.isLE_trans) htotal _)
    ((perm_diff old new).symm.trans (List.mergeSort_perm _ _).symm)
  have hname : a.name = b.name :=
    Std.LawfulEqOrd.eq_of_compare (Std.OrientedCmp.isLE_antisymm hab hba)
  have hb' : b ∈ diff old new := (perm_diff old new).mem_iff.mp (List.mem_mergeSort.mp hb)
  exact List.inj_on_of_nodup_map (nodup_names_diff old new) ha hb' hname

/-! ### Exactness -/

/-- The changes from one set of refs to another are what one pass over the new refs and one over the
old ones yield, sorted by name. They stand in the order of the names of the refs, no ref twice, and
lead from one set to the other in whatever order they are made. A ref is created if it is
new, moved if its target was another one, with both targets, and deleted if it is gone, with the
target that it had. The refs that keep their target are those that are not listed, so nothing is
listed exactly if nothing differs. There is no shorter list that leads from one set to the other. -/
theorem diff_exact (old new : SortedMap RefName ObjectId) :
    let updates := diff old new
    updates = ((appearing old new ++ vanishing old new).mergeSort fun a b =>
      (compare a.name b.name).isLE) ∧
    (updates.map RefUpdate.name).Pairwise (fun a b => compare a b = .lt) ∧
    (∀ order : List RefUpdate, order.Perm updates → order.foldl apply old = new) ∧
    (∀ name target, .created name target ∈ updates ↔
      old.get? name = none ∧ new.get? name = some target) ∧
    (∀ name before after, .moved name before after ∈ updates ↔
      old.get? name = some before ∧ new.get? name = some after ∧ before ≠ after) ∧
    (∀ name before, .deleted name before ∈ updates ↔
      old.get? name = some before ∧ new.get? name = none) ∧
    (∀ name, name ∈ updates.map RefUpdate.name ↔ old.get? name ≠ new.get? name) ∧
    (updates = [] ↔ old = new) ∧
    ∀ others : List RefUpdate, others.foldl apply old = new → updates.length ≤ others.length := by
  intro updates
  refine ⟨diff_eq_mergeSort old new, List.pairwise_map.mpr (pairwise_diff old new),
    fun _ => foldl_apply_diff, fun name target => ?_, fun name before after => ?_,
    fun name before => ?_,
    fun _ => mem_names_diff_iff, diff_eq_nil_iff, fun _ => length_diff_le⟩
  · rw [mem_diff_iff]
    simp [RefUpdate.name, before?, after?]
  · rw [mem_diff_iff]
    simp [RefUpdate.name, before?, after?]
  · rw [mem_diff_iff]
    simp [RefUpdate.name, before?, after?]

end RefUpdate

end SignedRefs
