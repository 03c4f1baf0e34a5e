import SignedRefs.Node
import SignedRefs.Proofs.Store.Acceptance

/-!
# Writing the Own Namespace

A node that sets a ref signs and stores the manifest that follows on its last one. Seen through
snapshots, this changes one ref of one namespace and nothing else: where the refs to a patch lead
and where the heads of a branch are can be told from the refs alone.

## Main results

* `Snapshot.mem_patchTips_iff`, `Patch.targetTips_congr`: what reading a patch takes from the refs.
* `Node.writeRefs_eq_ok`, `Node.setRef_eq_ok`: what writing the own namespace and setting a ref do.
* `Node.snapshot_of_setRef`: which refs a snapshot has afterwards.
-/

namespace SignedRefs

/-! ### Refs in a snapshot -/

namespace Snapshot

variable {s s' : Snapshot}

/-- The target of a ref of an identity. -/
def ref? (s : Snapshot) (peer : PeerId) (name : RefName) : Option ObjectId :=
  (s.get? peer).bind fun n => n.manifest.refs.get? name

/-- The tips of a patch are the targets of the refs to it. -/
theorem mem_patchTips_iff {id tip : ObjectId} :
    tip ∈ s.patchTips id ↔ ∃ peer, s.ref? peer (.patch id) = some tip := by
  simp only [patchTips, SortedMap.values, List.mem_filterMap, List.mem_map, ref?,
    Option.bind_eq_some_iff]
  constructor
  · rintro ⟨_, ⟨⟨peer, n⟩, hmem, rfl⟩, htip⟩
    exact ⟨peer, n, SortedMap.mem_entries_iff.mp hmem, htip⟩
  · rintro ⟨peer, n, hget, htip⟩
    exact ⟨n, ⟨(peer, n), SortedMap.mem_entries_iff.mpr hget, rfl⟩, htip⟩

end Snapshot

/-- The heads of a branch depend on the refs to it. -/
theorem Patch.targetTips_congr {s s' : Snapshot} {delegates : SortedSet PeerId} {author : PeerId}
    {target : BranchName} (h : ∀ peer, s'.ref? peer (.head target) = s.ref? peer (.head target)) :
    targetTips s' delegates author target = targetTips s delegates author target := by
  refine List.filterMap_congr fun peer _ => ?_
  have hpeer := h peer
  simp only [Snapshot.ref?] at hpeer
  simp only [Option.bind_eq_bind, Option.pure_def, ← Option.bind_assoc, hpeer]

/-! ### Setting a ref -/

/-- What is signed is the manifest. -/
theorem Manifest.manifest_of_sign {m : Manifest} {keys : Keypair} {signed : SignedManifest}
    (h : m.sign keys = .ok signed) : signed.manifest = m := by
  rw [Manifest.sign] at h
  split at h
  · cases h
  · obtain ⟨bytes, -, hsigned⟩ := bind_eq_ok_iff.mp h
    cases hsigned
    rfl

namespace Node

variable {node node' : Node} {now : Int64} {repo repo' : RepoId} {name : RefName}
  {target : ObjectId} {written : Namespace}

/-- What a node signs as its next manifest is one of its own for the repository. -/
theorem place_of_sign {current : Option Namespace} {signed : SignedManifest}
    {edit : SortedMap RefName ObjectId → SortedMap RefName ObjectId}
    (h : (node.nextManifest repo current edit).sign node.keys = .ok signed) :
    signed.manifest.repo = repo ∧ signed.manifest.identity = node.id := by
  rw [Manifest.manifest_of_sign h]
  cases current <;> exact ⟨rfl, rfl⟩

/-- Writing the own namespace signs the manifest that follows on the last one and stores it. -/
theorem writeRefs_eq_ok {edit : SortedMap RefName ObjectId → SortedMap RefName ObjectId}
    (h : node.writeRefs now repo edit = .ok (written, node')) :
    ∃ current signed replaced, node.store.load repo node.id = .ok current ∧
      (node.nextManifest repo current edit).sign node.keys = .ok signed ∧
        node.store.replace now repo signed.manifest.identity signed =
          .ok (replaced, node'.store) ∧
            node' = { node with store := node'.store } ∧ written = replaced.current := by
  simp only [writeRefs, bind_eq_ok_iff, mapError_eq_ok_iff] at h
  obtain ⟨current, hcurrent, signed, hsigned, ⟨written', store⟩, hput, hdone⟩ := h
  cases hdone
  obtain ⟨⟨replaced, store'⟩, hreplace, hresult⟩ := map_eq_ok_iff.mp hput
  cases hresult
  exact ⟨current, signed, replaced, mapError_eq_ok_iff.mp hcurrent, hsigned, hreplace, rfl, rfl⟩

/-- A node that has signed the next manifest writes it if the store accepts it. -/
theorem writeRefs_of_replace {edit : SortedMap RefName ObjectId → SortedMap RefName ObjectId}
    {current : Option Namespace} {signed : SignedManifest} {replaced : Store.Replaced}
    {store : Store} (hload : node.store.load repo node.id = .ok current)
    (hsign : (node.nextManifest repo current edit).sign node.keys = .ok signed)
    (hreplace : node.store.replace now repo node.id signed = .ok (replaced, store)) :
    node.writeRefs now repo edit = .ok (replaced.current, { node with store := store }) := by
  have hput : node.store.put now repo signed = .ok (replaced.current, store) := by
    rw [Store.put, (place_of_sign hsign).2, hreplace]
    rfl
  simp only [writeRefs, bind_eq_ok_iff, mapError_eq_ok_iff]
  exact ⟨current, mapError_eq_ok_iff.mpr hload, signed, hsign, _, hput, rfl⟩

/-- Setting a ref saves a namespace of the node whose refs are those before and the new one. -/
theorem setRef_eq_ok (h : node.setRef now repo name target = .ok (written, node')) :
    ∃ current store, node.store.load repo node.id = .ok current ∧
      node.store.save written = .ok store ∧ node' = { node with store := store } ∧
        written.repo = repo ∧ written.identity = node.id ∧
          ∀ name', written.manifest.refs.get? name' = if name' = name then some target
            else current.bind fun n => n.manifest.refs.get? name' := by
  obtain ⟨current, signed, replaced, hload, hsigned, hreplace, hnode, rfl⟩ :=
    writeRefs_eq_ok h
  obtain ⟨-, -, hwritten, -, hsave⟩ := Store.replace_eq_ok_iff.mp hreplace
  obtain ⟨hrepo, hidentity⟩ := place_of_sign hsigned
  refine ⟨current, node'.store, hload, hsave, hnode, ?_, ?_, fun name' => ?_⟩
  · rw [Namespace.repo_of_signed hwritten, hrepo]
  · rw [Namespace.identity_of_signed hwritten, hidentity]
  · rw [Namespace.manifest, hwritten, Manifest.manifest_of_sign hsigned]
    by_cases hname : name' = name
    · subst hname
      rw [if_pos rfl]
      cases current <;> exact SortedMap.get?_insert_self _ _ _
    · rw [if_neg hname]
      cases current <;> exact SortedMap.get?_insert_of_ne _ hname _

/-- Setting a ref leaves the delegates alone. -/
theorem delegates_of_setRef (h : node.setRef now repo name target = .ok (written, node')) :
    node'.delegates = node.delegates := by
  obtain ⟨current, store, -, -, rfl, -⟩ := setRef_eq_ok h
  rfl

/-- After a ref was set, a snapshot has this ref in the namespace of the node, and else what it had
before. -/
theorem snapshot_of_setRef (h : node.setRef now repo name target = .ok (written, node'))
    {s : Snapshot} (hs : node.snapshot repo' = .ok s) :
    ∃ s', node'.snapshot repo' = .ok s' ∧ ∀ peer name', s'.ref? peer name' =
      if repo' = repo ∧ peer = node.id ∧ name' = name then some target else s.ref? peer name' := by
  obtain ⟨current, store, hload, hsave, rfl, hrepo, hidentity, hrefs⟩ := setRef_eq_ok h
  have hs := mapError_eq_ok_iff.mp hs
  obtain ⟨s', hs', hget⟩ := Store.snapshot_of_save hsave hs
  refine ⟨s', mapError_eq_ok_iff.mpr hs', fun peer name' => ?_⟩
  rw [Snapshot.ref?, hget, hrepo, hidentity]
  by_cases hplace : repo' = repo ∧ peer = node.id
  · obtain ⟨rfl, rfl⟩ := hplace
    have hcurrent := Store.load_of_snapshot hs node.id
    rw [hload] at hcurrent
    cases hcurrent
    rw [if_pos ⟨rfl, rfl⟩, Option.bind_some, hrefs]
    simp only [true_and, Snapshot.ref?]
  · rw [if_neg hplace, if_neg fun h => hplace ⟨h.1, h.2.1⟩, Snapshot.ref?]

end Node

end SignedRefs
