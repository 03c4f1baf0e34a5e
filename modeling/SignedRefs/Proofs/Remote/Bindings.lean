import SignedRefs.Proofs.Remote.Refspec
import SignedRefs.Proofs.Store.Refs

/-!
# Remotes Do Not Collide

Names are bound and unbound in any order. A binding lasts until it is taken back, as a name that
stands for one identity cannot be bound to another; so what a table of bindings holds is the first
binding of each name since it was last unbound (`RemoteBindings.get?_afterAll_iff`). In particular
every bound name passed the check for a single component. That check keeps remotes apart: the name
ends at the first slash behind `refs/remotes/`, whatever the branch is called. It also lets the
engine read the refspec, which then maps exactly the branches to where `remoteRefs` has them.

## Main results

* `RemoteBindings.get?_after_bind`, `RemoteBindings.get?_after_unbind`: what one call does to a
  look-up.
* `RemoteBindings.get?_afterAll_iff`: when a name is bound after a run of calls.
* `remoteRefs_disjoint`: two remotes have no name in common.
* `branchMapping_agrees`: the refspec agrees with `remoteRefs`.
* `Node.remotes_of_run`: what a node sees of its remotes after any run of calls.
-/

namespace SignedRefs

/-! ### Runs of calls -/

/-- What can be asked of a table of bindings. -/
inductive BindingCall
  /-- A name is bound to an identity. -/
  | bind (name : String) (identity : PeerId)
  /-- A name is forgotten. -/
  | unbind (name : String)
deriving DecidableEq

namespace RemoteBindings

/-- The table after a call. -/
def after (r : RemoteBindings) : BindingCall → RemoteBindings
  | .bind name identity =>
    match r.bind name identity with
    | .ok (_, r) => r
    | .error _ => r
  | .unbind name => r.unbind name

/-- The table after several calls. -/
def afterAll (r : RemoteBindings) (calls : List BindingCall) : RemoteBindings := calls.foldl after r

variable {r : RemoteBindings} {name name' : String} {identity : PeerId}

/-- Later calls find what the earlier ones have left. -/
theorem afterAll_append (r : RemoteBindings) (before later : List BindingCall) :
    r.afterAll (before ++ later) = (r.afterAll before).afterAll later :=
  List.foldl_append

/-- A name is bound if it may be and is free. Everything else leaves the table as it is. -/
theorem after_bind : r.after (.bind name identity) =
    if checkComponent name = .ok () ∧ r.get? name = none then ⟨r.bindings.insert name identity⟩
    else r := by
  rw [after, bind]
  cases hcheck : checkComponent name with
  | error error => rw [if_neg fun h => by cases h.1]
  | ok _ =>
      cases hbound : r.get? name with
      | none => rw [if_pos ⟨rfl, rfl⟩]
      | some bound =>
          rw [if_neg fun h => by cases h.2]
          by_cases hsame : bound = identity
          · simp only [hsame, if_true]
          · simp only [hsame, if_false]

/-- A binding concerns one name, and only if it may be bound and is free. -/
theorem get?_after_bind : (r.after (.bind name identity)).get? name' =
    if checkComponent name = .ok () ∧ r.get? name = none ∧ name' = name then some identity
    else r.get? name' := by
  rw [after_bind]
  by_cases hfree : checkComponent name = .ok () ∧ r.get? name = none
  · rw [if_pos hfree]
    by_cases hname : name' = name
    · rw [if_pos ⟨hfree.1, hfree.2, hname⟩, hname]
      exact SortedMap.get?_insert_self _ _ _
    · rw [if_neg fun h => hname h.2.2]
      exact SortedMap.get?_insert_of_ne _ hname _
  · rw [if_neg hfree, if_neg fun h => hfree ⟨h.1, h.2.1⟩]

/-- A name that is forgotten is free, and the others are as they were. -/
theorem get?_after_unbind : (r.after (.unbind name)).get? name' =
    if name' = name then none else r.get? name' := by
  split
  · next hname => exact hname ▸ SortedMap.get?_erase_self
  · next hname => exact SortedMap.get?_erase_of_ne hname

/-- What fails changes nothing. -/
theorem after_of_error {fault : BindFault} (h : r.bind name identity = .error fault) :
    r.after (.bind name identity) = r := by
  rw [after, h]

/-- A bound name keeps its identity in every call but the one that forgets it. -/
theorem get?_after_of_ne {call : BindingCall} (h : r.get? name = some identity)
    (hcall : call ≠ .unbind name) : (r.after call).get? name = some identity := by
  cases call with
  | bind name' identity' =>
      rw [get?_after_bind, if_neg, h]
      rintro ⟨-, hnone, rfl⟩
      rw [h] at hnone
      cases hnone
  | unbind name' =>
      rw [get?_after_unbind, if_neg, h]
      rintro rfl
      exact hcall rfl

/-- A bound name keeps its identity in every run without the call that forgets it. -/
theorem get?_afterAll_of_notMem {calls : List BindingCall} (h : r.get? name = some identity)
    (hcalls : .unbind name ∉ calls) : (r.afterAll calls).get? name = some identity := by
  induction calls generalizing r with
  | nil => exact h
  | cons call calls ih =>
      rw [List.mem_cons, not_or] at hcalls
      exact ih (get?_after_of_ne h (Ne.symm hcalls.1)) hcalls.2

/-- A free name is bound by the call that binds it, if it may be bound. -/
theorem eq_bind_of_get?_after {call : BindingCall} (hfree : r.get? name = none)
    (h : (r.after call).get? name = some identity) :
    call = .bind name identity ∧ checkComponent name = .ok () := by
  cases call with
  | bind name' identity' =>
      rw [get?_after_bind] at h
      split at h
      · next hbound =>
          obtain ⟨hcheck, -, rfl⟩ := hbound
          cases h
          exact ⟨rfl, hcheck⟩
      · rw [hfree] at h
        cases h
  | unbind name' =>
      rw [get?_after_unbind, hfree] at h
      split at h <;> cases h

/-- A name is bound after a run if some call bound it while it was free and none forgot it since. -/
theorem get?_afterAll_iff {calls : List BindingCall} :
    (empty.afterAll calls).get? name = some identity ↔
      ∃ before later, calls = before ++ .bind name identity :: later ∧
        checkComponent name = .ok () ∧ (empty.afterAll before).get? name = none ∧
          .unbind name ∉ later := by
  constructor
  · intro h
    induction calls using List.reverseRecOn with
    | nil => cases h
    | append_singleton calls call ih =>
        rw [afterAll_append] at h
        cases hbefore : (empty.afterAll calls).get? name with
        | none =>
            obtain ⟨rfl, hcheck⟩ := eq_bind_of_get?_after hbefore h
            exact ⟨calls, [], rfl, hcheck, hbefore, List.not_mem_nil⟩
        | some bound =>
            have hcall : call ≠ .unbind name := by
              rintro rfl
              change ((empty.afterAll calls).after (.unbind name)).get? name = some identity at h
              rw [get?_after_unbind, if_pos rfl] at h
              cases h
            have hkept := get?_after_of_ne hbefore hcall
            obtain rfl : bound = identity := Option.some.inj (hkept.symm.trans h)
            obtain ⟨before, later, rfl, hcheck, hfree, hlater⟩ := ih hbefore
            refine ⟨before, later ++ [call], by rw [List.append_assoc]; rfl, hcheck, hfree, ?_⟩
            rw [List.mem_append, List.mem_singleton, not_or]
            exact ⟨hlater, Ne.symm hcall⟩
  · rintro ⟨before, later, rfl, hcheck, hfree, hlater⟩
    have hbound : ((empty.afterAll before).after (.bind name identity)).get? name =
        some identity := by
      rw [get?_after_bind, if_pos ⟨hcheck, hfree, rfl⟩]
    rw [afterAll_append]
    exact get?_afterAll_of_notMem (r := (empty.afterAll before).after _) hbound hlater

/-- Every bound name is a single component. -/
theorem checkComponent_of_get? {calls : List BindingCall}
    (h : (empty.afterAll calls).get? name = some identity) : checkComponent name = .ok () := by
  obtain ⟨before, later, -, hcheck, -⟩ := get?_afterAll_iff.mp h
  exact hcheck

end RemoteBindings

/-! ### The branches of a namespace -/

section Branches

variable {n : Namespace} {branch : BranchName} {target : ObjectId}

/-- The branches are the refs of the manifest that are branches. -/
theorem Manifest.mem_heads_iff {m : Manifest} :
    (branch, target) ∈ m.heads ↔ m.refs.get? (.head branch) = some target := by
  rw [heads, List.mem_filterMap, ← SortedMap.mem_entries_iff]
  constructor
  · rintro ⟨⟨ref, target'⟩, hentry, hhead⟩
    cases ref with
    | head branch' =>
        cases hhead
        exact hentry
    | _ => cases hhead
  · intro hentry
    exact ⟨_, hentry, rfl⟩

/-- No branch is listed twice. -/
theorem Manifest.nodup_heads (m : Manifest) : (m.heads.map Prod.fst).Nodup := by
  rw [List.nodup_iff_pairwise_ne, List.pairwise_map, heads, List.pairwise_filterMap]
  refine m.refs.ascending.imp fun {a b} hlt x hx y hy heq => ?_
  obtain ⟨ref, target⟩ := a
  obtain ⟨ref', target'⟩ := b
  cases ref with
  | head branch =>
      cases ref' with
      | head branch' =>
          cases hx
          cases hy
          rw [show branch = branch' from heq] at hlt
          simp at hlt
      | _ => cases hy
  | _ => cases hx

/-- The branches are listed among the refs of the namespace. -/
theorem Namespace.mem_refs_head_iff :
    (⟨n.identity, .head branch⟩, target) ∈ n.refs ↔ (branch, target) ∈ n.manifest.heads := by
  rw [mem_refs_iff, Manifest.mem_heads_iff, SortedMap.get?_insert_of_ne _ (by simp)]
  exact and_iff_right rfl

end Branches

/-! ### The names of a remote -/

section Remotes

variable {name name' : String} {n n' : Namespace} {branch : BranchName} {target : ObjectId}

/-- Different branches have different names. -/
theorem remotesDirectory_append_inj {a b : String} :
    remotesDirectory name ++ a = remotesDirectory name ++ b ↔ a = b := by
  rw [← String.toList_inj, String.toList_append, String.toList_append, List.append_cancel_left_eq,
    String.toList_inj]

/-- The name of the remote ends at the first slash. -/
theorem remotesDirectory_append_ne (h : '/' ∉ name.toList) (h' : '/' ∉ name'.toList)
    (hne : name ≠ name') (a b : String) :
    remotesDirectory name ++ a ≠ remotesDirectory name' ++ b := by
  have hchars : ∀ name a : String, (remotesDirectory name ++ a).toList =
      "refs/remotes/".toList ++ (name.toList ++ '/' :: a.toList) := by
    intro name a
    simp only [remotesDirectory, String.toList_append, List.append_assoc]
    rfl
  intro heq
  rw [← String.toList_inj, hchars, hchars, List.append_cancel_left_eq] at heq
  have hsplit : NamespacedRef.splitSlash? (name.toList ++ '/' :: a.toList) =
      some (name.toList, a.toList) := NamespacedRef.splitSlash?_append h
  rw [heq, NamespacedRef.splitSlash?_append h', Option.some.injEq, Prod.mk.injEq] at hsplit
  exact hne (String.toList_inj.mp hsplit.1.symm)

/-- The names of a remote with their targets. -/
def remoteEntries (name : String) (n : Namespace) : List (String × ObjectId) :=
  n.manifest.heads.map fun (branch, target) => (remotesDirectory name ++ branch.text, target)

/-- No branch is seen twice. -/
theorem nodup_remoteEntries (name : String) (n : Namespace) :
    ((remoteEntries name n).map Prod.fst).Nodup := by
  have hheads := n.manifest.nodup_heads
  rw [remoteEntries, List.map_map]
  rw [List.nodup_iff_pairwise_ne, List.pairwise_map] at hheads ⊢
  exact hheads.imp fun hne heq =>
    hne (BranchName.ext (remotesDirectory_append_inj.mp heq))

/-- There is one entry for each branch. -/
theorem entries_remoteRefs_perm (name : String) (n : Namespace) :
    (remoteRefs name n).entries.Perm (remoteEntries name n) :=
  SortedMap.entries_ofList_perm (nodup_remoteEntries name n)

/-- A branch is found under its name. -/
theorem get?_remoteRefs_iff {key : String} : (remoteRefs name n).get? key = some target ↔
    ∃ branch, (branch, target) ∈ n.manifest.heads ∧ remotesDirectory name ++ branch.text = key := by
  rw [← SortedMap.mem_entries_iff, (entries_remoteRefs_perm name n).mem_iff, remoteEntries,
    List.mem_map]
  constructor
  · rintro ⟨⟨branch, target'⟩, hhead, heq⟩
    cases heq
    exact ⟨branch, hhead, rfl⟩
  · rintro ⟨branch, hhead, rfl⟩
    exact ⟨(branch, target), hhead, rfl⟩

/-- Two remotes have no name in common. -/
theorem remoteRefs_disjoint (h : '/' ∉ name.toList) (h' : '/' ∉ name'.toList) (hne : name ≠ name') :
    (remoteRefs name n).keys.Disjoint (remoteRefs name' n').keys := by
  intro key hkey hkey'
  obtain ⟨target, htarget⟩ :=
    SortedMap.contains_eq_true_iff.mp (SortedMap.mem_keys_iff.mp hkey)
  obtain ⟨target', htarget'⟩ :=
    SortedMap.contains_eq_true_iff.mp (SortedMap.mem_keys_iff.mp hkey')
  obtain ⟨branch, -, rfl⟩ := get?_remoteRefs_iff.mp htarget
  obtain ⟨branch', -, heq⟩ := get?_remoteRefs_iff.mp htarget'
  exact remotesDirectory_append_ne h h' hne _ _ heq.symm

end Remotes

/-! ### What a node sees -/

/-- A mapping takes each branch of a namespace to where the branches are seen under the name of a
remote, and maps nothing else that the namespace lists. -/
structure Refspec.Agrees (spec : Refspec) (name : String) (n : Namespace) : Prop where
  /-- Just the branches are mapped. -/
  isHead_iff : ∀ ref target, (ref, target) ∈ n.refs →
    ((∃ image, spec.image? ref.text = some image) ↔ ∃ branch, ref.name = .head branch)
  /-- Each is mapped to its name under the remote, which has its target. -/
  image_eq : ∀ ref target branch, (ref, target) ∈ n.refs → ref.name = .head branch →
    spec.image? ref.text = some (remotesDirectory name ++ branch.text) ∧
      (remoteRefs name n).get? (remotesDirectory name ++ branch.text) = some target

/-- The mapping of a remote agrees with what is seen of it. -/
theorem branchMapping_agrees (name : String) (n : Namespace) :
    (branchMapping name n.identity).Agrees name n where
  isHead_iff := by
    intro ref target href
    have hidentity := (Namespace.mem_refs_iff.mp href).1
    constructor
    · rintro ⟨image, himage⟩
      obtain ⟨branch, hbranch, -⟩ := (image?_branchMapping_iff hidentity).mp himage
      exact ⟨branch, hbranch⟩
    · rintro ⟨branch, hbranch⟩
      exact ⟨_, (image?_branchMapping_iff hidentity).mpr ⟨branch, hbranch, rfl⟩⟩
  image_eq := by
    intro ref target branch href hbranch
    have hidentity := (Namespace.mem_refs_iff.mp href).1
    refine ⟨(image?_branchMapping_iff hidentity).mpr ⟨branch, hbranch, rfl⟩,
      get?_remoteRefs_iff.mpr ⟨branch, ?_, rfl⟩⟩
    obtain ⟨identity, name⟩ := ref
    subst hidentity hbranch
    exact Namespace.mem_refs_head_iff.mp href

/-- What has to be there is found. -/
theorem Store.get_eq_ok_iff {store : Store} {repo : RepoId} {identity : PeerId} {n : Namespace} :
    store.get repo identity = .ok n ↔ store.load repo identity = .ok (some n) := by
  rw [get, bind_eq_ok_iff]
  constructor
  · rintro ⟨found, hload, hfound⟩
    cases found with
    | none => cases hfound
    | some found =>
        cases hfound
        exact hload
  · intro hload
    exact ⟨some n, hload, rfl⟩

namespace Node

variable {node : Node} {name : String} {identity : PeerId} {repo : RepoId}
  {refs : SortedMap String ObjectId}

/-- A remote is found if its name is bound. -/
theorem remote_eq_ok_iff : node.remote name = .ok identity ↔
    node.remotes.get? name = some identity := by
  rw [remote]
  cases node.remotes.get? name with
  | none => exact iff_of_false (by rintro ⟨⟩) (by rintro ⟨⟩)
  | some bound => rw [Except.ok.injEq, Option.some.injEq]

/-- A node sees the branches of the namespace that it finds for the identity. -/
theorem remoteRefs_eq_ok_iff : node.remoteRefs repo name = .ok refs ↔
    ∃ identity n, node.remotes.get? name = some identity ∧ node.store.get repo identity = .ok n ∧
      SignedRefs.remoteRefs name n = refs := by
  rw [remoteRefs, bind_eq_ok_iff]
  refine exists_congr fun identity => ?_
  rw [remote_eq_ok_iff, bind_eq_ok_iff]
  constructor
  · rintro ⟨hbound, n, hfound, heq⟩
    exact ⟨n, hbound, mapError_eq_ok_iff.mp hfound, Except.ok.inj heq⟩
  · rintro ⟨n, hbound, hfound, rfl⟩
    exact ⟨hbound, n, mapError_eq_ok_iff.mpr hfound, rfl⟩

/-- After any run of calls the bound names are those that some call bound while they were free and
that none forgot since; they have kept their identities, and calls that failed have changed nothing.
The names of two remotes are disjoint, whatever the store of the node holds. Of the namespace that
is found for the identity of a bound name, the remote has exactly one entry for each branch, with
its target. The refspec is read as a mapping that agrees with this. If the store was reached by any
run from a new one, the namespace is the identity's own, so that this mapping is the one that the
node tells the engine. -/
theorem remotes_of_run (start : Node) (calls : List BindingCall) :
    let node := { start with remotes := RemoteBindings.empty.afterAll calls }
    (∀ name identity, node.remotes.get? name = some identity ↔
      ∃ before later, calls = before ++ .bind name identity :: later ∧
        checkComponent name = .ok () ∧ (RemoteBindings.empty.afterAll before).get? name = none ∧
          .unbind name ∉ later) ∧
    (∀ before later name identity, calls = before ++ later →
      (RemoteBindings.empty.afterAll before).get? name = some identity → .unbind name ∉ later →
        node.remotes.get? name = some identity) ∧
    (∀ before later name identity fault, calls = before ++ .bind name identity :: later →
      (RemoteBindings.empty.afterAll before).bind name identity = .error fault →
        node.remotes = RemoteBindings.empty.afterAll (before ++ later)) ∧
    (∀ name identity, node.remotes.get? name = some identity →
      node.fetchRefspec name = .ok (SignedRefs.fetchRefspec name identity) ∧
      ∀ repo n, node.store.get repo identity = .ok n →
        node.remoteRefs repo name = .ok (SignedRefs.remoteRefs name n) ∧
        (SignedRefs.remoteRefs name n).entries.Perm (n.manifest.heads.map fun (branch, target) =>
          ("refs/remotes/" ++ name ++ "/" ++ branch.text, target)) ∧
        ∃ spec, Refspec.ofText? (SignedRefs.fetchRefspec name n.identity) = some spec ∧
          spec.Agrees name n) ∧
    (∀ name name' repo repo' refs refs', name ≠ name' → node.remoteRefs repo name = .ok refs →
      node.remoteRefs repo' name' = .ok refs' → refs.keys.Disjoint refs'.keys) ∧
    ∀ (backend : Backend) operations, node.store = backend.newStore.afterAll operations →
      ∀ repo identity n, node.store.get repo identity = .ok n → n.identity = identity := by
  intro node
  refine ⟨fun name identity => RemoteBindings.get?_afterAll_iff, ?_, ?_,
    fun name identity hbound => ⟨?_, fun repo n hfound => ⟨?_, ?_, ?_⟩⟩, ?_, ?_⟩
  · rintro before later name identity rfl hbound hlater
    change (RemoteBindings.empty.afterAll (before ++ later)).get? name = some identity
    rw [RemoteBindings.afterAll_append]
    exact RemoteBindings.get?_afterAll_of_notMem hbound hlater
  · rintro before later name identity fault rfl hfault
    change RemoteBindings.empty.afterAll (before ++ .bind name identity :: later) = _
    rw [RemoteBindings.afterAll_append, RemoteBindings.afterAll_append]
    exact congrArg (RemoteBindings.afterAll · later) (RemoteBindings.after_of_error hfault)
  · rw [fetchRefspec, remote_eq_ok_iff.mpr hbound]
    rfl
  · exact remoteRefs_eq_ok_iff.mpr ⟨identity, n, hbound, hfound, rfl⟩
  · exact entries_remoteRefs_perm name n
  · have hcheck := RemoteBindings.checkComponent_of_get? hbound
    exact ⟨_, ofText?_fetchRefspec hcheck, branchMapping_agrees name n⟩
  · intro name name' repo repo' refs refs' hne hrefs hrefs'
    obtain ⟨identity, n, hbound, -, rfl⟩ := remoteRefs_eq_ok_iff.mp hrefs
    obtain ⟨identity', n', hbound', -, rfl⟩ := remoteRefs_eq_ok_iff.mp hrefs'
    have hslash := not_mem_of_checkComponent (RemoteBindings.checkComponent_of_get? hbound)
    have hslash' := not_mem_of_checkComponent (RemoteBindings.checkComponent_of_get? hbound')
    exact remoteRefs_disjoint hslash.1 hslash'.1 hne
  · intro backend operations hstore repo identity n hfound
    have hauthentic : node.store.Authentic :=
      hstore ▸ (Store.authentic_newStore backend).afterAll operations
    exact (hauthentic.of_finds (.load (Store.get_eq_ok_iff.mp hfound))).identity_eq

end Node

namespace Forked

/-- Alice points a branch at a commit. -/
def headSet : List Operation :=
  [.act (.new ⟨.replicate 32 1⟩ .inMemory .empty .standard) 1700000000000 repo
    (.setHead "feature/x" (commit 2))]

/-- Bob's node, which has what Alice wrote. -/
def onlooker : Node :=
  .new ⟨.replicate 32 2⟩ (Backend.database.newStore.afterAll headSet) .empty .standard

/-- Two names are bound to Alice, one of which cannot be bound to Bob any more. -/
def bindings : List BindingCall :=
  [.bind "upstream" alice, .bind "upstream" bob, .unbind "fork", .bind "mirror" alice]

/-- Bob's node after these calls. -/
def informed : Node := { onlooker with remotes := RemoteBindings.empty.afterAll bindings }

set_option maxRecDepth 100000 in
/-- Alice's branch is in the store. -/
theorem heads_of_headSet : ((onlooker.store.load repo alice).toOption.join.map
    fun n => n.manifest.heads.map fun (branch, target) => (branch.text, target)) =
      some [("feature/x", commit 2)] := by
  decide +kernel

/-- Alice's branch is seen under the name that stayed hers, and where the refspec maps it. -/
theorem remotes_of_informed : ∃ n branch spec, informed.remotes.get? "upstream" = some alice ∧
    informed.remotes = RemoteBindings.empty.afterAll (bindings.eraseIdx 1) ∧
    onlooker.store.get repo alice = .ok n ∧ n.identity = alice ∧
    informed.remoteRefs repo "upstream" = .ok (remoteRefs "upstream" n) ∧
    Refspec.ofText? (fetchRefspec "upstream" n.identity) = some spec ∧
    spec.image? (NamespacedRef.mk n.identity (.head branch)).text =
      some "refs/remotes/upstream/feature/x" ∧
    (remoteRefs "upstream" n).get? "refs/remotes/upstream/feature/x" = some (commit 2) ∧
    (remoteRefs "upstream" n).keys.Disjoint (remoteRefs "mirror" n).keys := by
  have hrun := Node.remotes_of_run onlooker bindings
  dsimp only at hrun
  obtain ⟨-, hkept, hfailed, hseen, hdisjoint, hown⟩ := hrun
  obtain ⟨n, hn, hheads⟩ := Option.map_eq_some_iff.mp heads_of_headSet
  have hreached : onlooker.store = Backend.database.newStore.afterAll headSet := by
    rw [onlooker, Node.new]
  have hfound : onlooker.store.get repo alice = .ok n :=
    Store.get_eq_ok_iff.mpr (toOption_eq_some_iff.mp (Option.join_eq_some_iff.mp hn))
  have hfirst : (RemoteBindings.empty.afterAll (bindings.take 1)).get? "upstream" = some alice := by
    decide +kernel
  have hlast : (RemoteBindings.empty.afterAll bindings).get? "mirror" = some alice := by
    decide +kernel
  have hupstream := hkept (bindings.take 1) (bindings.drop 1) "upstream" alice rfl hfirst
    (by decide +kernel)
  have hmirror := hkept bindings [] "mirror" alice rfl hlast List.not_mem_nil
  have hfault : (RemoteBindings.empty.afterAll (bindings.take 1)).bind "upstream" bob =
      .error (.taken "upstream" alice) := by
    have hcheck : checkComponent "upstream" = .ok () := by decide +kernel
    have hne : alice ≠ bob := by decide +kernel
    simp only [RemoteBindings.bind, hcheck, hfirst, if_neg hne]
  obtain ⟨-, hupstream'⟩ := hseen "upstream" alice hupstream
  obtain ⟨hrefs, -, spec, hspec, hagrees⟩ := hupstream' repo n hfound
  obtain ⟨hrefs', -⟩ := (hseen "mirror" alice hmirror).2 repo n hfound
  obtain ⟨⟨branch, target⟩, hhead, heq⟩ := List.mem_map.mp (hheads ▸ List.mem_singleton_self _)
  obtain ⟨htext, rfl⟩ := Prod.mk.inj heq
  obtain ⟨himage, htarget⟩ :=
    hagrees.image_eq _ _ branch (Namespace.mem_refs_head_iff.mpr hhead) rfl
  rw [htext] at himage htarget
  exact ⟨n, branch, spec, hupstream,
    hfailed (bindings.take 1) (bindings.drop 2) "upstream" bob _ rfl hfault,
    hfound, hown .database headSet hreached repo alice n hfound, hrefs, hspec, himage, htarget,
    hdisjoint "upstream" "mirror" repo repo _ _ (by decide) hrefs hrefs'⟩

end Forked

end SignedRefs
