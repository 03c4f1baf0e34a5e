import Mathlib.Algebra.BigOperators.Group.Finset.Basic
import Mathlib.Data.Finset.Dedup
import Mathlib.Logic.Relation
import SignedRefs.Graph
import SignedRefs.Proofs.Entries

/-!
# Ancestry of Commits

`MemoryGraph.search` walks over the recorded parents with a list of commits that are still to be
visited. It never misses one: what it has seen has its parents among the seen or the pending ones,
and the pending commits and the links of those that have not been seen are never more than the steps
that remain. So ancestry is reachability. It is transitive, and it stays when commits are added to a
graph.

## Main results

* `exists_of_search`, `not_reaches_of_search`: what the search finds, and what it rules out.
* `isAncestor_iff`: one commit is an ancestor of another if it is recorded and can be reached.
* `isAncestor_trans`, `isAncestor_mono`: ancestors of ancestors, and ancestors in a larger graph.
-/

namespace SignedRefs

namespace MemoryGraph

open Relation

/-- One commit is recorded as a parent of another. -/
def IsParent (g : MemoryGraph) (id parent : ObjectId) : Prop := parent ∈ g.parents id

variable {g larger : MemoryGraph} {target : ObjectId} {fuel : Nat} {seen : SortedSet ObjectId}
  {pending : List ObjectId} {left : Finset ObjectId}

/-! ### What is found -/

/-- What is found can be reached from a pending commit. -/
theorem exists_of_search (h : g.search target fuel seen pending = true) :
    ∃ id ∈ pending, ReflTransGen g.IsParent id target := by
  induction fuel generalizing seen pending with
  | zero => cases pending <;> cases h
  | succ fuel ih =>
      cases pending with
      | nil => cases h
      | cons id pending =>
          rw [search] at h
          split at h
          · next heq => exact ⟨id, List.mem_cons_self, heq ▸ .refl⟩
          · split at h
            · obtain ⟨first, hfirst, hpath⟩ := ih h
              exact ⟨first, List.mem_cons_of_mem _ hfirst, hpath⟩
            · obtain ⟨first, hfirst, hpath⟩ := ih h
              rcases List.mem_append.mp hfirst with hparent | hfirst
              · exact ⟨id, List.mem_cons_self, .head hparent hpath⟩
              · exact ⟨first, List.mem_cons_of_mem _ hfirst, hpath⟩

/-! ### What is ruled out -/

/-- A commit has been met by the search: it has been seen, or it is pending. -/
def Met (seen : SortedSet ObjectId) (pending : List ObjectId) (id : ObjectId) : Prop :=
  seen.contains id = true ∨ id ∈ pending

/-- A search that has not seen its target yet, and how many steps it may still need: one for each
pending commit, and one for each link of a commit that is left. -/
structure Searching (g : MemoryGraph) (target : ObjectId) (seen : SortedSet ObjectId)
    (pending : List ObjectId) (left : Finset ObjectId) (fuel : Nat) : Prop where
  /-- The target has not been seen. -/
  target_new : seen.contains target = false
  /-- The parents of what has been seen have been met. -/
  closed : ∀ id, seen.contains id = true → ∀ parent, g.IsParent id parent → Met seen pending parent
  /-- A commit that has not been seen is left. -/
  left_of_new : ∀ id, g.commits.contains id = true → seen.contains id = false → id ∈ left
  /-- The steps suffice. -/
  steps : pending.length + ∑ id ∈ left, (g.parents id).length ≤ fuel

/-- What has been seen after a step is the new one and what was seen before. -/
theorem contains_insert_iff {id next : ObjectId} :
    (seen.insert next).contains id = true ↔ id = next ∨ seen.contains id = true :=
  SortedMap.contains_insert

/-- What has been met still has when a commit that was seen before is passed over. -/
theorem Met.skip {id next : ObjectId} (hnext : seen.contains next = true)
    (h : Met seen (next :: pending) id) : Met seen pending id := by
  rcases h with hseen | hmem
  · exact .inl hseen
  · rcases List.mem_cons.mp hmem with rfl | hmem
    · exact .inl hnext
    · exact .inr hmem

/-- What has been met still has when a commit is expanded. -/
theorem Met.expand {id next : ObjectId} {parents : List ObjectId}
    (h : Met seen (next :: pending) id) : Met (seen.insert next) (parents ++ pending) id := by
  rw [Met, contains_insert_iff, List.mem_append]
  rcases h with hseen | hmem
  · exact .inl (.inr hseen)
  · rcases List.mem_cons.mp hmem with rfl | hmem
    · exact .inl (.inl rfl)
    · exact .inr (.inr hmem)

/-- A commit that is not recorded has no parents. -/
theorem parents_of_not_contains {id : ObjectId} (h : g.commits.contains id = false) :
    g.parents id = [] := by
  rw [parents, Option.not_isSome_iff_eq_none.mp (Bool.eq_false_iff.mp h), Option.getD_none]

/-- What has been seen already need not be searched again. -/
theorem Searching.skip {id : ObjectId}
    (h : Searching g target seen (id :: pending) left (fuel + 1)) (hid : seen.contains id = true) :
    Searching g target seen pending left fuel := by
  refine ⟨h.target_new, fun a ha parent hparent => (h.closed a ha parent hparent).skip hid,
    h.left_of_new, ?_⟩
  have hsteps := h.steps
  rw [List.length_cons] at hsteps
  omega

/-- Expanding a commit uses up its links. -/
theorem Searching.expand {id : ObjectId}
    (h : Searching g target seen (id :: pending) left (fuel + 1)) (hid : seen.contains id = false)
    (hne : id ≠ target) :
    Searching g target (seen.insert id) (g.parents id ++ pending) (left.erase id) fuel := by
  refine ⟨?_, fun a ha parent hparent => ?_, fun a ha hnew => ?_, ?_⟩
  · rw [← Bool.not_eq_true, contains_insert_iff, not_or, Bool.not_eq_true]
    exact ⟨hne.symm, h.target_new⟩
  · rcases contains_insert_iff.mp ha with rfl | ha
    · exact .inr (List.mem_append_left _ hparent)
    · exact (h.closed a ha parent hparent).expand
  · rw [← Bool.not_eq_true, contains_insert_iff, not_or, Bool.not_eq_true] at hnew
    exact Finset.mem_erase.mpr ⟨hnew.1, h.left_of_new a ha hnew.2⟩
  · have hlinks : (g.parents id).length + ∑ a ∈ left.erase id, (g.parents a).length =
        ∑ a ∈ left, (g.parents a).length := by
      by_cases hleft : id ∈ left
      · exact Finset.add_sum_erase left (fun a => (g.parents a).length) hleft
      · have hunknown : g.commits.contains id = false :=
          Bool.eq_false_iff.mpr fun hin => hleft (h.left_of_new id hin hid)
        rw [parents_of_not_contains hunknown, Finset.erase_eq_of_notMem hleft, List.length_nil,
          Nat.zero_add]
    have hsteps := h.steps
    rw [List.length_cons] at hsteps
    rw [List.length_append]
    omega

/-- When nothing is pending, all that can be reached from the seen commits has been seen. -/
theorem Searching.not_reaches (h : Searching g target seen [] left fuel) {id : ObjectId}
    (hid : Met seen [] id) : ¬ReflTransGen g.IsParent id target := by
  have hseen : ∀ a, ReflTransGen g.IsParent id a → seen.contains a = true := by
    intro a hpath
    induction hpath with
    | refl => exact hid.resolve_right List.not_mem_nil
    | tail _ hparent ih => exact (h.closed _ ih _ hparent).resolve_right List.not_mem_nil
  intro hpath
  have htarget := hseen target hpath
  rw [h.target_new] at htarget
  cases htarget

/-- If the search does not find its target, then nothing that it has met leads there. -/
theorem not_reaches_of_search (h : Searching g target seen pending left fuel)
    (hfails : g.search target fuel seen pending = false) {id : ObjectId}
    (hid : Met seen pending id) : ¬ReflTransGen g.IsParent id target := by
  induction fuel generalizing seen pending left with
  | zero =>
      cases pending with
      | nil => exact h.not_reaches hid
      | cons next pending =>
          have hsteps := h.steps
          rw [List.length_cons] at hsteps
          omega
  | succ fuel ih =>
      cases pending with
      | nil => exact h.not_reaches hid
      | cons next pending =>
          rw [search] at hfails
          split at hfails
          · cases hfails
          · next hne =>
              split at hfails
              · next hseen => exact ih (h.skip hseen) hfails (hid.skip hseen)
              · next hnew =>
                  exact ih (h.expand (Bool.eq_false_iff.mpr hnew) hne) hfails hid.expand

/-! ### Ancestry -/

/-- The links are those of the recorded commits. -/
theorem linkCount_eq : g.linkCount = ∑ id ∈ g.commits.keys.toFinset, (g.parents id).length := by
  have hlengths : g.commits.keys.map (fun id => (g.parents id).length) =
      g.commits.values.map List.length := by
    rw [SortedMap.keys, SortedMap.values, List.map_map, List.map_map]
    refine List.map_congr_left fun e he => ?_
    rw [Function.comp_apply, Function.comp_apply, parents, SortedMap.mem_entries_iff.mp he,
      Option.getD_some]
  rw [List.sum_toFinset _ (SortedMap.nodup_keys _), hlengths, linkCount, List.sum, List.foldr_map]

/-- The search begins at one commit, with all recorded ones left. -/
theorem searching_start (g : MemoryGraph) (target start : ObjectId) :
    Searching g target .empty [start] g.commits.keys.toFinset (g.linkCount + 1) where
  target_new := rfl
  closed _ hid := by cases hid
  left_of_new _ hid _ := List.mem_toFinset.mpr (SortedMap.mem_keys_iff.mpr hid)
  steps := by rw [linkCount_eq, List.length_singleton, Nat.add_comm]

/-- One commit is an ancestor of another if it is recorded and can be reached over recorded
parents. -/
theorem isAncestor_iff {ancestor descendant : ObjectId} :
    g.isAncestor ancestor descendant = true ↔
      g.commits.contains ancestor = true ∧ ReflTransGen g.IsParent descendant ancestor := by
  rw [isAncestor, Bool.and_eq_true]
  refine and_congr_right fun _ => ⟨fun hfound => ?_, fun hpath => ?_⟩
  · obtain ⟨id, hid, hpath⟩ := exists_of_search hfound
    rwa [List.mem_singleton.mp hid] at hpath
  · by_contra hfails
    exact not_reaches_of_search (searching_start g ancestor descendant)
      (Bool.eq_false_iff.mpr hfails) (.inr (List.mem_singleton_self _)) hpath

/-- An ancestor of an ancestor is one itself. -/
theorem isAncestor_trans {a b c : ObjectId} (hab : g.isAncestor a b = true)
    (hbc : g.isAncestor b c = true) : g.isAncestor a c = true := by
  rw [isAncestor_iff] at hab hbc ⊢
  exact ⟨hab.1, hbc.2.trans hab.2⟩

/-- A commit that is recorded with its parents in a larger graph keeps its ancestors. -/
theorem isAncestor_mono
    (hgrows : ∀ id parents, g.commits.get? id = some parents →
      larger.commits.get? id = some parents)
    {ancestor descendant : ObjectId} (h : g.isAncestor ancestor descendant = true) :
    larger.isAncestor ancestor descendant = true := by
  rw [isAncestor_iff] at h ⊢
  obtain ⟨hrecorded, hpath⟩ := h
  obtain ⟨parents, hparents⟩ := SortedMap.contains_eq_true_iff.mp hrecorded
  refine ⟨SortedMap.contains_eq_true_iff.mpr ⟨_, hgrows _ _ hparents⟩, ?_⟩
  refine ReflTransGen.mono (fun id parent hparent => ?_) _ _ hpath
  rw [IsParent, MemoryGraph.parents] at hparent ⊢
  cases hid : g.commits.get? id with
  | none =>
      rw [hid] at hparent
      cases hparent
  | some recorded =>
      rw [hid] at hparent
      rwa [hgrows id recorded hid]

end MemoryGraph

end SignedRefs
