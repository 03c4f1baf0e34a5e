import SignedRefs.Proofs.Entries
import SignedRefs.Proofs.Fallible
import SignedRefs.Sync.Fetch
import SignedRefs.Tracking.PolicyFile

/-!
# What Tracking Decides

Three questions overlap when a fetch asks for the identities that it may touch: whether an identity
is tracked, whether it is blocked, and whether it was untracked. The first two exclude each other,
as a policy has one scope. An identity that was untracked has no policy at all, but only because
every decision sees to it: this is the invariant of the registries that decisions lead to
(`Registry.Reached`).

## Main results

* `Registry.Reached.policy?_of_untracked`: an untracked identity has no policy.
* `Registry.contains_candidates_iff`: which identities a fetch asks for.
-/

namespace SignedRefs

namespace Registry

variable {r : Registry} {id : PeerId}

/-! ### Registries that decisions lead to -/

/-- Decisions lead to a registry, from the empty one or from a policy file. -/
inductive Reached : Registry → Prop
  /-- There is no decision yet. -/
  | empty : Reached .empty
  /-- A policy file is read. -/
  | load {text : Option String} {r : Registry} (h : load text = .ok r) : Reached r
  /-- An identity is tracked. -/
  | track {r : Registry} (h : Reached r) (id : PeerId) (name : Option Alias) (scope : Scope) :
    Reached (r.track id name scope)
  /-- An identity is untracked. -/
  | untrack {r : Registry} (h : Reached r) (id : PeerId) : Reached (r.untrack id)

/-- An identity that is no longer tracked loses its policy. -/
theorem policies_untrack : (r.untrack id).policies = r.policies.erase id := rfl

/-- Taking an alias from its holder makes no policy. -/
theorem get?_policiesAfterTaking {policies : SortedMap PeerId Policy} {holder : Option PeerId}
    {other : PeerId} (h : policies.get? other = none) :
    (policiesAfterTaking policies id holder).get? other = none := by
  cases holder with
  | none => exact h
  | some holder =>
      rw [policiesAfterTaking]
      split
      · exact h
      · split
        · next policy hpolicy =>
            rw [SortedMap.get?_insert_of_ne _ _, h]
            rintro rfl
            rw [h] at hpolicy
            cases hpolicy
        · exact h

/-- An identity that was untracked has no policy. -/
theorem Reached.policy?_of_untracked (h : r.Reached) (hid : r.isUntracked id = true) :
    r.policy? id = none := by
  induction h with
  | empty => cases hid
  | @load text r hload =>
      cases text with
      | none => cases hload
      | some text =>
          rw [Registry.load] at hload
          split at hload
          · cases hload
          · next file _ =>
              cases hload
              obtain ⟨_, hkept⟩ := SortedMap.contains_eq_true_iff.mp hid
              simp only [ofPolicyFile, SortedMap.get?_filter, Option.filter_eq_some_iff,
                Bool.not_eq_true'] at hkept
              exact Option.not_isSome_iff_eq_none.mp (Bool.not_eq_true _ ▸ hkept.2)
  | @track r _ id' name scope ih =>
      obtain ⟨_, hkept⟩ := SortedMap.contains_eq_true_iff.mp hid
      simp only [Registry.track, SortedMap.get?_erase, Std.LawfulEqOrd.compare_eq_iff_eq] at hkept
      split at hkept
      · cases hkept
      · next hne =>
          have hbefore := ih (SortedMap.contains_eq_true_iff.mpr ⟨_, hkept⟩)
          refine (SortedMap.get?_insert_of_ne _ (Ne.symm hne) _).trans ?_
          exact get?_policiesAfterTaking hbefore
  | @untrack r _ id' ih =>
      rw [policy?, policies_untrack, SortedMap.get?_erase]
      split
      · rfl
      · next hne =>
          rcases SortedMap.contains_insert.mp hid with rfl | hbefore
          · exact absurd (Std.LawfulEqOrd.compare_eq_iff_eq.mpr rfl) hne
          · exact ih hbefore

/-! ### Candidates -/

/-- The list of tracked identities has those that are tracked. -/
theorem mem_tracked_iff : id ∈ r.tracked ↔ r.isTracked id = true := by
  simp only [tracked, List.mem_map, List.mem_filter, isTracked, policy?]
  constructor
  · rintro ⟨⟨_, policy⟩, ⟨hmem, hscope⟩, rfl⟩
    rw [SortedMap.mem_entries_iff.mp hmem]
    exact hscope
  · intro h
    cases hpolicy : r.policies.get? id with
    | none =>
        rw [hpolicy] at h
        cases h
    | some policy =>
        rw [hpolicy] at h
        exact ⟨(id, policy), ⟨SortedMap.mem_entries_iff.mpr hpolicy, h⟩, rfl⟩

/-- A blocked identity is not tracked. -/
theorem isTracked_of_blocked (h : r.isBlocked id = true) : r.isTracked id = false := by
  rw [isBlocked] at h
  rw [isTracked]
  split at h
  · next policy _ =>
      rw [beq_iff_eq] at h
      simp only [h]
      rfl
  · cases h

/-- An untracked identity is not tracked. -/
theorem Reached.isTracked_of_untracked (h : r.Reached) (hid : r.isUntracked id = true) :
    r.isTracked id = false := by
  rw [isTracked, h.policy?_of_untracked hid]

/-- A list without the local identity has the others. -/
theorem contains_erase_ofList {l : List PeerId} {self : PeerId} :
    ((SortedSet.ofList l).erase self).contains id = true ↔ id ≠ self ∧ id ∈ l := by
  rw [← SortedSet.contains_ofList, SortedMap.contains]
  by_cases h : id = self
  · rw [h, SortedMap.get?_erase_self]
    simp
  · rw [SortedMap.get?_erase_of_ne h]
    exact (and_iff_right h).symm

/-- A fetch asks for the identities that are tracked and, if its scope is `all`, for those listed
that are neither blocked nor untracked. It never asks for the local one, and with scope `none` for
nobody. -/
theorem contains_candidates_iff {scope : Scope} {self : PeerId} {listed : List PeerId} :
    (r.candidates scope self listed).contains id = true ↔ id ≠ self ∧
      (scope ≠ .none ∧ r.isTracked id = true ∨
        scope = .all ∧ id ∈ listed ∧ r.isBlocked id = false ∧ r.isUntracked id = false) := by
  cases scope with
  | none => simp [candidates]
  | trusted => simp [candidates, contains_erase_ofList, mem_tracked_iff]
  | all =>
      simp only [candidates, contains_erase_ofList, List.mem_append, mem_tracked_iff,
        List.mem_filter, admits, Bool.and_eq_true, Bool.not_eq_true']
      simp [and_comm]

end Registry

end SignedRefs
