import Mathlib.Data.List.Perm.Subperm
import Mathlib.Logic.Relation
import SignedRefs.Patch.History
import SignedRefs.Proofs.Entries

/-!
# Descent in a History

Every change but the root builds on one parent, so from each change there is one way down. A change
that descends from the root reaches it along that way; nothing stands twice on it, so in a history
of `n` changes it has fewer than `n` steps. That is why counting at most as many ancestors as there
may be changes leaves none out.

## Main results

* `Links.unique`: there is one way down.
* `Descends.exists_path`: the way from a change to the root, without repetition.
* `mem_ancestors_iff`: the listed ancestors are all changes on the way down.
-/

namespace SignedRefs

namespace History

open Relation

/-- The change under `id`, other than the root, builds on `parent`. -/
def Links (history : History) (root id parent : ObjectId) : Prop :=
  id ≠ root ∧ ∃ change, history.get? id = some change ∧ change.parent = some parent

/-- The way down from `id` ends at the root. -/
def Descends (history : History) (root id : ObjectId) : Prop :=
  ReflTransGen (history.Links root) id root

variable {history : History} {root : ObjectId}

/-- A change builds on one parent only. -/
theorem Links.unique {id p q : ObjectId} (hp : history.Links root id p)
    (hq : history.Links root id q) : p = q := by
  obtain ⟨-, c, hc, hcp⟩ := hp
  obtain ⟨-, d, hd, hdq⟩ := hq
  rw [hc] at hd
  cases hd
  rw [hcp] at hdq
  exact Option.some.inj hdq

/-- The root has no parent in a history. -/
theorem not_links_root {p : ObjectId} : ¬history.Links root root p := fun h => h.1 rfl

/-- What builds on something is in the history. -/
theorem Links.contains {id p : ObjectId} (h : history.Links root id p) :
    history.contains id = true := by
  obtain ⟨-, c, hc, -⟩ := h
  exact SortedMap.contains_eq_true_iff.mpr ⟨c, hc⟩

/-- What is strictly below a change is at or below its parent. -/
theorem transGen_links_iff {id p a : ObjectId} (h : history.Links root id p) :
    TransGen (history.Links root) id a ↔ a = p ∨ TransGen (history.Links root) p a := by
  rw [TransGen.head'_iff]
  constructor
  · rintro ⟨q, hq, hqa⟩
    obtain rfl := h.unique hq
    rcases ReflTransGen.cases_head hqa with rfl | ⟨b, hb, hba⟩
    · exact .inl rfl
    · exact .inr (TransGen.head' hb hba)
  · rintro (rfl | hpa)
    · exact ⟨_, h, .refl⟩
    · exact ⟨p, h, hpa.to_reflTransGen⟩

/-- No way leads on from the root. -/
theorem not_transGen_links_root {a : ObjectId} : ¬TransGen (history.Links root) root a := by
  intro h
  obtain ⟨b, hb, -⟩ := TransGen.head'_iff.mp h
  exact not_links_root hb

/-- A change that descends from the root is the root, or its parent descends from it. -/
theorem descends_iff {id : ObjectId} :
    history.Descends root id ↔
      id = root ∨ ∃ p, history.Links root id p ∧ history.Descends root p := by
  constructor
  · intro h
    exact ReflTransGen.cases_head h
  · rintro (rfl | ⟨p, hp, hd⟩)
    · exact .refl
    · exact .head hp hd

/-- The parent of what descends from the root descends from it too. -/
theorem Descends.parent {id p : ObjectId} (h : history.Descends root id)
    (hp : history.Links root id p) : history.Descends root p := by
  rcases descends_iff.mp h with rfl | ⟨q, hq, hd⟩
  · exact absurd hp not_links_root
  · exact hp.unique hq ▸ hd

/-- Everything above what descends from the root descends from it. -/
theorem Descends.ancestor {id a : ObjectId} (h : history.Descends root id)
    (ha : TransGen (history.Links root) id a) : history.Descends root a := by
  induction ha with
  | single hp => exact h.parent hp
  | tail _ hp ih => exact ih.parent hp

/-- What descends from a member is a member. -/
theorem Descends.contains {id : ObjectId} (h : history.Descends root id)
    (hroot : history.contains root = true) : history.contains id = true := by
  rcases descends_iff.mp h with rfl | ⟨p, hp, -⟩
  · exact hroot
  · exact hp.contains

/-! ### The way down -/

/-- What `ancestors` lists for a change with a parent. -/
theorem ancestors_succ_of_links {id p : ObjectId} (h : history.Links root id p) (count : Nat) :
    history.ancestors (count + 1) id = p :: history.ancestors count p := by
  obtain ⟨-, c, hc, hcp⟩ := h
  simp only [ancestors, hc, Option.bind_some, hcp]

/-- Nothing is listed for a change without a parent. -/
theorem ancestors_of_no_parent {id : ObjectId}
    (h : ∀ change, history.get? id = some change → change.parent = none) (count : Nat) :
    history.ancestors count id = [] := by
  cases count with
  | zero => rfl
  | succ count =>
      rw [ancestors]
      cases hc : history.get? id with
      | none => rfl
      | some change => simp only [Option.bind_some, h change hc]

/-- The way from a change down to the root: no name stands on it twice, it holds all that is below
the change, and it is what `ancestors` lists as soon as enough may be listed. Along the way up from
the root each step puts one name in front. -/
theorem Descends.exists_path {id : ObjectId} (h : history.Descends root id)
    (hroot : ∀ change, history.get? root = some change → change.parent = none) :
    ∃ path : List ObjectId,
      (∀ count, path.length ≤ count → history.ancestors count id = path) ∧
      (∀ a, a ∈ path ↔ TransGen (history.Links root) id a) ∧ (id :: path).Nodup := by
  induction h using ReflTransGen.head_induction_on with
  | refl =>
      refine ⟨[], fun count _ => ancestors_of_no_parent hroot count, fun a => ?_, by simp⟩
      simp [not_transGen_links_root]
  | @head id p hp _ ih =>
      obtain ⟨path, hlist, hmem, hnodup⟩ := ih
      have hmem' : ∀ a, a ∈ p :: path ↔ TransGen (history.Links root) id a := fun a => by
        rw [List.mem_cons, hmem, transGen_links_iff hp]
      refine ⟨p :: path, fun count hle => ?_, hmem', List.nodup_cons.mpr ⟨fun hid => ?_, hnodup⟩⟩
      · obtain ⟨n, rfl⟩ : ∃ n, count = n + 1 := ⟨count - 1, by rw [List.length_cons] at hle; omega⟩
        rw [ancestors_succ_of_links hp, hlist n (by rw [List.length_cons] at hle; omega)]
      · -- Were `id` on its own way down, its parent would be on its own way down too.
        have hpp : p ∈ path := by
          rcases (transGen_links_iff hp).mp ((hmem' id).mp hid) with rfl | hpid
          · exact (hmem id).mpr (.single hp)
          · exact (hmem p).mpr (hpid.tail hp)
        exact (List.nodup_cons.mp hnodup).1 hpp

/-- No change that descends from the root is below itself. -/
theorem Descends.not_transGen_self {id : ObjectId} (h : history.Descends root id) :
    ¬TransGen (history.Links root) id id := by
  induction h using ReflTransGen.head_induction_on with
  | refl => exact not_transGen_links_root
  | @head id p hp _ ih =>
      intro hself
      rcases (transGen_links_iff hp).mp hself with rfl | hpid
      · exact ih (.single hp)
      · exact ih (hpid.tail hp)

/-- In a history with no more than `count` changes, the listed ancestors are all of them. -/
theorem mem_ancestors_iff {id a : ObjectId} {count : Nat} (h : history.Descends root id)
    (hopen : history.contains root = true)
    (hroot : ∀ change, history.get? root = some change → change.parent = none)
    (hsize : history.size ≤ count) :
    a ∈ history.ancestors count id ↔ TransGen (history.Links root) id a := by
  obtain ⟨path, hlist, hmem, hnodup⟩ := h.exists_path hroot
  have hsub : id :: path ⊆ history.keys := by
    intro b hb
    rw [SortedMap.mem_keys_iff]
    rcases List.mem_cons.mp hb with rfl | hb
    · exact h.contains hopen
    · exact (h.ancestor ((hmem b).mp hb)).contains hopen
  have hlen : (id :: path).length ≤ history.keys.length := (hnodup.subperm hsub).length_le
  rw [← SortedMap.size_eq_length_keys, List.length_cons] at hlen
  rw [hlist count (by omega), hmem]

end History

end SignedRefs
