import SignedRefs.Proofs.History.Smallest

/-!
# A Leaf on the Last Change

The order of a history is found from the names alone, and a new change may have any name. It can
still be said where it stands if it builds on the last change: before that one was listed, the new
change was not ready, and afterwards nothing else is left. This holds even if some of the other
changes have gone.

## Main results

* `getLast?_of_sublist`: what is last in a list is last in any part of it that holds it.
* `descends_erase_iff`: a leaf may be left out.
* `getLast?_order_of_leaf`: a leaf on the last change is last.
-/

namespace SignedRefs

namespace History

open Relation

/-- What is last in a list without repetition is last in any part of it that holds it. -/
theorem getLast?_of_sublist {α : Type} {part whole : List α} {last : α}
    (hsub : part.Sublist whole) (hnodup : whole.Nodup) (hlast : whole.getLast? = some last)
    (hmem : last ∈ part) : part.getLast? = some last := by
  obtain ⟨front, rfl⟩ := List.getLast?_eq_some_iff.mp hlast
  obtain ⟨before, after, rfl, hbefore, hafter⟩ := List.sublist_append_iff.mp hsub
  have hnot : last ∉ front := fun h => by
    rw [List.nodup_append] at hnodup
    exact hnodup.2.2 last h last (by simp) rfl
  cases after with
  | nil =>
      rw [List.append_nil] at hmem
      exact absurd (hbefore.subset hmem) hnot
  | cons first after =>
      obtain ⟨rfl, rfl⟩ : first = last ∧ after = [] := by
        cases hafter with
        | cons _ hnil => cases hnil
        | cons_cons _ hnil => exact ⟨rfl, List.sublist_nil.mp hnil⟩
      simp

/-- What is kept last stands in the back part of a list if anything is kept there. -/
theorem mem_of_getLast?_filter {α : Type} {keep : α → Bool} {front back : List α} {last a : α}
    (h : ((front ++ back).filter keep).getLast? = some last) (ha : a ∈ back)
    (hkeep : keep a = true) : last ∈ back := by
  rw [List.filter_append, List.getLast?_append] at h
  cases hback : (back.filter keep).getLast? with
  | none =>
      have hmem : a ∈ back.filter keep := List.mem_filter.mpr ⟨ha, hkeep⟩
      rw [List.getLast?_eq_none_iff.mp hback] at hmem
      cases hmem
  | some b =>
      rw [hback] at h
      cases h
      exact List.mem_of_mem_filter (List.mem_of_getLast? hback)

variable {history larger : History} {root leaf last : ObjectId}

/-- If nothing builds on a change, it may be left out, and everything else still leads down to the
root. -/
theorem descends_erase_iff (hroot : leaf ≠ root) (hleaf : ∀ x, ¬larger.Links root x leaf)
    {x : ObjectId} :
    History.Descends (larger.erase leaf) root x ↔ larger.Descends root x ∧ x ≠ leaf := by
  constructor
  · intro h
    induction h using ReflTransGen.head_induction_on with
    | refl => exact ⟨.refl, hroot.symm⟩
    | @head y p hlink _ ih =>
        obtain ⟨hne, change, hchange, hparent⟩ := hlink
        have hy : y ≠ leaf := fun heq => by
          rw [heq, SortedMap.get?_erase_self] at hchange
          cases hchange
        rw [SortedMap.get?_erase_of_ne hy] at hchange
        exact ⟨.head ⟨hne, change, hchange, hparent⟩ ih.1, hy⟩
  · rintro ⟨h, hx⟩
    induction h using ReflTransGen.head_induction_on with
    | refl => exact .refl
    | @head y p hlink _ ih =>
        have hp : p ≠ leaf := fun heq => hleaf y (heq ▸ hlink)
        obtain ⟨hne, change, hchange, hparent⟩ := hlink
        exact .head ⟨hne, change, (SortedMap.get?_erase_of_ne hx).trans hchange, hparent⟩ (ih hp)

/-- If nothing builds on a change, but it builds on the one that was last, it is last. Of the other
changes some may have gone; without the leaf, the last of them is still the one that it builds on.
-/
theorem getLast?_order_of_leaf (hlast : (history.order root).getLast? = some last)
    (hlink : larger.Links root leaf last) (hdescends : larger.Descends root leaf)
    (hleaf : ∀ x, ¬larger.Links root x leaf)
    (hsame : ∀ x, larger.Descends root x → x ≠ leaf → history.get? x = larger.get? x) :
    (larger.order root).getLast? = some leaf := by
  classical
  have herase : ∀ x, History.Descends (larger.erase leaf) root x ↔
      larger.Descends root x ∧ x ≠ leaf := fun x => descends_erase_iff hlink.1 hleaf
  have hne : last ≠ leaf := fun heq => hleaf leaf (heq ▸ hlink)
  have hrest : (History.order (larger.erase leaf) root).getLast? = some last := by
    refine getLast?_of_sublist (order_sublist fun x hx => ?_) nodup_order hlast
      (mem_order_iff.mpr ((herase last).mpr ⟨hdescends.parent hlink, hne⟩))
    obtain ⟨hx, hne⟩ := (herase x).mp hx
    rw [hsame x hx hne, SortedMap.get?_erase_of_ne hne]
  rw [← order_filter fun x hx => (SortedMap.get?_erase_of_ne ((herase x).mp hx).2).symm] at hrest
  obtain ⟨before, after, hsplit⟩ := List.append_of_mem (mem_order_iff.mpr hdescends)
  have hnodup : (larger.order root).Nodup := nodup_order
  have hbefore : last ∈ before := mem_before_of_links hsplit hlink
  rw [hsplit, List.nodup_middle, List.nodup_cons, List.nodup_append] at hnodup
  obtain ⟨hnew, -, -, hdisjoint⟩ := hnodup
  -- What stands behind the leaf would be kept, and so the last change would be behind it as well.
  cases after with
  | nil => rw [hsplit, List.getLast?_concat]
  | cons first after =>
      have hfirst : History.Descends (larger.erase leaf) root first := by
        refine (herase first).mpr ⟨mem_order_iff.mp (by simp [hsplit]), fun heq => hnew ?_⟩
        simp [heq]
      rw [hsplit] at hrest
      have hbehind : last ∈ leaf :: first :: after :=
        mem_of_getLast?_filter hrest (by simp) (decide_eq_true hfirst)
      exact absurd rfl (hdisjoint last hbefore last ((List.mem_cons.mp hbehind).resolve_left hne))

end History

end SignedRefs
