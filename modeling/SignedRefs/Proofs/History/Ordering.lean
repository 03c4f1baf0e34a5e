import Mathlib.Data.Finset.Card
import Mathlib.Data.Finset.Dedup
import SignedRefs.Proofs.History.Descent

/-!
# The Order of a History

`History.release` keeps a set of changes that are ready, lists the smallest one and makes its
children ready. What it still has to list is always a finite set of names that is closed under
children and holds no parent of a ready change (`Ready`); every step takes one name out of it. From
that follow the contents of the list, that nothing stands twice in it, and that nobody stands before
its parent.

A history that grows keeps its order: the changes that were there stand in it as before, because the
new ones never make an old one ready (`Grows`).

## Main results

* `mem_release_iff`, `pairwise_release`: what is listed, once, parents first.
* `release_filter`: what the growing of a history does to its order.
* `mem_order_iff`, `nodup_order`, `order_eq_cons`, `mem_before_of_links`: the same for the order of
  a history.
* `order_filter`: a larger history lists the changes of a smaller one in the same order.
-/

namespace SignedRefs

namespace History

open Relation

/-! ### Children -/

/-- Among the children, `id` is one of `parent`. -/
def IsChild (kids : SortedMap ObjectId (List ObjectId)) (parent id : ObjectId) : Prop :=
  id ∈ (kids.get? parent).getD []

/-- Notes a change among the children of its parent. -/
private def note (root : ObjectId) (entry : ObjectId × Change)
    (kids : SortedMap ObjectId (List ObjectId)) : SortedMap ObjectId (List ObjectId) :=
  match entry.2.parent with
  | some parent =>
    if entry.1 = root then kids else kids.insert parent (entry.1 :: (kids.get? parent).getD [])
  | none => kids

/-- Noting an entry adds the child that it is, if it is not the root, to those of its parent. -/
private theorem isChild_note {root parent id : ObjectId} {entry : ObjectId × Change}
    {kids : SortedMap ObjectId (List ObjectId)} :
    IsChild (note root entry kids) parent id ↔
      IsChild kids parent id ∨ (id ≠ root ∧ id = entry.1 ∧ entry.2.parent = some parent) := by
  obtain ⟨name, change⟩ := entry
  rw [note]
  cases hp : change.parent with
  | none => simp
  | some p =>
      by_cases hroot : name = root
      · simp only [hroot, if_true]
        exact ⟨.inl, fun h => h.resolve_right fun h => h.1 h.2.1⟩
      · simp only [hroot, if_false, IsChild]
        by_cases hpar : parent = p
        · subst hpar
          rw [SortedMap.get?_insert_self, Option.getD_some, List.mem_cons, or_comm]
          exact or_congr_right ⟨fun h => ⟨h ▸ hroot, h, rfl⟩, fun h => h.2.1⟩
        · rw [SortedMap.get?_insert_of_ne _ hpar]
          exact ⟨.inl, fun h => h.resolve_right fun h => hpar (Option.some.inj h.2.2).symm⟩

/-- Noting all entries leaves exactly the children that they are of their parents. -/
private theorem isChild_foldr {root parent id : ObjectId} (entries : List (ObjectId × Change)) :
    IsChild (entries.foldr (note root) .empty) parent id ↔
      id ≠ root ∧ ∃ change, (id, change) ∈ entries ∧ change.parent = some parent := by
  induction entries with
  | nil => simp [IsChild]
  | cons entry entries ih =>
      rw [List.foldr_cons, isChild_note, ih]
      constructor
      · rintro (⟨hne, c, hmem, hc⟩ | ⟨hne, rfl, hc⟩)
        · exact ⟨hne, c, List.mem_cons_of_mem _ hmem, hc⟩
        · exact ⟨hne, entry.2, List.mem_cons_self, hc⟩
      · rintro ⟨hne, c, hmem, hc⟩
        rcases List.mem_cons.mp hmem with rfl | hmem
        · exact .inr ⟨hne, rfl, hc⟩
        · exact .inl ⟨hne, c, hmem, hc⟩

/-- The children of a change are those that build on it. -/
theorem isChild_children_iff {history : History} {root parent id : ObjectId} :
    IsChild (history.children root) parent id ↔ history.Links root id parent := by
  have hfold : history.children root = history.entries.foldr (note root) .empty := rfl
  rw [hfold, isChild_foldr]
  simp only [SortedMap.mem_entries_iff]
  rfl

/-! ### Releasing -/

variable {kids : SortedMap ObjectId (List ObjectId)}

/-- What still has to be listed when some changes are ready: it holds them and all children of what
it holds, and no ready change is a child of any of it. -/
structure Ready (kids : SortedMap ObjectId (List ObjectId)) (left : Finset ObjectId)
    (ready : SortedSet ObjectId) : Prop where
  /-- The ready changes have not been listed. -/
  subset : ∀ id, ready.contains id = true → id ∈ left
  /-- Neither have the children of what has not been listed. -/
  closed : ∀ parent ∈ left, ∀ id, IsChild kids parent id → id ∈ left
  /-- A change is ready only when its parent has been listed. -/
  fresh : ∀ parent ∈ left, ∀ id, IsChild kids parent id → ready.contains id = false

/-- No change has two parents. -/
def OneParent (kids : SortedMap ObjectId (List ObjectId)) : Prop :=
  ∀ p q id, IsChild kids p id → IsChild kids q id → p = q

/-- What is ready after the first ready change has been listed. -/
theorem contains_next_iff {rest : SortedSet ObjectId} {next id : ObjectId} :
    (rest.merge (SortedSet.ofList ((kids.get? next).getD []))).contains id = true ↔
      rest.contains id = true ∨ IsChild kids next id := by
  rw [SortedMap.contains_merge, SortedSet.contains_ofList]
  rfl

/-- Listing the first ready change takes one name out of what is left: it is ready, so it is no
child of anything left. -/
theorem Ready.next {left : Finset ObjectId} {ready rest : SortedSet ObjectId} {next : ObjectId}
    (h : Ready kids left ready) (hone : OneParent kids)
    (hnext : ready.uncons? = some ((next, ()), rest)) :
    Ready kids (left.erase next) (rest.merge (SortedSet.ofList ((kids.get? next).getD []))) := by
  have hready : ready.contains next = true := (SortedMap.contains_of_uncons? hnext).mpr (.inl rfl)
  have hleft : next ∈ left := h.subset next hready
  have hchild : ∀ parent ∈ left, ¬IsChild kids parent next := fun parent hp hc => by
    rw [h.fresh parent hp next hc] at hready
    cases hready
  refine ⟨fun id hid => ?_, fun parent hp id hc => ?_, fun parent hp id hc => ?_⟩
  · rcases contains_next_iff.mp hid with hrest | hc
    · refine Finset.mem_erase.mpr ⟨?_, h.subset id <|
        (SortedMap.contains_of_uncons? hnext).mpr (.inr hrest)⟩
      rintro rfl
      rw [SortedMap.not_contains_rest_of_uncons? hnext] at hrest
      cases hrest
    · refine Finset.mem_erase.mpr ⟨?_, h.closed next hleft id hc⟩
      rintro rfl
      exact hchild _ hleft hc
  · have hparent := Finset.mem_of_mem_erase hp
    refine Finset.mem_erase.mpr ⟨?_, h.closed parent hparent id hc⟩
    rintro rfl
    exact hchild parent hparent hc
  · obtain ⟨hne, hparent⟩ := Finset.mem_erase.mp hp
    refine Bool.eq_false_iff.mpr fun hid => ?_
    rcases contains_next_iff.mp hid with hrest | hc'
    · have hready := (SortedMap.contains_of_uncons? hnext).mpr (.inr hrest)
      rw [h.fresh parent hparent id hc] at hready
      cases hready
    · exact hne (hone _ _ _ hc hc')

/-- What is listed: the ready changes and all that build on them. -/
theorem mem_release_iff {fuel : Nat} {left : Finset ObjectId} {ready : SortedSet ObjectId}
    (h : Ready kids left ready) (hone : OneParent kids) (hfuel : left.card ≤ fuel)
    {id : ObjectId} :
    id ∈ release kids fuel ready ↔
      ∃ first, ready.contains first = true ∧ ReflTransGen (IsChild kids) first id := by
  induction fuel generalizing left ready with
  | zero =>
      obtain rfl : left = ∅ := Finset.card_eq_zero.mp (Nat.le_zero.mp hfuel)
      constructor
      · intro hid
        cases hid
      · rintro ⟨first, hfirst, -⟩
        cases h.subset first hfirst
  | succ fuel ih =>
      rw [release]
      cases hnext : ready.uncons? with
      | none =>
          obtain rfl := SortedMap.uncons?_eq_none_iff.mp hnext
          simp
      | some pair =>
          obtain ⟨⟨next, _⟩, rest⟩ := pair
          have hleft : next ∈ left :=
            h.subset next ((SortedMap.contains_of_uncons? hnext).mpr (.inl rfl))
          have hcard : (left.erase next).card ≤ fuel := by
            rw [Finset.card_erase_of_mem hleft]
            omega
          simp only [List.mem_cons, ih (h.next hone hnext) hcard, contains_next_iff,
            SortedMap.contains_of_uncons? hnext]
          constructor
          · rintro (rfl | ⟨first, hrest | hc, hpath⟩)
            · exact ⟨_, .inl rfl, .refl⟩
            · exact ⟨first, .inr hrest, hpath⟩
            · exact ⟨next, .inl rfl, .head hc hpath⟩
          · rintro ⟨first, rfl | hrest, hpath⟩
            · rcases ReflTransGen.cases_head hpath with rfl | ⟨second, hc, hpath⟩
              · exact .inl rfl
              · exact .inr ⟨second, .inr hc, hpath⟩
            · exact .inr ⟨first, .inl hrest, hpath⟩

/-- Only what is left is listed. -/
theorem mem_left_of_mem_release {fuel : Nat} {left : Finset ObjectId}
    {ready : SortedSet ObjectId} (h : Ready kids left ready) (hone : OneParent kids)
    {id : ObjectId} (hid : id ∈ release kids fuel ready) : id ∈ left := by
  induction fuel generalizing left ready with
  | zero => cases hid
  | succ fuel ih =>
      rw [release] at hid
      cases hnext : ready.uncons? with
      | none =>
          rw [hnext] at hid
          cases hid
      | some pair =>
          obtain ⟨⟨next, _⟩, rest⟩ := pair
          rw [hnext] at hid
          rcases List.mem_cons.mp hid with rfl | hid
          · exact h.subset _ ((SortedMap.contains_of_uncons? hnext).mpr (.inl rfl))
          · exact Finset.mem_of_mem_erase (ih (h.next hone hnext) hid)

/-- Nothing is listed twice, and nothing is listed before a change that it builds on. -/
theorem pairwise_release {fuel : Nat} {left : Finset ObjectId} {ready : SortedSet ObjectId}
    (h : Ready kids left ready) (hone : OneParent kids) :
    (release kids fuel ready).Pairwise fun a b => a ≠ b ∧ ¬IsChild kids b a := by
  induction fuel generalizing left ready with
  | zero => exact .nil
  | succ fuel ih =>
      rw [release]
      cases hnext : ready.uncons? with
      | none => exact .nil
      | some pair =>
          obtain ⟨⟨next, _⟩, rest⟩ := pair
          have hready := (SortedMap.contains_of_uncons? hnext).mpr (.inl rfl)
          refine List.pairwise_cons.mpr ⟨fun b hb => ?_, ih (h.next hone hnext)⟩
          obtain ⟨hne, hb⟩ :=
            Finset.mem_erase.mp (mem_left_of_mem_release (h.next hone hnext) hone hb)
          refine ⟨hne.symm, fun hc => ?_⟩
          rw [h.fresh b hb next hc] at hready
          cases hready

/-! ### Growing -/

/-- The second children are the first ones and others below them: what is old has its old children,
and what is new has new ones only. -/
structure Grows (old : ObjectId → Prop) (kids₁ kids₂ : SortedMap ObjectId (List ObjectId)) :
    Prop where
  /-- The old children of an old change. -/
  of_old : ∀ parent id, old parent → (IsChild kids₁ parent id ↔ IsChild kids₂ parent id ∧ old id)
  /-- A new change has no old children. -/
  of_new : ∀ parent id, ¬old parent → IsChild kids₂ parent id → ¬old id

/-- Nothing is listed when nothing is ready. -/
theorem release_eq_nil {fuel : Nat} {ready : SortedSet ObjectId}
    (h : ∀ id, ready.contains id = false) : release kids fuel ready = [] := by
  cases fuel with
  | zero => rfl
  | succ fuel =>
      rw [release]
      cases hnext : ready.uncons? with
      | none => rfl
      | some pair =>
          have hfirst := (SortedMap.contains_of_uncons? hnext).mpr (.inl rfl)
          rw [h] at hfirst
          cases hfirst

/-- The first member of a set comes first in every part of the set that holds it. -/
theorem uncons?_of_subset {part whole rest : SortedSet ObjectId} {next : ObjectId}
    (hsub : ∀ id, part.contains id = true → whole.contains id = true)
    (hnext : whole.uncons? = some ((next, ()), rest)) (hmem : part.contains next = true) :
    ∃ rest', part.uncons? = some ((next, ()), rest') := by
  cases hu : part.uncons? with
  | none =>
      obtain rfl := SortedMap.uncons?_eq_none_iff.mp hu
      cases hmem
  | some pair =>
      obtain ⟨⟨first, _⟩, rest'⟩ := pair
      have hfirst := hsub first ((SortedMap.contains_of_uncons? hu).mpr (.inl rfl))
      rcases (SortedMap.contains_of_uncons? hnext).mp hfirst with rfl | hbehind
      · exact ⟨rest', rfl⟩
      · rcases (SortedMap.contains_of_uncons? hu).mp hmem with rfl | hbehind'
        · exact ⟨rest', rfl⟩
        · have hlt := Std.TransCmp.lt_trans (SortedMap.compare_of_uncons? hnext hbehind)
            (SortedMap.compare_of_uncons? hu hbehind')
          simp at hlt

/-- When the next change is listed, one fewer is left, so one step fewer is enough. -/
theorem Ready.card_erase_le {left : Finset ObjectId} {ready rest : SortedSet ObjectId}
    {next : ObjectId} {fuel : Nat} (h : Ready kids left ready)
    (hnext : ready.uncons? = some ((next, ()), rest)) (hfuel : left.card ≤ fuel + 1) :
    (left.erase next).card ≤ fuel := by
  have hleft := h.subset next ((SortedMap.contains_of_uncons? hnext).mpr (.inl rfl))
  rw [Finset.card_erase_of_mem hleft]
  omega

/-- New changes do not disturb the order of the old ones. -/
theorem release_filter {old : ObjectId → Prop} [DecidablePred old]
    {kids₁ kids₂ : SortedMap ObjectId (List ObjectId)} (hgrow : Grows old kids₁ kids₂)
    (hone₁ : OneParent kids₁) (hone₂ : OneParent kids₂) {fuel₁ fuel₂ : Nat}
    {left₁ left₂ : Finset ObjectId} {ready₁ ready₂ : SortedSet ObjectId}
    (h₁ : Ready kids₁ left₁ ready₁) (h₂ : Ready kids₂ left₂ ready₂) (hfuel₁ : left₁.card ≤ fuel₁)
    (hfuel₂ : left₂.card ≤ fuel₂)
    (hready : ∀ id, ready₁.contains id = true ↔ ready₂.contains id = true ∧ old id) :
    (release kids₂ fuel₂ ready₂).filter (fun id => decide (old id)) =
      release kids₁ fuel₁ ready₁ := by
  induction fuel₂ generalizing fuel₁ left₁ left₂ ready₁ ready₂ with
  | zero =>
      obtain rfl : left₂ = ∅ := Finset.card_eq_zero.mp (Nat.le_zero.mp hfuel₂)
      refine (release_eq_nil fun id => Bool.eq_false_iff.mpr fun hid => ?_).symm
      cases h₂.subset id ((hready id).mp hid).1
  | succ fuel₂ ih =>
      rw [release]
      cases hnext : ready₂.uncons? with
      | none =>
          obtain rfl := SortedMap.uncons?_eq_none_iff.mp hnext
          refine (release_eq_nil fun id => Bool.eq_false_iff.mpr fun hid => ?_).symm
          cases ((hready id).mp hid).1
      | some pair =>
          obtain ⟨⟨next, _⟩, rest⟩ := pair
          have hmem : ∀ id, ready₂.contains id = true ↔ id = next ∨ rest.contains id = true :=
            fun id => SortedMap.contains_of_uncons? hnext
          by_cases hold : old next
          · -- An old change is next in both, as it is the smallest of all that are ready.
            have hfirst : ready₁.contains next = true :=
              (hready next).mpr ⟨(hmem next).mpr (.inl rfl), hold⟩
            obtain ⟨rest₁, hnext₁⟩ :=
              uncons?_of_subset (fun id hid => ((hready id).mp hid).1) hnext hfirst
            obtain ⟨fuel₁, rfl⟩ : ∃ n, fuel₁ = n + 1 := by
              have hpos := Finset.card_pos.mpr ⟨next, h₁.subset next hfirst⟩
              exact ⟨fuel₁ - 1, by omega⟩
            rw [release, hnext₁]
            simp only [List.filter_cons, hold, decide_true, if_true]
            rw [ih (h₁.next hone₁ hnext₁) (h₂.next hone₂ hnext) (h₁.card_erase_le hnext₁ hfuel₁)
              (h₂.card_erase_le hnext hfuel₂)]
            intro id
            rw [contains_next_iff, contains_next_iff, hgrow.of_old next id hold, or_and_right]
            refine or_congr_left ?_
            have hin := hready id
            rw [SortedMap.contains_of_uncons? hnext₁, hmem id] at hin
            by_cases heq : id = next
            · subst heq
              simp [SortedMap.not_contains_rest_of_uncons? hnext₁,
                SortedMap.not_contains_rest_of_uncons? hnext]
            · simpa only [heq, false_or] using hin
          · -- A new change is put aside; what it makes ready is new as well.
            simp only [List.filter_cons, hold, decide_false]
            refine ih h₁ (h₂.next hone₂ hnext) hfuel₁ (h₂.card_erase_le hnext hfuel₂) fun id => ?_
            rw [hready id, contains_next_iff, hmem id]
            constructor
            · rintro ⟨rfl | hin, hid⟩
              · exact absurd hid hold
              · exact ⟨.inl hin, hid⟩
            · rintro ⟨hin | hc, hid⟩
              · exact ⟨.inr hin, hid⟩
              · exact absurd hid (hgrow.of_new next id hold hc)

/-! ### The order of a history -/

variable {history : History} {root : ObjectId}

/-- Among the children of a history no change has two parents. -/
theorem oneParent_children : OneParent (history.children root) := fun _ _ _ hp hq =>
  (isChild_children_iff.mp hp).unique (isChild_children_iff.mp hq)

/-- At the start nothing but the root is ready. -/
theorem contains_start_iff {id : ObjectId} :
    (SortedSet.ofList [root]).contains id = true ↔ id = root := by
  rw [SortedSet.contains_ofList, List.mem_singleton]

/-- At the start the root and all changes are left, and the root is ready. -/
theorem ready_start :
    Ready (history.children root) (insert root history.keys.toFinset)
      (SortedSet.ofList [root]) := by
  refine ⟨fun id hid => ?_, fun parent _ id hc => ?_, fun parent _ id hc => ?_⟩
  · rw [contains_start_iff.mp hid]
    exact Finset.mem_insert_self _ _
  · have hin := (isChild_children_iff.mp hc).contains
    exact Finset.mem_insert_of_mem (List.mem_toFinset.mpr (SortedMap.mem_keys_iff.mpr hin))
  · refine Bool.eq_false_iff.mpr fun hid => ?_
    exact (isChild_children_iff.mp hc).1 (contains_start_iff.mp hid)

/-- At the start there is a step for the root and one for each change. -/
theorem card_start_le : (insert root history.keys.toFinset).card ≤ history.size + 1 := by
  refine (Finset.card_insert_le _ _).trans (Nat.add_le_add_right ?_ 1)
  rw [SortedMap.size_eq_length_keys]
  exact List.toFinset_card_le _

/-- From child to child one comes as far as the links go back. -/
private theorem reflTransGen_isChild_iff {first id : ObjectId} :
    ReflTransGen (IsChild (history.children root)) first id ↔
      ReflTransGen (history.Links root) id first := by
  rw [← reflTransGen_swap]
  have heq : (Function.swap (IsChild (history.children root))) = history.Links root := by
    funext a b
    exact propext isChild_children_iff
  rw [heq]

/-- The changes that are listed are those that descend from the root. -/
theorem mem_order_iff {id : ObjectId} : id ∈ history.order root ↔ history.Descends root id := by
  rw [order, mem_release_iff ready_start oneParent_children card_start_le]
  simp only [contains_start_iff, exists_eq_left, reflTransGen_isChild_iff]
  rfl

/-- No change stands twice in the order, and none before the one that it builds on. -/
theorem pairwise_order :
    (history.order root).Pairwise fun a b => a ≠ b ∧ ¬history.Links root a b := by
  refine (pairwise_release ready_start oneParent_children).imp fun ⟨hne, hc⟩ => ?_
  exact ⟨hne, fun hlink => hc (isChild_children_iff.mpr hlink)⟩

/-- A change stands behind the one that it builds on. -/
theorem mem_before_of_links {before after : List ObjectId} {id p : ObjectId}
    (hsplit : history.order root = before ++ id :: after) (hp : history.Links root id p) :
    p ∈ before := by
  have hid : history.Descends root id := mem_order_iff.mp (by simp [hsplit])
  have hmem := mem_order_iff.mpr (hid.parent hp)
  have hordered : (history.order root).Pairwise fun a b => a ≠ b ∧ ¬history.Links root a b :=
    pairwise_order
  rw [hsplit] at hmem hordered
  rcases List.mem_append.mp hmem with hin | hin
  · exact hin
  · rcases List.mem_cons.mp hin with rfl | hin
    · exact absurd (.single hp) hid.not_transGen_self
    · exact absurd hp ((List.pairwise_cons.mp (List.pairwise_append.mp hordered).2.1).1 p hin).2

/-- No change is listed twice. -/
theorem nodup_order : (history.order root).Nodup := pairwise_order.imp And.left

/-- The root comes first. -/
theorem order_eq_cons : history.order root = root :: (history.order root).tail := by
  rw [order, release]
  cases hnext : (SortedSet.ofList [root]).uncons? with
  | none =>
      have hroot : (SortedSet.ofList [root]).contains root = true := contains_start_iff.mpr rfl
      rw [SortedMap.uncons?_eq_none_iff.mp hnext] at hroot
      cases hroot
  | some pair =>
      obtain ⟨⟨first, _⟩, rest⟩ := pair
      obtain rfl := contains_start_iff.mp ((SortedMap.contains_of_uncons? hnext).mpr (.inl rfl))
      rfl

/-- Behind the root stand the other changes that descend from it. -/
theorem mem_tail_order_iff {id : ObjectId} :
    id ∈ (history.order root).tail ↔ id ≠ root ∧ history.Descends root id := by
  have hnodup : (history.order root).Nodup := nodup_order
  rw [order_eq_cons, List.nodup_cons] at hnodup
  rw [← mem_order_iff, order_eq_cons, List.tail_cons, List.mem_cons]
  constructor
  · intro hid
    exact ⟨fun heq => hnodup.1 (heq ▸ hid), .inr hid⟩
  · rintro ⟨hne, heq | hid⟩
    · exact absurd heq hne
    · exact hid

/-- A change of a larger history links as in the smaller one if it descends from the root there. -/
theorem links_iff_of_same {larger : History}
    (hsame : ∀ id, history.Descends root id → larger.get? id = history.get? id) {id p : ObjectId}
    (hid : history.Descends root id) : larger.Links root id p ↔ history.Links root id p := by
  rw [Links, Links, hsame id hid]

/-- A larger history has the old children of the smaller one and others below them. -/
theorem grows_of_same {larger : History}
    (hsame : ∀ id, history.Descends root id → larger.get? id = history.get? id) :
    Grows (history.Descends root) (history.children root) (larger.children root) := by
  constructor
  · intro parent id hparent
    rw [isChild_children_iff, isChild_children_iff]
    constructor
    · intro hlink
      have hid : history.Descends root id := .head hlink hparent
      exact ⟨(links_iff_of_same hsame hid).mpr hlink, hid⟩
    · rintro ⟨hlink, hid⟩
      exact (links_iff_of_same hsame hid).mp hlink
  · intro parent id hparent hc hid
    have hlink := (links_iff_of_same hsame hid).mp (isChild_children_iff.mp hc)
    exact hparent (hid.parent hlink)

open Classical in
/-- A larger history lists the changes of a smaller one in the same order, if what descends from
the root in the smaller one is the same in both. -/
theorem order_filter {larger : History}
    (hsame : ∀ id, history.Descends root id → larger.get? id = history.get? id) :
    (larger.order root).filter (fun id => decide (history.Descends root id)) =
      history.order root := by
  refine release_filter (grows_of_same hsame) oneParent_children oneParent_children ready_start
    ready_start card_start_le card_start_le fun id => ?_
  rw [contains_start_iff]
  constructor
  · rintro rfl
    exact ⟨rfl, .refl⟩
  · exact And.left

end History

end SignedRefs
