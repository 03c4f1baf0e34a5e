import SignedRefs.Proofs.History.Ordering

/-!
# The Smallest Order

The changes of a history can be replayed in many orders; all that is asked of one is that no change
stands before the one that it builds on (`IsReplay`). `History.order` is the smallest of them, if
orders are compared name by name from the front. For the start of the list holds a smallest ready
change, any other order starts with some ready change as well, and behind it the same is true again
of what is ready then.

## Main results

* `release_le`: what is released is the smallest list that could be.
* `pairwise_siblings_order`: changes that build on the same one stand in the order of their names.
* `Connected.isReplay_order`, `Connected.order_le`: the order of a history is a replay, and the
  smallest one.
* `connected_of_keys`, `isReplay_of_idxOf`: how to check that a history is connected and that a list
  is a replay.
* `order_sublist`: the order of a larger history holds that of a smaller one.
-/

namespace SignedRefs

namespace History

open Relation

/-- A list of names comes before another one: at the first place where they differ it has the
smaller name. -/
abbrev Precedes (names others : List ObjectId) : Prop :=
  List.Lex (fun a b => compare a b = .lt) names others

/-! ### Releasing -/

section

variable {kids : SortedMap ObjectId (List ObjectId)} {left : Finset ObjectId}
  {ready : SortedSet ObjectId} {fuel : Nat}

/-- Changes that build on the same one are released in the order of their names: when one of them is
ready, the one that they build on is not left. -/
theorem pairwise_siblings_release (h : Ready kids left ready) (hone : OneParent kids)
    (hfuel : left.card ≤ fuel) :
    (release kids fuel ready).Pairwise fun a b =>
      ∀ parent, IsChild kids parent a → IsChild kids parent b → compare a b = .lt := by
  induction fuel generalizing left ready with
  | zero => exact .nil
  | succ fuel ih =>
      rw [release]
      cases hnext : ready.uncons? with
      | none => exact .nil
      | some pair =>
          obtain ⟨⟨next, _⟩, rest⟩ := pair
          have hafter := h.next hone hnext
          have hcard := h.card_erase_le hnext hfuel
          have hready := (SortedMap.contains_of_uncons? hnext).mpr (.inl rfl)
          have hparent : ∀ parent ∈ left, ¬IsChild kids parent next := fun parent hp hc => by
            rw [h.fresh parent hp next hc] at hready
            cases hready
          refine List.pairwise_cons.mpr ⟨fun b hb parent hnextc hbc => ?_, ih hafter hcard⟩
          obtain ⟨first, hfirst, hpath⟩ := (mem_release_iff hafter hone hcard).mp hb
          rcases ReflTransGen.cases_tail hpath with rfl | ⟨q, hpath, hq⟩
          · rcases contains_next_iff.mp hfirst with hrest | hc
            · exact SortedMap.compare_of_uncons? hnext hrest
            · obtain rfl := hone _ _ _ hbc hc
              exact absurd hnextc (hparent _ (h.subset _ hready))
          · -- What stands between is left, and so is the one that `b` builds on.
            obtain rfl := hone _ _ _ hbc hq
            have hleft := mem_left_of_mem_release hafter hone
              ((mem_release_iff hafter hone hcard).mpr ⟨first, hfirst, hpath⟩)
            exact absurd hnextc (hparent _ (Finset.mem_of_mem_erase hleft))

/-- A list goes on from some ready changes: each one in it is ready, or stands behind the one that
it builds on. -/
def GoesOn (kids : SortedMap ObjectId (List ObjectId)) (ready : SortedSet ObjectId)
    (names : List ObjectId) : Prop :=
  ∀ before id after, names = before ++ id :: after →
    ready.contains id = true ∨ ∃ parent ∈ before, IsChild kids parent id

/-- The first change of a list that goes on from ready ones is ready. -/
theorem GoesOn.head {first : ObjectId} {names : List ObjectId}
    (h : GoesOn kids ready (first :: names)) : ready.contains first = true := by
  rcases h [] first names rfl with hready | ⟨parent, hnil, -⟩
  · exact hready
  · cases hnil

/-- What stands behind the first ready change goes on from what is ready then. -/
theorem GoesOn.next {rest : SortedSet ObjectId} {next : ObjectId} {names : List ObjectId}
    (h : GoesOn kids ready (next :: names)) (hnew : next ∉ names)
    (hnext : ready.uncons? = some ((next, ()), rest)) :
    GoesOn kids (rest.merge (SortedSet.ofList ((kids.get? next).getD []))) names := by
  intro before id after hsplit
  rw [contains_next_iff]
  rcases h (next :: before) id after (congrArg _ hsplit) with hready | ⟨parent, hparent, hc⟩
  · rcases (SortedMap.contains_of_uncons? hnext).mp hready with rfl | hrest
    · exact absurd (by simp [hsplit]) hnew
    · exact .inl (.inl hrest)
  · rcases List.mem_cons.mp hparent with rfl | hparent
    · exact .inl (.inr hc)
    · exact .inr ⟨parent, hparent, hc⟩

/-- No list of the same changes that goes on from what is ready comes before the list of what is
released. -/
theorem release_le (h : Ready kids left ready) (hone : OneParent kids) (hfuel : left.card ≤ fuel)
    {other : List ObjectId} (hperm : other.Perm (release kids fuel ready))
    (hother : GoesOn kids ready other) :
    release kids fuel ready = other ∨ Precedes (release kids fuel ready) other := by
  induction fuel generalizing left ready other with
  | zero => exact .inl hperm.eq_nil.symm
  | succ fuel ih =>
      have hnodup : other.Nodup :=
        hperm.nodup_iff.mpr ((pairwise_release h hone).imp And.left)
      rw [release] at hperm ⊢
      cases hnext : ready.uncons? with
      | none =>
          rw [hnext] at hperm
          exact .inl hperm.eq_nil.symm
      | some pair =>
          obtain ⟨⟨next, _⟩, rest⟩ := pair
          rw [hnext] at hperm
          dsimp only at hperm ⊢
          cases other with
          | nil => cases hperm.symm.eq_nil
          | cons first other =>
              -- The other list starts with a ready change, too: the smallest one or a larger one.
              rcases (SortedMap.contains_of_uncons? hnext).mp hother.head with rfl | hrest
              · have hnew := (List.nodup_cons.mp hnodup).1
                rcases ih (h.next hone hnext) (h.card_erase_le hnext hfuel) hperm.cons_inv
                  (hother.next hnew hnext) with heq | hlt
                · exact .inl (congrArg _ heq)
                · exact .inr (.cons hlt)
              · exact .inr (.rel (SortedMap.compare_of_uncons? hnext hrest))

end

/-! ### The order of a history -/

/-- A history holds the changes connected to its root, and no other ones. -/
structure Connected (history : History) (root : ObjectId) : Prop where
  /-- The root is one of them. -/
  contains : history.contains root = true
  /-- The way down from each change ends at the root. -/
  descends : ∀ id, history.contains id = true → history.Descends root id

/-- An order in which a history can be replayed: every change stands in it once, and none before the
one that it builds on. -/
structure IsReplay (history : History) (root : ObjectId) (order : List ObjectId) : Prop where
  /-- No change stands in it twice. -/
  nodup : order.Nodup
  /-- It holds the changes of the history. -/
  mem_iff : ∀ id, id ∈ order ↔ history.contains id = true
  /-- Every change stands behind the one that it builds on. -/
  behind : ∀ before id after, order = before ++ id :: after →
    ∀ parent, history.Links root id parent → parent ∈ before

variable {history larger : History} {root : ObjectId}

/-- In a connected history exactly the members descend from the root. -/
theorem Connected.descends_iff (h : history.Connected root) {id : ObjectId} :
    history.Descends root id ↔ history.contains id = true :=
  ⟨fun hid => hid.contains h.contains, h.descends id⟩

/-- Changes that build on the same one stand in the order of their names. -/
theorem pairwise_siblings_order : (history.order root).Pairwise fun a b =>
    ∀ parent, history.Links root a parent → history.Links root b parent → compare a b = .lt := by
  refine (pairwise_siblings_release ready_start oneParent_children card_start_le).imp ?_
  intro a b hlt parent ha hb
  exact hlt parent (isChild_children_iff.mpr ha) (isChild_children_iff.mpr hb)

/-- The order of a history is a replay. -/
theorem Connected.isReplay_order (h : history.Connected root) :
    history.IsReplay root (history.order root) where
  nodup := nodup_order
  mem_iff _ := mem_order_iff.trans h.descends_iff
  behind _ _ _ hsplit _ := mem_before_of_links hsplit

/-- No other replay comes before the order of a history. -/
theorem Connected.order_le (h : history.Connected root) {other : List ObjectId}
    (hother : history.IsReplay root other) :
    history.order root = other ∨ Precedes (history.order root) other := by
  refine release_le ready_start oneParent_children card_start_le ?_ fun before id after hsplit => ?_
  · exact (List.perm_ext_iff_of_nodup hother.nodup h.isReplay_order.nodup).mpr fun id =>
      (hother.mem_iff id).trans (h.isReplay_order.mem_iff id).symm
  · have hid : history.contains id = true := (hother.mem_iff id).mp (by simp [hsplit])
    rcases History.descends_iff.mp (h.descends id hid) with rfl | ⟨parent, hparent, -⟩
    · exact .inl (contains_start_iff.mpr rfl)
    · exact .inr ⟨parent, hother.behind before id after hsplit parent hparent,
        isChild_children_iff.mpr hparent⟩

/-- It can be checked by listing a history whether it is connected. -/
theorem connected_of_keys (hroot : history.contains root = true)
    (h : ∀ id ∈ history.keys, id ∈ history.order root) : history.Connected root :=
  ⟨hroot, fun id hid => mem_order_iff.mp (h id (SortedMap.mem_keys_iff.mpr hid))⟩

/-- It can be checked by the positions of the names whether a list is a replay. -/
theorem isReplay_of_idxOf {order : List ObjectId} (hperm : order.Perm history.keys)
    (hbehind : ∀ e ∈ history.entries, e.1 = root ∨
      ∀ parent ∈ e.2.parent, order.idxOf parent < order.idxOf e.1) :
    history.IsReplay root order where
  nodup := hperm.nodup_iff.mpr (SortedMap.nodup_keys history)
  mem_iff id := by rw [hperm.mem_iff, SortedMap.mem_keys_iff]
  behind := by
    rintro before id after hsplit parent ⟨hne, change, hchange, hparent⟩
    have hlt : order.idxOf parent < order.idxOf id :=
      (hbehind _ (SortedMap.mem_entries_iff.mpr hchange)).resolve_left hne parent hparent
    have hid : order.idxOf id ≤ before.length := by
      rw [hsplit, List.idxOf_append]
      split
      · exact List.idxOf_le_length
      · simp
    by_contra hnew
    rw [hsplit, List.idxOf_append_of_notMem hnew, ← hsplit] at hlt
    omega

/-- A history that holds another one lists the changes of it in the same order. -/
theorem order_sublist (hsame : ∀ id, history.Descends root id →
    larger.get? id = history.get? id) : (history.order root).Sublist (larger.order root) := by
  classical
  rw [← order_filter hsame]
  exact List.filter_sublist

end History

end SignedRefs
