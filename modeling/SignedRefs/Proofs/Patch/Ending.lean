import SignedRefs.Patch.Settlement
import SignedRefs.Proofs.History.Ordering

/-!
# The Deciding Event

`Ending.settle` picks the earliest event that counts, the first one if several are equally early. In
the list of all of them the deciding event is the one that everything before it is later than and
nothing behind it is earlier than (`Decides`). This says what may happen when events are taken out
of the list: the deciding one still decides if it is left.

## Main results

* `at?_eq_some_merged_iff`, `at?_eq_some_closed_iff`: which events count.
* `earliest?_eq_some_iff`: the event found is the one that decides.
* `settle_eq_none_iff`, `settle_eq_closed_iff`, `settle_eq_merged_iff`: how a patch ends.
* `exists_split_of_last`: where the last merge that counts stands.
* `settle_of_later`: what comes in addition does not change how a patch ended.
-/

namespace SignedRefs

namespace Ending

/-- The change at which an event stands. -/
def change : Ending → ObjectId
  | .merged revision => revision
  | .closed change => change

/-- Whether an event is a merge. -/
def isMerge : Ending → Bool
  | .merged _ => true
  | .closed _ => false

/-! ### Which events count -/

section

variable {events : Events} {id : ObjectId}

/-- A merged revision counts unless it builds on an honoured close. -/
theorem at?_eq_some_merged_iff {revision : ObjectId} :
    at? events id = some (.merged revision) ↔
      revision = id ∧ events.merged.contains id = true ∧
        ∀ a ∈ events.history.ancestors History.maxChanges id, events.closes.contains a = false := by
  rw [at?]
  cases hm : events.merged.contains id with
  | true =>
      cases hc : (events.history.ancestors History.maxChanges id).any events.closes.contains with
      | true =>
          obtain ⟨a, ha, hca⟩ := List.any_eq_true.mp hc
          simp only [if_true, reduceCtorEq, false_iff]
          rintro ⟨-, -, hnone⟩
          rw [hnone a ha] at hca
          cases hca
      | false =>
          rw [List.any_eq_false] at hc
          simp only [if_true, Bool.false_eq_true, if_false, Option.some.injEq, merged.injEq,
            true_and]
          exact ⟨fun h => ⟨h.symm, fun a ha => Bool.eq_false_iff.mpr (hc a ha)⟩,
            fun h => h.1.symm⟩
  | false =>
      simp only [Bool.false_eq_true, if_false, false_and, and_false, iff_false]
      split
      · split <;> simp
      · simp

/-- An honoured close counts unless it builds on a merged revision or on another honoured close. -/
theorem at?_eq_some_closed_iff {close : ObjectId} :
    at? events id = some (.closed close) ↔
      close = id ∧ events.merged.contains id = false ∧ events.closes.contains id = true ∧
        ∀ a ∈ events.history.ancestors History.maxChanges id,
          events.closes.contains a = false ∧ events.merged.contains a = false := by
  rw [at?]
  cases hm : events.merged.contains id with
  | true =>
      simp only [if_true, Bool.true_eq_false, false_and, and_false, iff_false]
      split <;> simp
  | false =>
      cases hc : events.closes.contains id with
      | false => simp
      | true =>
          simp only [Bool.false_eq_true, if_false, if_true, true_and]
          constructor
          · intro h
            split at h
            · cases h
            · next hany =>
                cases h
                simp only [Bool.or_eq_true, List.any_eq_true, not_or, not_exists, not_and,
                  Bool.not_eq_true] at hany
                exact ⟨rfl, fun a ha => ⟨hany.1 a ha, hany.2 a ha⟩⟩
          · rintro ⟨rfl, hnone⟩
            rw [if_neg]
            simp only [Bool.or_eq_true, List.any_eq_true, not_or, not_exists, not_and,
              Bool.not_eq_true]
            exact ⟨fun a ha => (hnone a ha).1, fun a ha => (hnone a ha).2⟩

/-- An event stands at its change. -/
theorem change_of_at? {event : Ending} (h : at? events id = some event) : event.change = id := by
  cases event with
  | merged revision => exact (at?_eq_some_merged_iff.mp h).1
  | closed close => exact (at?_eq_some_closed_iff.mp h).1

/-- Only merged revisions and honoured closes are events. -/
theorem contains_of_at? {event : Ending} (h : at? events id = some event) :
    events.merged.contains id = true ∨ events.closes.contains id = true := by
  cases event with
  | merged revision => exact .inl (at?_eq_some_merged_iff.mp h).2.1
  | closed close => exact .inr (at?_eq_some_closed_iff.mp h).2.2.1

/-- Nothing that builds on an honoured close is an event that counts. -/
theorem at?_of_closed_ancestor {a : ObjectId}
    (ha : a ∈ events.history.ancestors History.maxChanges id)
    (hclosed : events.closes.contains a = true) : at? events id = none := by
  cases h : at? events id with
  | none => rfl
  | some event =>
      cases event with
      | merged revision =>
          rw [(at?_eq_some_merged_iff.mp h).2.2 a ha] at hclosed
          cases hclosed
      | closed close =>
          rw [((at?_eq_some_closed_iff.mp h).2.2.2 a ha).1] at hclosed
          cases hclosed

/-- Only merges count among what builds on a merged revision. -/
theorem isMerge_of_merged_ancestor {a : ObjectId} {event : Ending}
    (ha : a ∈ events.history.ancestors History.maxChanges id)
    (hmerged : events.merged.contains a = true) (h : at? events id = some event) :
    event.isMerge = true := by
  cases event with
  | merged revision => rfl
  | closed close =>
      rw [((at?_eq_some_closed_iff.mp h).2.2.2 a ha).2] at hmerged
      cases hmerged

/-- Where two readings agree about a change and its ancestors, they agree about its event. -/
theorem at?_congr {events' : Events}
    (hmem : ∀ a, a ∈ events.history.ancestors History.maxChanges id ↔
      a ∈ events'.history.ancestors History.maxChanges id)
    (hsame : ∀ a, a = id ∨ a ∈ events.history.ancestors History.maxChanges id →
      events.closes.contains a = events'.closes.contains a ∧
        events.merged.contains a = events'.merged.contains a) :
    at? events id = at? events' id := by
  have hany : ∀ p q : ObjectId → Bool,
      (∀ a ∈ events.history.ancestors History.maxChanges id, p a = q a) →
      (events.history.ancestors History.maxChanges id).any p =
        (events'.history.ancestors History.maxChanges id).any q := by
    intro p q hpq
    rw [Bool.eq_iff_iff, List.any_eq_true, List.any_eq_true]
    refine exists_congr fun a => ?_
    rw [← hmem]
    exact and_congr_right fun ha => by rw [hpq a ha]
  simp only [at?, (hsame id (.inl rfl)).1, (hsame id (.inl rfl)).2,
    hany _ _ fun a ha => (hsame a (.inr ha)).1, hany _ _ fun a ha => (hsame a (.inr ha)).2]

end

/-! ### The earliest event -/

/-- All that comes before an event in a list is later, and nothing behind it is earlier. -/
def Decides (stamps : List (Int64 × Ending)) (stamp : Int64 × Ending) : Prop :=
  ∃ before after, stamps = before ++ stamp :: after ∧
    (∀ s ∈ before, stamp.1 < s.1) ∧ ∀ s ∈ after, stamp.1 ≤ s.1

section

variable {stamps : List (Int64 × Ending)} {s t : Int64 × Ending}

/-- No two events decide: whichever stands behind the other would be both strictly earlier and not
earlier than it. -/
theorem Decides.unique (hs : Decides stamps s) (ht : Decides stamps t) : s = t := by
  obtain ⟨before, after, rfl, hbefore, hafter⟩ := hs
  obtain ⟨before', after', heq, hbefore', hafter'⟩ := ht
  rcases List.append_eq_append_iff.mp heq with ⟨middle, rfl, hmiddle⟩ | ⟨middle, rfl, hmiddle⟩
  · cases middle with
    | nil => exact (List.cons.inj hmiddle).1
    | cons first middle =>
        obtain ⟨rfl, rfl⟩ := List.cons.inj hmiddle
        have hlt := hbefore' s (by simp)
        have hle := hafter t (by simp)
        exact absurd hlt (Std.not_lt.mpr hle)
  · cases middle with
    | nil => exact (List.cons.inj hmiddle).1.symm
    | cons first middle =>
        obtain ⟨rfl, rfl⟩ := List.cons.inj hmiddle
        have hlt := hbefore t (by simp)
        have hle := hafter' s (by simp)
        exact absurd hlt (Std.not_lt.mpr hle)

/-- The event found by comparing one after the other decides. When the first event is out, what
decides is not later than the next one. -/
theorem decides_foldl (first : Int64 × Ending) (rest : List (Int64 × Ending)) :
    Decides (first :: rest) (rest.foldl earlier first) := by
  induction rest generalizing first with
  | nil => exact ⟨[], [], rfl, by simp, by simp⟩
  | cons next rest ih =>
      rw [List.foldl_cons]
      obtain ⟨before, after, heq, hbefore, hafter⟩ := ih (earlier first next)
      generalize rest.foldl earlier (earlier first next) = found at heq hbefore hafter
      rw [earlier] at heq
      split at heq
      · next hlt =>
          refine ⟨first :: before, after, by rw [heq, List.cons_append], fun s hs => ?_, hafter⟩
          rcases List.mem_cons.mp hs with rfl | hs
          · cases before with
            | nil =>
                obtain ⟨rfl, -⟩ := List.cons.inj heq
                exact hlt
            | cons b before =>
                obtain ⟨rfl, -⟩ := List.cons.inj heq
                exact Std.lt_trans (hbefore _ List.mem_cons_self) hlt
          · exact hbefore s hs
      · next hle =>
          rw [Std.not_lt] at hle
          cases before with
          | nil =>
              obtain ⟨rfl, rfl⟩ := List.cons.inj heq
              refine ⟨[], next :: rest, rfl, by simp, fun s hs => ?_⟩
              rcases List.mem_cons.mp hs with rfl | hs
              · exact hle
              · exact hafter s hs
          | cons b before =>
              obtain ⟨rfl, rfl⟩ := List.cons.inj heq
              refine ⟨first :: next :: before, after, rfl, fun s hs => ?_, hafter⟩
              have hfirst := hbefore first List.mem_cons_self
              rcases List.mem_cons.mp hs with rfl | hs
              · exact hfirst
              · rcases List.mem_cons.mp hs with rfl | hs
                · exact Std.lt_of_lt_of_le hfirst hle
                · exact hbefore s (List.mem_cons_of_mem _ hs)

/-- What is found is the event that decides. -/
theorem earliest?_eq_some_iff {event : Ending} :
    earliest? stamps = some event ↔ ∃ time, Decides stamps (time, event) := by
  cases stamps with
  | nil => simp [earliest?, Decides]
  | cons first rest =>
      have hfound := decides_foldl first rest
      rw [earliest?, Option.some.injEq]
      constructor
      · rintro rfl
        exact ⟨_, hfound⟩
      · rintro ⟨time, htime⟩
        rw [hfound.unique htime]

/-- Something is the earliest unless there is nothing. -/
theorem earliest?_eq_none_iff : earliest? stamps = none ↔ stamps = [] := by
  cases stamps <;> simp [earliest?]

/-- An event that decides is one of the list. -/
theorem Decides.mem (h : Decides stamps s) : s ∈ stamps := by
  obtain ⟨before, after, rfl, -, -⟩ := h
  simp

/-- Nothing is earlier than what decides. -/
theorem Decides.le (h : Decides stamps s) : ∀ t ∈ stamps, s.1 ≤ t.1 := by
  obtain ⟨before, after, rfl, hbefore, hafter⟩ := h
  intro t ht
  rcases List.mem_append.mp ht with ht | ht
  · exact Std.le_of_lt (hbefore t ht)
  · rcases List.mem_cons.mp ht with rfl | ht
    · exact Std.le_refl _
    · exact hafter t ht

/-- What decides still does so when others are taken out. -/
theorem Decides.filter {keep : Int64 × Ending → Bool} (h : Decides stamps s)
    (hkeep : keep s = true) : Decides (stamps.filter keep) s := by
  obtain ⟨before, after, rfl, hbefore, hafter⟩ := h
  refine ⟨before.filter keep, after.filter keep, ?_, fun t ht => ?_, fun t ht => ?_⟩
  · rw [List.filter_append, List.filter_cons_of_pos hkeep]
  · exact hbefore t (List.mem_of_mem_filter ht)
  · exact hafter t (List.mem_of_mem_filter ht)

end

/-! ### Settling -/

/-- The event at a change with the time of the change, if there is one that counts. -/
def stamp? (events : Events) (id : ObjectId) : Option (Int64 × Ending) := do
  let event ← at? events id
  let change ← events.history.get? id
  return (change.timestamp, event)

section

variable {events : Events} {order : List ObjectId}

/-- What survives are the stamps along the order. -/
theorem surviving_eq : surviving events order = order.filterMap (stamp? events) := rfl

/-- A change has a stamp exactly if an event that counts stands at it, with the time of the change.
-/
theorem stamp?_eq_some_iff {id : ObjectId} {time : Int64} {event : Ending} :
    stamp? events id = some (time, event) ↔
      at? events id = some event ∧
        ∃ change, events.history.get? id = some change ∧ change.timestamp = time := by
  simp only [stamp?, Option.bind_eq_bind, Option.bind_eq_some_iff, Option.pure_def,
    Option.some.injEq, Prod.mk.injEq]
  constructor
  · rintro ⟨e, he, c, hc, ht, rfl⟩
    exact ⟨he, c, hc, ht⟩
  · rintro ⟨he, c, hc, ht⟩
    exact ⟨event, he, c, hc, ht, rfl⟩

/-- The events that count, where they stand. -/
theorem mem_surviving_iff {time : Int64} {event : Ending} :
    (time, event) ∈ surviving events order ↔
      event.change ∈ order ∧ at? events event.change = some event ∧
        ∃ change, events.history.get? event.change = some change ∧ change.timestamp = time := by
  rw [surviving_eq, List.mem_filterMap]
  constructor
  · rintro ⟨id, hid, hstamp⟩
    obtain ⟨he, hc⟩ := stamp?_eq_some_iff.mp hstamp
    obtain rfl := change_of_at? he
    exact ⟨hid, he, hc⟩
  · rintro ⟨hid, he, hc⟩
    exact ⟨_, hid, stamp?_eq_some_iff.mpr ⟨he, hc⟩⟩

/-- A patch stays open exactly if no event counts. -/
theorem settle_eq_none_iff : settle events order = none ↔ surviving events order = [] := by
  rw [← earliest?_eq_none_iff, settle]
  cases hfirst : earliest? (surviving events order) with
  | none => simp
  | some event =>
      cases event with
      | closed close => simp
      | merged revision =>
          obtain ⟨time, hdecides⟩ := earliest?_eq_some_iff.mp hfirst
          have hmem : revision ∈ (surviving events order).filterMap fun s => s.2.revision? :=
            List.mem_filterMap.mpr ⟨_, hdecides.mem, rfl⟩
          simp only [Option.map_eq_none_iff, List.getLast?_eq_none_iff, reduceCtorEq, iff_false]
          exact List.ne_nil_of_mem hmem

/-- A close ends a patch exactly if it is the event that decides. -/
theorem settle_eq_closed_iff {close : ObjectId} :
    settle events order = some (.closed close) ↔
      ∃ time, Decides (surviving events order) (time, .closed close) := by
  rw [← earliest?_eq_some_iff, settle]
  cases earliest? (surviving events order) with
  | none => simp
  | some event =>
      cases event with
      | closed other => simp
      | merged revision =>
          simp only [Option.some.injEq, reduceCtorEq, Option.map_eq_some_iff, and_false,
            exists_false]

/-- A merge ends a patch exactly if the event that decides is one, and it resolves to the last
merge that counts. -/
theorem settle_eq_merged_iff {revision : ObjectId} :
    settle events order = some (.merged revision) ↔
      (∃ time first, Decides (surviving events order) (time, .merged first)) ∧
        ((surviving events order).filterMap fun s => s.2.revision?).getLast? = some revision := by
  rw [settle]
  cases hfirst : earliest? (surviving events order) with
  | none =>
      simp only [reduceCtorEq, false_iff, not_and]
      rintro ⟨time, first, hdecides⟩
      rw [earliest?_eq_some_iff.mpr ⟨time, hdecides⟩] at hfirst
      cases hfirst
  | some event =>
      obtain ⟨time, hdecides⟩ := earliest?_eq_some_iff.mp hfirst
      cases event with
      | closed close =>
          simp only [Option.some.injEq, reduceCtorEq, false_iff, not_and]
          rintro ⟨time', first, hdecides'⟩
          cases hdecides.unique hdecides'
      | merged first =>
          simp only [Option.map_eq_some_iff, merged.injEq, exists_eq_right]
          exact (and_iff_right ⟨time, first, hdecides⟩).symm

/-- The last merge that counts stands at a change behind which no other one does. -/
theorem exists_split_of_last {revision : ObjectId}
    (h : ((surviving events order).filterMap fun s => s.2.revision?).getLast? = some revision) :
    ∃ before after, order = before ++ revision :: after ∧
      (∃ time, stamp? events revision = some (time, .merged revision)) ∧
        ∀ x ∈ after, ∀ time, stamp? events x ≠ some (time, .merged x) := by
  rw [surviving_eq, List.filterMap_filterMap, List.getLast?_filterMap,
    List.findSome?_eq_some_iff] at h
  obtain ⟨after, x, before, hsplit, hx, hafter⟩ := h
  rw [List.reverse_eq_append_iff, List.reverse_cons, List.append_assoc] at hsplit
  obtain ⟨⟨time, event⟩, hstamp, hrevision⟩ := Option.bind_eq_some_iff.mp hx
  cases event with
  | closed close => cases hrevision
  | merged found =>
      cases hrevision
      obtain rfl : revision = x := change_of_at? (stamp?_eq_some_iff.mp hstamp).1
      refine ⟨before.reverse, after.reverse, hsplit, ⟨time, hstamp⟩, fun y hy time hstamp' => ?_⟩
      have hnone := hafter y (List.mem_reverse.mp hy)
      rw [hstamp'] at hnone
      cases hnone

/-- What ends a patch other than by a close is a merge. -/
theorem exists_merged_iff {ending : Option Ending} :
    (∃ revision, ending = some (.merged revision)) ↔
      ending ≠ none ∧ ∀ close, ending ≠ some (.closed close) := by
  cases ending with
  | none => simp
  | some event => cases event <;> simp

/-- What a merge resolves to is a merged revision that counts. -/
theorem mem_of_settle_merged {revision : ObjectId}
    (h : settle events order = some (.merged revision)) :
    ∃ time, (time, .merged revision) ∈ surviving events order := by
  obtain ⟨-, hlast⟩ := settle_eq_merged_iff.mp h
  obtain ⟨before, after, hsplit, ⟨time, hstamp⟩, -⟩ := exists_split_of_last hlast
  rw [surviving_eq]
  exact ⟨time, List.mem_filterMap.mpr ⟨revision, by simp [hsplit], hstamp⟩⟩

end

/-! ### More events -/

section

variable {events events' : Events} {order order' : List ObjectId} {old : ObjectId → Prop}
  [DecidablePred old]

/-- Two readings that agree about the old changes have the same events among these. -/
theorem filter_surviving (horder : order'.filter (fun id => decide (old id)) = order)
    (hsame : ∀ id ∈ order, stamp? events' id = stamp? events id) :
    (surviving events' order').filter (fun s => decide (old s.2.change)) =
      surviving events order := by
  rw [surviving_eq, surviving_eq, ← List.filterMap_congr hsame]
  subst horder
  clear hsame
  induction order' with
  | nil => rfl
  | cons id order' ih =>
      have hchange : ∀ s, stamp? events' id = some s → s.2.change = id := by
        rintro ⟨time, event⟩ hs
        exact change_of_at? (stamp?_eq_some_iff.mp hs).1
      rw [List.filterMap_cons, List.filter_cons]
      cases hs : stamp? events' id with
      | none =>
          rw [ih]
          split
          · rw [List.filterMap_cons, hs]
          · rfl
      | some s =>
          simp only [List.filter_cons, hchange s hs, ih]
          split
          · rw [List.filterMap_cons, hs]
          · rfl

/-- Events that come in addition to the old ones leave open what is open and closed what is closed,
if there are none but merges in addition to a merge. -/
theorem settle_of_later
    (hold : (surviving events' order').filter (fun s => decide (old s.2.change)) =
      surviving events order)
    (hlate : ∀ s ∈ surviving events' order', ¬old s.2.change →
      (∃ revision, settle events order = some (.merged revision)) ∧ s.2.isMerge = true) :
    (settle events' order' = none ↔ settle events order = none) ∧
      ∀ close, settle events' order' = some (.closed close) ↔
        settle events order = some (.closed close) := by
  have hequal : (∀ revision, settle events order ≠ some (.merged revision)) →
      surviving events' order' = surviving events order := by
    intro hnot
    rw [← hold]
    refine (List.filter_eq_self.mpr fun s hs => decide_eq_true ?_).symm
    by_contra hnew
    obtain ⟨⟨revision, hmerged⟩, -⟩ := hlate s hs hnew
    exact hnot revision hmerged
  constructor
  · rw [settle_eq_none_iff, settle_eq_none_iff]
    constructor
    · intro hnone
      rw [← hold, hnone, List.filter_nil]
    · intro hnone
      rw [hequal fun revision hmerged => ?_, hnone]
      rw [settle_eq_none_iff.mpr hnone] at hmerged
      cases hmerged
  · intro close
    rw [settle_eq_closed_iff, settle_eq_closed_iff]
    constructor
    · rintro ⟨time, hdecides⟩
      refine ⟨time, hold ▸ hdecides.filter (decide_eq_true ?_)⟩
      by_contra hnew
      cases (hlate _ hdecides.mem hnew).2
    · intro hdecides
      rwa [hequal fun revision hmerged => ?_]
      rw [settle_eq_closed_iff.mpr hdecides] at hmerged
      cases hmerged

end

end Ending

end SignedRefs
