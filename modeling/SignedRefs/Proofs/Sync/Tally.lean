import Mathlib.Logic.Function.Basic
import SignedRefs.Proofs.Sync.Serving

/-!
# Fetches Side by Side

Several fetches write to one store, and what one of them applies is what the next one is compared
with. The outcomes of all of them are kept in a tally together with what was on offer
(`Store.Tally`): in every place the newest of what was on offer there and of what was there in the
beginning is held, and what was applied had a higher number than anything held before. So the same
number is never applied twice, and nothing is applied at all if nothing newer was on offer.

The tally does not depend on the order in which the outcomes come in. One more outcome keeps it,
whichever fetch it belongs to.

## Main results

* `Store.Tally.record`: one more outcome keeps the tally.
* `Store.Tally.unchanged_of_newest`: where nothing newer was on offer, nothing is applied.
-/

namespace SignedRefs

/-- In one of several fetches a manifest with a number was applied for an identity. -/
def Applied (outcomes : Nat → SortedMap PeerId Outcome) (i : Nat) (id : PeerId)
    (sequence : UInt64) : Prop :=
  ∃ updates, (outcomes i).get? id = some (.applied sequence updates)

/-- What the outcomes of several fetches, to each of which something was on offer, have made of a
store. -/
structure Store.Tally (start : Store) (repo : RepoId)
    (offered : Nat → PeerId → SignedManifest → Prop)
    (outcomes : Nat → SortedMap PeerId Outcome) (store : Store) : Prop where
  /-- The newest of what was on offer and of what was there in the beginning is held. -/
  newest : ∀ id before, start.held repo id = .ok before →
    ∃ latest, store.held repo id = .ok latest ∧
      Newest before (fun m => ∃ i, (outcomes i).contains id = true ∧ offered i id m) latest
  /-- Where look-ups failed, they still do. -/
  failing : ∀ id error, start.load repo id = .error error → store.load repo id = .error error
  /-- What was applied was on offer. -/
  applied : ∀ i id sequence, Applied outcomes i id sequence →
    ∃ m, offered i id m ∧ m.manifest.sequence = sequence
  /-- It had a higher number than what was there in the beginning. -/
  above_start : ∀ i id sequence, Applied outcomes i id sequence →
    ∀ m, start.held repo id = .ok (some m) → m.manifest.sequence < sequence
  /-- It has been stored, and something with its number or a higher one is held since then. -/
  below_store : ∀ i id sequence, Applied outcomes i id sequence →
    ∃ m, store.held repo id = .ok (some m) ∧ sequence ≤ m.manifest.sequence
  /-- A number is applied in one fetch only. -/
  once : ∀ i j id sequence, Applied outcomes i id sequence → Applied outcomes j id sequence → i = j
  /-- If nothing was applied, the store is the same. -/
  unchanged : (∀ i id sequence, ¬Applied outcomes i id sequence) → store = start
  /-- The store can answer if it could in the beginning. -/
  sound : start.Sound → store.Sound

namespace Store.Tally

variable {start store after : Store} {repo : RepoId} {id : PeerId} {i : Nat} {outcome : Outcome}
  {offered : Nat → PeerId → SignedManifest → Prop} {outcomes : Nat → SortedMap PeerId Outcome}

/-- Nothing has come in yet. -/
theorem refl (start : Store) (repo : RepoId) (offered : Nat → PeerId → SignedManifest → Prop) :
    start.Tally repo offered (fun _ => .empty) start where
  newest id before h := by
    refine ⟨before, h, .refl ?_⟩
    rintro m ⟨i, hi, -⟩
    cases hi
  failing _ _ h := h
  applied := by rintro i id sequence ⟨_, ⟨⟩⟩
  above_start := by rintro i id sequence ⟨_, ⟨⟩⟩
  below_store := by rintro i id sequence ⟨_, ⟨⟩⟩
  once := by rintro i j id sequence ⟨_, ⟨⟩⟩
  unchanged _ := rfl
  sound h := h

/-- One more outcome is that of an identity in one fetch, or one of those before. -/
theorem applied_update {j : Nat} {id' : PeerId} {sequence : UInt64}
    (hnew : (outcomes i).contains id = false) :
    Applied (Function.update outcomes i ((outcomes i).insert id outcome)) j id' sequence ↔
      (j = i ∧ id' = id ∧ outcome.Applies sequence) ∨ Applied outcomes j id' sequence := by
  have hnone : (outcomes i).get? id = none := by
    rwa [SortedMap.contains, Option.isSome_eq_false_iff, Option.isNone_iff_eq_none] at hnew
  rw [Applied, Applied]
  by_cases hj : j = i
  · rw [hj, Function.update_self]
    by_cases hid : id' = id
    · rw [hid, SortedMap.get?_insert_self]
      simp [hnone, Outcome.Applies]
    · rw [SortedMap.get?_insert_of_ne _ hid]
      simp [hid]
  · rw [Function.update_of_ne hj]
    simp [hj]

/-- One outcome more is noted for one identity in one fetch. -/
theorem contains_update {j : Nat} {id' : PeerId} :
    (Function.update outcomes i ((outcomes i).insert id outcome) j).contains id' = true ↔
      (j = i ∧ id' = id) ∨ (outcomes j).contains id' = true := by
  by_cases hj : j = i
  · rw [hj, Function.update_self, SortedMap.contains_insert]
    simp
  · rw [Function.update_of_ne hj]
    simp [hj]

/-- One more outcome keeps the tally, whichever fetch it belongs to: a number that was applied
before is not higher than what is held when it is applied again. -/
theorem record (h : start.Tally repo offered outcomes store)
    (hnew : (outcomes i).contains id = false)
    (htakes : store.Takes repo id (offered i id) (outcome, after)) :
    start.Tally repo offered (Function.update outcomes i ((outcomes i).insert id outcome))
      after where
  newest id' before hbefore := by
    obtain ⟨middle, hmiddle, hnewest⟩ := h.newest id' before hbefore
    by_cases hid : id' = id
    · rw [hid] at hmiddle hnewest ⊢
      obtain ⟨latest, hlatest, hone⟩ := htakes.newest middle hmiddle
      refine ⟨latest, hlatest, (hnewest.trans hone).congr fun m => ?_⟩
      simp only [contains_update, and_true, or_and_right, exists_or, exists_eq_left]
      exact or_comm
    · refine ⟨middle, (htakes.held_of_ne hid).trans hmiddle, hnewest.congr fun m => ?_⟩
      simp only [contains_update, hid, and_false, false_or]
  failing id' error herror := htakes.load_error (h.failing id' error herror)
  applied j id' sequence happlied := by
    rcases (applied_update hnew).mp happlied with ⟨rfl, rfl, happlies⟩ | hbefore
    · obtain ⟨m, hoffered, hsequence, -⟩ := (htakes.of_applies happlies).2
      exact ⟨m, hoffered, hsequence⟩
    · exact h.applied j id' sequence hbefore
  above_start j id' sequence happlied m hm := by
    rcases (applied_update hnew).mp happlied with ⟨rfl, rfl, happlies⟩ | hbefore
    · obtain ⟨hhigher, -⟩ := htakes.of_applies happlies
      obtain ⟨middle, hmiddle, hnewest⟩ := h.newest id' _ hm
      rcases hnewest.above_before m rfl with rfl | ⟨m', rfl, hlt⟩
      · exact hhigher m hmiddle
      · exact UInt64.lt_trans hlt (hhigher m' hmiddle)
    · exact h.above_start j id' sequence hbefore m hm
  below_store j id' sequence happlied := by
    rcases (applied_update hnew).mp happlied with ⟨rfl, rfl, happlies⟩ | hbefore
    · obtain ⟨m, -, hsequence, hm⟩ := (htakes.of_applies happlies).2
      exact ⟨m, hm, UInt64.le_of_eq hsequence.symm⟩
    · obtain ⟨m, hm, hle⟩ := h.below_store j id' sequence hbefore
      obtain ⟨m', hm', hle'⟩ := htakes.held_le hm
      exact ⟨m', hm', UInt64.le_trans hle hle'⟩
  once j k id' sequence happlied happlied' := by
    have hstale : ∀ {j}, outcome.Applies sequence → ¬Applied outcomes j id sequence := by
      intro j happlies hbefore
      obtain ⟨m, hm, hle⟩ := h.below_store j id sequence hbefore
      exact UInt64.not_lt.mpr hle ((htakes.of_applies happlies).1 m hm)
    rcases (applied_update hnew).mp happlied with ⟨rfl, rfl, happlies⟩ | hbefore
    · rcases (applied_update hnew).mp happlied' with ⟨rfl, -, -⟩ | hbefore'
      · rfl
      · exact absurd hbefore' (hstale happlies)
    · rcases (applied_update hnew).mp happlied' with ⟨rfl, rfl, happlies⟩ | hbefore'
      · exact absurd hbefore (hstale happlies)
      · exact h.once j k id' sequence hbefore hbefore'
  unchanged hnone := by
    have hsame : after = store := htakes.unchanged fun sequence happlies =>
      hnone i id sequence ((applied_update hnew).mpr (.inl ⟨rfl, rfl, happlies⟩))
    rw [hsame]
    exact h.unchanged fun j id' sequence hbefore =>
      hnone j id' sequence ((applied_update hnew).mpr (.inr hbefore))
  sound hstart := htakes.sound (h.sound hstart)

/-- Where nothing that was on offer is newer than what is held, or nothing can be looked up, nothing
is applied. -/
theorem unchanged_of_newest (h : start.Tally repo offered outcomes store)
    (hold : ∀ i id m, (outcomes i).contains id = true → offered i id m →
      (∃ error, start.load repo id = .error error) ∨
        ∃ m', start.held repo id = .ok (some m') ∧ m.manifest.sequence ≤ m'.manifest.sequence) :
    (∀ i id sequence, ¬Applied outcomes i id sequence) ∧ store = start := by
  have hnone : ∀ i id sequence, ¬Applied outcomes i id sequence := by
    intro i id sequence happlied
    have hcontains : (outcomes i).contains id = true := by
      obtain ⟨updates, hupdates⟩ := happlied
      exact SortedMap.contains_eq_true_iff.mpr ⟨_, hupdates⟩
    obtain ⟨m, hoffered, rfl⟩ := h.applied i id sequence happlied
    rcases hold i id m hcontains hoffered with ⟨error, herror⟩ | ⟨m', hm', hle⟩
    · obtain ⟨m', hm', -⟩ := h.below_store i id _ happlied
      rw [held, h.failing id error herror] at hm'
      cases hm'
    · exact UInt64.not_lt.mpr hle (h.above_start i id _ happlied m' hm')
  exact ⟨hnone, h.unchanged hnone⟩

end Store.Tally

end SignedRefs
