import SignedRefs.Proofs.Digits
import SignedRefs.Proofs.Tracking.Decisions

/-!
# The Index of Aliases

A registry keeps an alias twice: in the policy of the identity that has it, and as the key under
which that identity is found. Nothing in the data ties the two together, so every decision has to
see to both: an alias that is given up leaves the index, and one that is taken from its holder
leaves the policy there. The invariant is `Registry.Indexed`. It makes the index a function of the
policies, so an alias has one holder.

## Main results

* `Registry.Indexed.track`, `Registry.Indexed.untrack`: a decision keeps the index.
* `Registry.Reached.indexed`: the index of every registry that decisions lead to.
* `Registry.aliases_of_decisions`: what an alias leads to after any decisions.
-/

namespace SignedRefs

namespace Registry

variable {r : Registry} {id other : PeerId} {name : Option Alias} {scope : Scope}

/-- The index holds the aliases that the policies give. -/
structure Indexed (r : Registry) : Prop where
  /-- An alias leads to an identity exactly if the policy of the identity gives the alias. -/
  get?_iff : ∀ key id, r.holders.get? key = some id ↔ r.aliasOf? id = some key

/-- No two identities have one alias. -/
theorem Indexed.unique (h : r.Indexed) {key : Alias} (hid : r.aliasOf? id = some key)
    (hother : r.aliasOf? other = some key) : id = other := by
  rw [← h.get?_iff] at hid hother
  rw [hid] at hother
  exact Option.some.inj hother

/-- The index of no policies is empty. -/
theorem indexed_empty : Registry.empty.Indexed :=
  ⟨fun _ _ => ⟨nofun, nofun⟩⟩

/-! ### Decisions -/

/-- What is left of the index when an identity has given up its alias. -/
theorem Indexed.get?_holdersWithout (h : r.Indexed) {key : Alias} :
    (r.holdersWithout id).get? key = some other ↔ other ≠ id ∧ r.aliasOf? other = some key := by
  rw [← h.get?_iff, holdersWithout]
  cases hid : r.aliasOf? id with
  | none =>
      refine (and_iff_right_of_imp fun hother => ?_).symm
      rintro rfl
      rw [h.get?_iff, hid] at hother
      cases hother
  | some held =>
      simp only [SortedMap.get?_erase, Std.LawfulEqOrd.compare_eq_iff_eq]
      by_cases hkey : held = key
      · rw [if_pos hkey]
        constructor
        · rintro ⟨⟩
        · rintro ⟨hne, hother⟩
          exact absurd (h.unique ((h.get?_iff _ _).mp hother) (hkey ▸ hid)) hne
      · rw [if_neg hkey]
        refine (and_iff_right_of_imp fun hother => ?_).symm
        rintro rfl
        rw [h.get?_iff, hid] at hother
        exact hkey (Option.some.inj hother)

/-- Tracking an identity replaces its policy, after the alias was taken from its holder. -/
theorem policies_track : (r.track id name scope).policies =
    (policiesAfterTaking r.policies id (name.bind (r.holdersWithout id).get?)).insert id
      ⟨scope, name⟩ := rfl

/-- An alias that is taken leads to the one who takes it. -/
theorem holders_track_some {key : Alias} : (r.track id (some key) scope).holders =
    (r.holdersWithout id).insert key id := rfl

/-- Tracking an identity gives it an alias, or none. -/
theorem aliasOf?_track_self : (r.track id name scope).aliasOf? id = name := by
  rw [aliasOf?, policy?, policies_track, SortedMap.get?_insert_self, Option.bind_some]

/-- Tracking an identity takes an alias from its holder, who had no other, and leaves the others
theirs. -/
theorem Indexed.aliasOf?_track_of_ne (h : r.Indexed) (hne : other ≠ id) {key : Alias} :
    (r.track id name scope).aliasOf? other = some key ↔
      r.aliasOf? other = some key ∧ name ≠ some key := by
  have htaken : (r.track id name scope).aliasOf? other =
      ((policiesAfterTaking r.policies id (name.bind (r.holdersWithout id).get?)).get? other).bind
        Policy.name := by
    rw [aliasOf?, policy?, policies_track, SortedMap.get?_insert_of_ne _ hne]
  rw [htaken]
  cases hholder : name.bind (r.holdersWithout id).get? with
  | none =>
      refine (and_iff_left_of_imp fun hother => ?_).symm
      rintro rfl
      rw [Option.bind_some, h.get?_holdersWithout.mpr ⟨hne, hother⟩] at hholder
      cases hholder
  | some holder =>
      obtain ⟨taken, rfl, hfound⟩ := Option.bind_eq_some_iff.mp hholder
      obtain ⟨hholder, htaken⟩ := h.get?_holdersWithout.mp hfound
      obtain ⟨policy, hpolicy, hname⟩ := Option.bind_eq_some_iff.mp htaken
      rw [policy?] at hpolicy
      rw [policiesAfterTaking, if_neg hholder, hpolicy]
      by_cases hother : other = holder
      · subst hother
        rw [SortedMap.get?_insert_self, htaken]
        constructor
        · rintro ⟨⟩
        · rintro ⟨⟨⟩, hkey⟩
          exact absurd rfl hkey
      · rw [SortedMap.get?_insert_of_ne _ hother]
        refine (and_iff_left_of_imp fun hkept => ?_).symm
        rintro ⟨⟩
        exact hother (h.unique hkept htaken)

/-- Tracking an identity keeps the index. -/
theorem Indexed.track (h : r.Indexed) (id : PeerId) (name : Option Alias) (scope : Scope) :
    (r.track id name scope).Indexed := by
  refine ⟨fun key other => ?_⟩
  have hindex : (r.track id name scope).holders.get? key =
      if name = some key then some id else (r.holdersWithout id).get? key := by
    cases name with
    | none => rfl
    | some taken =>
        rw [holders_track_some, SortedMap.get?_insert]
        simp only [Std.LawfulEqOrd.compare_eq_iff_eq, Option.some.injEq, eq_comm (a := key)]
  rw [hindex]
  by_cases hother : other = id
  · subst hother
    rw [aliasOf?_track_self]
    split
    · next htaken => simp [htaken]
    · next hkept => simp [h.get?_holdersWithout, hkept]
  · rw [h.aliasOf?_track_of_ne hother]
    split
    · next htaken => simp [htaken, Ne.symm hother]
    · next hkept => simp [h.get?_holdersWithout, hother, hkept]

/-- Untracking an identity keeps the index. -/
theorem Indexed.untrack (h : r.Indexed) (id : PeerId) : (r.untrack id).Indexed := by
  refine ⟨fun key other => ?_⟩
  have hholders : (r.untrack id).holders = r.holdersWithout id := rfl
  rw [hholders, h.get?_holdersWithout, aliasOf?, aliasOf?, policy?, policy?, policies_untrack,
    SortedMap.get?_erase]
  simp only [Std.LawfulEqOrd.compare_eq_iff_eq]
  by_cases hother : id = other
  · simp [hother]
  · rw [if_neg hother]
    exact and_iff_right (Ne.symm hother)

/-- The policies of a file are tracked one after another. -/
theorem indexed_ofPolicyFile (file : PolicyFile) : (ofPolicyFile file).Indexed := by
  have hfold : ∀ (entries : List (PeerId × Policy)) (r : Registry), r.Indexed →
      (entries.foldl (fun r e => r.track e.1 e.2.name e.2.scope) r).Indexed := by
    intro entries
    induction entries with
    | nil => exact fun _ h => h
    | cons e entries ih => exact fun r h => ih _ (h.track e.1 e.2.name e.2.scope)
  exact ⟨(hfold _ _ indexed_empty).get?_iff⟩

/-- The index of every registry that decisions lead to agrees with the policies. -/
theorem Reached.indexed (h : r.Reached) : r.Indexed := by
  induction h with
  | empty => exact indexed_empty
  | @load text r hload =>
      cases text with
      | none => cases hload
      | some text =>
          rw [Registry.load] at hload
          split at hload
          · cases hload
          · cases hload
            exact indexed_ofPolicyFile _
  | track _ id name scope ih => exact ih.track id name scope
  | untrack _ id ih => exact ih.untrack id

/-! ### Questions -/

/-- A text leads to the identity that has it as its alias. -/
theorem Indexed.resolve_eq_ok_iff (h : r.Indexed) {text : String} :
    r.resolve text = .ok id ↔ ∃ key : Alias, key.text = text ∧ r.aliasOf? id = some key := by
  rw [resolve]
  cases hkey : Alias.ofText text with
  | error fault =>
      refine ⟨nofun, ?_⟩
      rintro ⟨key, htext, -⟩
      rw [Alias.ofText_eq_ok_iff.mpr htext] at hkey
      cases hkey
  | ok key =>
      have hid : (∃ key : Alias, key.text = text ∧ r.aliasOf? id = some key) ↔
          r.holders.get? key = some id := by
        simp only [← Alias.ofText_eq_ok_iff, hkey, Except.ok.injEq, exists_eq_left', h.get?_iff]
      rw [hid]
      dsimp only
      cases r.holders.get? key with
      | none => simp
      | some holder => simp

/-! ### Any decisions -/

/-- A call that decides about an identity. -/
inductive Decision
  /-- The identity that a text names is tracked, under the alias that a text names. -/
  | trackText (identity : String) (name : Option String) (scope : Scope)
  /-- An identity is tracked. -/
  | track (id : PeerId) (name : Option Alias) (scope : Scope)
  /-- An identity is untracked. -/
  | untrack (id : PeerId)

/-- The registry after a decision. A decision that fails changes nothing. -/
def after (r : Registry) : Decision → Registry
  | .trackText identity name scope =>
    match r.trackText identity name scope with
    | .ok (_, after) => after
    | .error _ => r
  | .track id name scope => r.track id name scope
  | .untrack id => r.untrack id

/-- The registry after some decisions, one after another. -/
def afterAll (r : Registry) (decisions : List Decision) : Registry := decisions.foldl after r

/-- A text that names an identity makes a decision about it. -/
theorem trackText_eq_ok {identity : String} {text : Option String} {after : Registry}
    (h : r.trackText identity text scope = .ok (id, after)) :
    ∃ name, after = r.track id name scope := by
  rw [trackText] at h
  obtain ⟨_, -, h⟩ := bind_eq_ok_iff.mp h
  obtain ⟨name, -, h⟩ := bind_eq_ok_iff.mp h
  cases h
  exact ⟨name, rfl⟩

/-- One more decision leads to such a registry. -/
theorem Reached.after (h : r.Reached) (decision : Decision) : (r.after decision).Reached := by
  cases decision with
  | trackText identity text scope =>
      rw [Registry.after]
      split
      · next id after hdone =>
          obtain ⟨name, rfl⟩ := trackText_eq_ok hdone
          exact h.track id name scope
      · exact h
  | track id name scope => exact h.track id name scope
  | untrack id => exact h.untrack id

/-- Any decisions lead from one such registry to another. -/
theorem Reached.afterAll (h : r.Reached) (decisions : List Decision) :
    (r.afterAll decisions).Reached := by
  induction decisions generalizing r with
  | nil => exact h
  | cons decision decisions ih => exact ih (h.after decision)

/-- Decisions lead to a registry, made in a new one or in one that was read from a policy file. -/
theorem reached_afterAll {start : Registry}
    (hstart : start = .empty ∨ ∃ text, load text = .ok start) (decisions : List Decision) :
    (start.afterAll decisions).Reached := by
  rcases hstart with rfl | ⟨text, hload⟩
  · exact Reached.empty.afterAll decisions
  · exact (Reached.load hload).afterAll decisions

/-- After any decisions, made in a new registry or in one that was read from a policy file, an alias
leads to an identity exactly if the policy of the identity gives the alias, and no two identities
have one alias. No identity has a policy and is untracked. A text leads to an identity exactly if it
is the alias of the identity. -/
theorem aliases_of_decisions {start : Registry}
    (hstart : start = .empty ∨ ∃ text, load text = .ok start) (decisions : List Decision) :
    let r := start.afterAll decisions
    (∀ key id, r.holders.get? key = some id ↔ ∃ policy, r.policy? id = some policy ∧
      policy.name = some key) ∧
    (∀ key id id', r.aliasOf? id = some key → r.aliasOf? id' = some key → id = id') ∧
    (∀ id, ¬(r.policies.contains id = true ∧ r.untracked.contains id = true)) ∧
    ∀ text id, r.resolve text = .ok id ↔
      ∃ key : Alias, key.text = text ∧ r.aliasOf? id = some key := by
  intro r
  have hreached : r.Reached := reached_afterAll hstart decisions
  have hindexed := hreached.indexed
  refine ⟨fun key id => ?_, fun key id id' => hindexed.unique, fun id => ?_,
    fun text id => hindexed.resolve_eq_ok_iff⟩
  · rw [hindexed.get?_iff, aliasOf?, Option.bind_eq_some_iff]
  · rintro ⟨hpolicy, huntracked⟩
    obtain ⟨policy, hsome⟩ := SortedMap.contains_eq_true_iff.mp hpolicy
    have hnone := hreached.policy?_of_untracked huntracked
    rw [policy?, hsome] at hnone
    cases hnone

end Registry

/-! ### A shared alias -/

namespace SharedAlias

open Registry

/-- The identity that gets the alias from a file. -/
def alice : PeerId :=
  ⟨.ofNat 32 0x8a88e3dd7409f195fd52db2d3cba5d72ca6709bf1d94121bf3748801b40f6f5c⟩

/-- The identity that it is given to then. -/
def bob : PeerId :=
  ⟨.ofNat 32 0x8139770ea87d175f56a35466c34c7ecccb8d8a91b4ee37a25df60f5b8fc9b394⟩

/-- The alias of both. -/
def dev : Alias := ⟨"dev", by decide⟩

/-- A policy file in which both have the alias. -/
def text : String :=
  "\x7b\"version\":1,\"policies\":\x7b" ++
    "\"8139770ea87d175f56a35466c34c7ecccb8d8a91b4ee37a25df60f5b8fc9b394\":" ++
      "\x7b\"scope\":\"all\",\"alias\":\"dev\"\x7d," ++
    "\"8a88e3dd7409f195fd52db2d3cba5d72ca6709bf1d94121bf3748801b40f6f5c\":" ++
      "\x7b\"scope\":\"all\",\"alias\":\"dev\"\x7d\x7d\x7d"

/-- Then the alias is given to Bob. -/
def decisions : List Decision := [.trackText bob.hex (some "dev") .trusted]

set_option maxRecDepth 100000 in
/-- Whose the alias is when the file has been read, and after the decision. -/
theorem facts : (load (some text)).map (fun r => (r.aliasOf? alice, r.aliasOf? bob,
    (r.afterAll decisions).aliasOf? bob)) = .ok (some dev, none, some dev) := by
  decide +kernel

/-- The alias that two policies of a file give leads to one identity, and is taken from it by the
next one. -/
theorem alias_taken_after_load : ∃ start, load (some text) = .ok start ∧
    start.aliasOf? alice = some dev ∧
    let r := start.afterAll decisions
    r.resolve "dev" = .ok bob ∧ ∀ id, r.aliasOf? id = some dev → id = bob := by
  cases hload : load (some text) with
  | error fault =>
      have hfacts := facts
      rw [hload] at hfacts
      cases hfacts
  | ok start =>
      have hfacts := facts
      rw [hload] at hfacts
      obtain ⟨halice, -, hbob⟩ := by simpa [Except.map] using hfacts
      obtain ⟨-, hunique, -, hresolve⟩ := aliases_of_decisions (.inr ⟨_, hload⟩) decisions
      exact ⟨start, rfl, halice, (hresolve _ _).mpr ⟨dev, rfl, hbob⟩,
        fun id hid => hunique dev id bob hid hbob⟩

end SharedAlias

end SignedRefs
