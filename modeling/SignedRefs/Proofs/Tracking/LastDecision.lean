import Mathlib.Data.List.Induction
import SignedRefs.Proofs.Tracking.Aliases

/-!
# The Last Decision Counts

The registry keeps no history, and a decision about one identity may take the alias of another one.
Still what it answers can be read off the decisions in the order in which they were made: for the
policy of an identity the last one about it counts, and for its alias also that nobody else was
given the alias since. Both are of one form: something was decided, and since then only decisions of
some kind (`Registry.Since`). The invariant of a run is that the registry answers by this rule
(`Registry.Recalls`).

## Main results

* `Registry.since_append`: one more decision.
* `Registry.Recalls.enact`, `Registry.recalls_foldl`: a verdict and a run keep the invariant.
* `Registry.last_decision_counts`: what the registry answers after any decisions.
-/

namespace SignedRefs

namespace Registry

variable {r : Registry} {id : PeerId} {key : Alias}

/-! ### Verdicts -/

/-- What is decided about an identity: the policy that it gets, or that it is untracked. -/
structure Verdict where
  /-- The identity. -/
  id : PeerId
  /-- Its policy from then on, none if it is untracked. -/
  policy : Option Policy

/-- What a decision decides. Texts that name no identity or are no alias decide nothing. -/
def Decision.verdict? : Decision → Option Verdict
  | .trackText identity text scope =>
    match PeerId.ofText identity, text.mapM Alias.ofText with
    | .ok id, .ok name => some ⟨id, some ⟨scope, name⟩⟩
    | _, _ => none
  | .track id name scope => some ⟨id, some ⟨scope, name⟩⟩
  | .untrack id => some ⟨id, none⟩

/-- The registry after a verdict. -/
def enact (r : Registry) (v : Verdict) : Registry :=
  match v.policy with
  | some policy => r.track v.id policy.name policy.scope
  | none => r.untrack v.id

/-- The registry after a decision depends on what it decides. -/
theorem after_eq (r : Registry) (decision : Decision) :
    r.after decision = decision.verdict?.elim r r.enact := by
  cases decision with
  | trackText identity text scope =>
      simp only [after, trackText, Decision.verdict?]
      cases PeerId.ofText identity with
      | error fault => rfl
      | ok id =>
          cases text with
          | none => rfl
          | some text => cases halias : Alias.ofText text <;>
              simp [halias, Except.mapError, bind, Except.bind, pure, Except.pure, enact,
                Functor.map, Except.map]
  | track id name scope => rfl
  | untrack id => rfl

/-- The registry after decisions depends on what they decide. -/
theorem afterAll_eq (r : Registry) (decisions : List Decision) :
    r.afterAll decisions = (decisions.filterMap Decision.verdict?).foldl enact r := by
  induction decisions generalizing r with
  | nil => rfl
  | cons decision decisions ih =>
      have hfirst : r.afterAll (decision :: decisions) =
        (r.after decision).afterAll decisions := rfl
      rw [hfirst, ih, after_eq]
      cases hverdict : decision.verdict? with
      | none => rw [List.filterMap_cons_none hverdict]; rfl
      | some v => rw [List.filterMap_cons_some hverdict]; rfl

/-! ### Histories -/

/-- A verdict of some kind was given, and only verdicts of another kind since then. -/
def Since (given kept : Verdict → Prop) (history : List Verdict) : Prop :=
  ∃ before v later, history = before ++ v :: later ∧ given v ∧ ∀ w ∈ later, kept w

/-- The last verdict about an identity gave it this policy, or none. -/
def Last (history : List Verdict) (id : PeerId) (policy : Option Policy) : Prop :=
  Since (· = ⟨id, policy⟩) (fun w => w.id ≠ id) history

/-- A verdict gives somebody an alias. -/
def Verdict.Gives (v : Verdict) (key : Alias) : Prop := ∃ scope, v.policy = some ⟨scope, some key⟩

/-- The last verdict about an identity gave it an alias, which nobody else was given since. -/
def Holds (history : List Verdict) (id : PeerId) (key : Alias) : Prop :=
  Since (fun v => v.id = id ∧ v.Gives key) (fun w => w.id ≠ id ∧ ¬w.Gives key) history

section

variable {given kept : Verdict → Prop} {history : List Verdict} {v : Verdict}

/-- Before the first verdict none was given. -/
theorem not_since_nil : ¬Since given kept [] := by
  rintro ⟨before, v, later, hsplit, -⟩
  exact absurd hsplit.symm (List.append_ne_nil_of_right_ne_nil _ (List.cons_ne_nil _ _))

/-- One more verdict is the one that was given, or one of those since then. -/
theorem since_append : Since given kept (history ++ [v]) ↔
    given v ∨ kept v ∧ Since given kept history := by
  constructor
  · rintro ⟨before, w, later, hsplit, hgiven, hkept⟩
    rcases List.eq_nil_or_concat' later with rfl | ⟨init, last, rfl⟩
    · obtain ⟨-, hlast⟩ := List.append_inj' hsplit rfl
      cases hlast
      exact .inl hgiven
    · have hsplit' : history ++ [v] = (before ++ w :: init) ++ [last] := by
        rw [hsplit, List.append_assoc, List.cons_append]
      obtain ⟨hhistory, hlast⟩ := List.append_inj' hsplit' rfl
      cases hlast
      exact .inr ⟨hkept v (by simp), before, w, init, hhistory, hgiven,
        fun u hu => hkept u (List.mem_append_left _ hu)⟩
  · rintro (hgiven | ⟨hv, before, w, later, rfl, hgiven, hkept⟩)
    · exact ⟨history, v, [], rfl, hgiven, fun _ h => nomatch h⟩
    · refine ⟨before, w, later ++ [v], by simp, hgiven, fun u hu => ?_⟩
      rcases List.mem_append.mp hu with hlater | hlast
      · exact hkept u hlater
      · rwa [List.mem_singleton.mp hlast]

/-- One more verdict is the last one about its identity, and about no other. -/
theorem last_append {policy : Option Policy} : Last (history ++ [v]) id policy ↔
    if v.id = id then v.policy = policy else Last history id policy := by
  rw [Last, since_append]
  obtain ⟨about, given⟩ := v
  by_cases hid : about = id
  · simp [hid]
  · simp [hid, Last]

/-- One more verdict gives its identity an alias or none, and takes what it gives from the others.
-/
theorem holds_append : Holds (history ++ [v]) id key ↔
    if v.id = id then v.Gives key else ¬v.Gives key ∧ Holds history id key := by
  rw [Holds, since_append]
  by_cases hid : v.id = id
  · simp [hid]
  · simp [hid, Holds]

end

/-! ### What a verdict changes -/

/-- Taking an alias from its holder leaves all scopes alone. -/
theorem scope_policiesAfterTaking (policies : SortedMap PeerId Policy) (id other : PeerId)
    (holder : Option PeerId) :
    ((policiesAfterTaking policies id holder).get? other).map Policy.scope =
      (policies.get? other).map Policy.scope := by
  cases holder with
  | none => rfl
  | some holder =>
      rw [policiesAfterTaking]
      split
      · rfl
      · split
        · next policy hpolicy =>
            by_cases hother : other = holder
            · rw [hother, SortedMap.get?_insert_self, hpolicy]
              rfl
            · rw [SortedMap.get?_insert_of_ne _ hother]
        · rfl

/-- The scope of an identity after a verdict. -/
theorem scope_enact (r : Registry) (v : Verdict) (id : PeerId) :
    ((r.enact v).policy? id).map Policy.scope =
      if v.id = id then v.policy.map Policy.scope else (r.policy? id).map Policy.scope := by
  obtain ⟨about, policy⟩ := v
  cases policy with
  | some policy =>
      have henact : (r.enact ⟨about, some policy⟩).policies = _ := policies_track
      rw [policy?, henact, SortedMap.get?_insert]
      simp only [Std.LawfulEqOrd.compare_eq_iff_eq, eq_comm (a := id)]
      split
      · rfl
      · exact scope_policiesAfterTaking _ _ _ _
  | none =>
      have henact : (r.enact ⟨about, none⟩).policies = r.policies.erase about := policies_untrack
      rw [policy?, henact, SortedMap.get?_erase]
      simp only [Std.LawfulEqOrd.compare_eq_iff_eq]
      split
      · rfl
      · rfl

/-- The alias of an identity after a verdict. -/
theorem Indexed.aliasOf?_enact (h : r.Indexed) (v : Verdict) (id : PeerId) (key : Alias) :
    (r.enact v).aliasOf? id = some key ↔
      if v.id = id then v.Gives key else ¬v.Gives key ∧ r.aliasOf? id = some key := by
  obtain ⟨about, policy⟩ := v
  cases policy with
  | some policy =>
      obtain ⟨scope, name⟩ := policy
      have hgives : (⟨about, some ⟨scope, name⟩⟩ : Verdict).Gives key ↔ name = some key := by
        simp [Verdict.Gives]
      have henact : r.enact ⟨about, some ⟨scope, name⟩⟩ = r.track about name scope := rfl
      rw [henact, hgives]
      split
      · next habout => rw [← habout, aliasOf?_track_self]
      · next habout => rw [h.aliasOf?_track_of_ne (Ne.symm habout), and_comm]
  | none =>
      have hgives : ¬(⟨about, none⟩ : Verdict).Gives key := by simp [Verdict.Gives]
      have henact : (r.enact ⟨about, none⟩).policies = r.policies.erase about := policies_untrack
      rw [aliasOf?, policy?, henact, SortedMap.get?_erase]
      simp only [Std.LawfulEqOrd.compare_eq_iff_eq]
      split
      · simp [hgives]
      · simp [hgives, aliasOf?, policy?]

/-- Whether an identity is untracked after a verdict. -/
theorem isUntracked_enact (r : Registry) (v : Verdict) (id : PeerId) :
    (r.enact v).isUntracked id = true ↔
      if v.id = id then v.policy = none else r.isUntracked id = true := by
  obtain ⟨about, policy⟩ := v
  cases policy with
  | some policy =>
      have henact : (r.enact ⟨about, some policy⟩).untracked = r.untracked.erase about := rfl
      rw [isUntracked, henact, SortedMap.contains, SortedMap.get?_erase]
      simp only [Std.LawfulEqOrd.compare_eq_iff_eq]
      split
      · simp
      · rfl
  | none =>
      have henact : (r.enact ⟨about, none⟩).untracked = r.untracked.insert about := rfl
      rw [isUntracked, henact, SortedSet.insert, SortedMap.contains_insert]
      split
      · next habout => exact iff_of_true (.inl habout.symm) rfl
      · next habout => exact or_iff_right (Ne.symm habout)

/-! ### The invariant -/

/-- The registry answers by what was decided. -/
structure Recalls (r : Registry) (history : List Verdict) : Prop where
  /-- The index of the aliases agrees with the policies. -/
  indexed : r.Indexed
  /-- The policies are those that were given last, with their scopes. -/
  scope_iff : ∀ id scope, (r.policy? id).map Policy.scope = some scope ↔
    ∃ name, Last history id (some ⟨scope, name⟩)
  /-- The aliases are those that were given last and to nobody else since. -/
  alias_iff : ∀ id key, r.aliasOf? id = some key ↔ Holds history id key
  /-- The untracked identities are those about which this was decided last. -/
  untracked_iff : ∀ id, r.isUntracked id = true ↔ Last history id none

/-- A new registry recalls that nothing was decided. -/
theorem recalls_empty : Registry.empty.Recalls [] where
  indexed := indexed_empty
  scope_iff _ _ := ⟨nofun, fun ⟨_, hlast⟩ => absurd hlast not_since_nil⟩
  alias_iff _ _ := ⟨nofun, fun hholds => absurd hholds not_since_nil⟩
  untracked_iff _ := ⟨nofun, fun hlast => absurd hlast not_since_nil⟩

/-- Every verdict keeps the invariant. -/
theorem Recalls.enact {history : List Verdict} (h : r.Recalls history) (v : Verdict) :
    (r.enact v).Recalls (history ++ [v]) where
  indexed := by
    unfold Registry.enact
    split
    · exact h.indexed.track _ _ _
    · exact h.indexed.untrack _
  scope_iff id scope := by
    simp only [last_append, scope_enact]
    split
    · obtain ⟨about, policy⟩ := v
      cases policy with
      | none => simp
      | some policy =>
          obtain ⟨given, name⟩ := policy
          simp
    · exact h.scope_iff id scope
  alias_iff id key := by rw [h.indexed.aliasOf?_enact, holds_append, h.alias_iff]
  untracked_iff id := by rw [isUntracked_enact, last_append, h.untracked_iff]

/-- Every run of verdicts, from a new registry, keeps the invariant. -/
theorem recalls_foldl (history : List Verdict) :
    (history.foldl Registry.enact .empty).Recalls history := by
  induction history using List.reverseRecOn with
  | nil => exact recalls_empty
  | append_singleton history v ih =>
      rw [List.foldl_append]
      exact ih.enact v

/-- Who stops tracking an identity is told whether it was tracked last. -/
theorem Recalls.stopTracking_iff {history : List Verdict} (h : r.Recalls history) (id : PeerId) :
    (r.stopTracking id).1 = true ↔ ∃ policy, Last history id (some policy) := by
  have hreturned : (r.stopTracking id).1 = (r.policy? id).isSome := rfl
  rw [hreturned, Option.isSome_iff_exists]
  constructor
  · rintro ⟨policy, hpolicy⟩
    obtain ⟨name, hlast⟩ := (h.scope_iff id policy.scope).mp (by rw [hpolicy]; rfl)
    exact ⟨_, hlast⟩
  · rintro ⟨⟨scope, name⟩, hlast⟩
    obtain ⟨policy, hpolicy, -⟩ :=
      Option.map_eq_some_iff.mp ((h.scope_iff id scope).mpr ⟨name, hlast⟩)
    exact ⟨policy, hpolicy⟩

/-- An identity is not admitted if it was untracked or blocked. -/
theorem admits_eq_false_iff : r.admits id = false ↔
    r.isUntracked id = true ∨ (r.policy? id).map Policy.scope = some .none := by
  rw [admits, isBlocked]
  cases r.isUntracked id <;> cases r.policy? id <;> simp

/-- After any decisions, made in a new registry: an identity has a policy exactly if the last
decision about it was to track it, with the scope of this decision, and who stops tracking it is
told so. It has an alias exactly if this
decision gave it and no later one gave it to somebody else, and a text leads to it exactly if it is
such an alias. It counts as untracked exactly if the last decision about it was this, and it is not
admitted exactly if it was this or to track it with scope `none`. -/
theorem last_decision_counts (decisions : List Decision) :
    let r := Registry.empty.afterAll decisions
    let history := decisions.filterMap Decision.verdict?
    (∀ id scope, (∃ policy, r.policy? id = some policy ∧ policy.scope = scope) ↔
      ∃ name, Last history id (some ⟨scope, name⟩)) ∧
    (∀ id, (r.stopTracking id).1 = true ↔ ∃ policy, Last history id (some policy)) ∧
    (∀ id key, r.aliasOf? id = some key ↔ Holds history id key) ∧
    (∀ id, r.isUntracked id = true ↔ Last history id none) ∧
    (∀ text id, r.resolve text = .ok id ↔ ∃ key : Alias, key.text = text ∧ Holds history id key) ∧
    ∀ id, r.admits id = false ↔
      Last history id none ∨ ∃ name, Last history id (some ⟨.none, name⟩) := by
  intro r history
  have hrecalls : r.Recalls history := by
    have hr : r = history.foldl enact .empty := afterAll_eq _ _
    rw [hr]
    exact recalls_foldl history
  refine ⟨fun id scope => ?_, hrecalls.stopTracking_iff, hrecalls.alias_iff, hrecalls.untracked_iff,
    fun text id => ?_, fun id => ?_⟩
  · rw [← hrecalls.scope_iff, Option.map_eq_some_iff]
  · simp only [hrecalls.indexed.resolve_eq_ok_iff, hrecalls.alias_iff]
  · rw [admits_eq_false_iff, hrecalls.untracked_iff, hrecalls.scope_iff]

end Registry

end SignedRefs
