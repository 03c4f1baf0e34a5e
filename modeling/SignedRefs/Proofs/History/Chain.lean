import SignedRefs.Proofs.History.Collection

/-!
# Chains of Changes

A change is replayed exactly if it stands on a chain: a list of names that begins at a tip and ends
at the root, on which every record is genuine and builds on the next one. The tips and the records
come from others, so a graph may hold anything. A record that goes bad cuts the chains on which it
stands. What builds on it is lost, and so is what it builds on where no other tip leads there; all
else is replayed as before.

## Main results

* `replayed_iff_onChain`: what is replayed stands on a chain.
* `Spoiled.replayed_iff`: what is left when a record has gone bad.
-/

namespace SignedRefs

namespace History

open Relation

/-- The graph holds a record under its own name, signed by its author. -/
structure Genuine (graph : ObjectGraph) (id : ObjectId) (signed : SignedChange) : Prop where
  /-- The record exists. -/
  stored : graph.change? id = .ok (some signed)
  /-- It has the name that it is stored under. -/
  named : signed.id = .ok id
  /-- It verifies. -/
  verified : signed.verify = .ok ()

/-- The genuine records on the way from a name down to the root. -/
inductive Chain (graph : ObjectGraph) (root : ObjectId) : ObjectId → List ObjectId → Prop
  /-- The root alone. -/
  | root {signed : SignedChange} (h : Genuine graph root signed) : Chain graph root root [root]
  /-- A record in front of the chain from its parent. -/
  | cons {id parent : ObjectId} {signed : SignedChange} {chain : List ObjectId} (hne : id ≠ root)
      (h : Genuine graph id signed) (hparent : signed.change.parent = some parent)
      (hchain : Chain graph root parent chain) : Chain graph root id (id :: chain)

/-- A name stands on a chain from one of the tips. -/
def OnChain (graph : ObjectGraph) (root : ObjectId) (tips : List ObjectId) (id : ObjectId) : Prop :=
  ∃ tip ∈ tips, ∃ chain, Chain graph root tip chain ∧ id ∈ chain

/-- One graph holds the same as another, except that a record has gone bad: it is missing, does not
have its name or does not verify. -/
structure Spoiled (graph spoiled : ObjectGraph) (bad : ObjectId) : Prop where
  /-- Nothing authentic is left of the record. -/
  lost : ∀ change, ¬Authentic spoiled bad change
  /-- What is authentic under other names is the same. -/
  kept : ∀ id change, id ≠ bad → (Authentic spoiled id change ↔ Authentic graph id change)

variable {graph spoiled : ObjectGraph} {root bad : ObjectId} {tips : List ObjectId}

/-- A genuine record makes its change authentic. -/
theorem Genuine.authentic {id : ObjectId} {signed : SignedChange} (h : Genuine graph id signed) :
    Authentic graph id signed.change :=
  authentic_iff.mpr ⟨signed, h.stored, h.named, h.verified, rfl⟩

/-- An authentic change has a genuine record. -/
theorem Authentic.exists_genuine {id : ObjectId} {change : Change} (h : Authentic graph id change) :
    ∃ signed, Genuine graph id signed ∧ signed.change = change := by
  obtain ⟨signed, hstored, hnamed, hverified, hchange⟩ := authentic_iff.mp h
  exact ⟨signed, ⟨hstored, hnamed, hverified⟩, hchange⟩

/-! ### What stands on a chain -/

/-- A chain ends at an authentic root. -/
theorem Chain.exists_root {id : ObjectId} {chain : List ObjectId} (h : Chain graph root id chain) :
    ∃ change, Authentic graph root change := by
  induction h with
  | root h => exact ⟨_, h.authentic⟩
  | cons _ _ _ _ ih => exact ih

/-- What stands on a chain is on the way from its first name down to the root. -/
theorem Chain.between {id x : ObjectId} {chain : List ObjectId} (h : Chain graph root id chain)
    (hx : x ∈ chain) :
    ReflTransGen (BuildsOn graph root) id x ∧ ReflTransGen (BuildsOn graph root) x root := by
  induction h generalizing x with
  | root h =>
      obtain rfl := List.mem_singleton.mp hx
      exact ⟨.refl, .refl⟩
  | cons hne h hparent hchain ih =>
      have hbuilds : BuildsOn graph root _ _ := ⟨hne, _, h.authentic, hparent⟩
      rcases List.mem_cons.mp hx with rfl | hx
      · cases hchain with
        | root => exact ⟨.refl, .single hbuilds⟩
        | cons => exact ⟨.refl, .head hbuilds (ih List.mem_cons_self).2⟩
      · exact ⟨.head hbuilds (ih hx).1, (ih hx).2⟩

/-- Where the way down ends at an authentic root, all that is met on it makes a chain. -/
theorem exists_chain (hroot : ∃ change, Authentic graph root change) {id : ObjectId}
    (h : ReflTransGen (BuildsOn graph root) id root) :
    ∃ chain, Chain graph root id chain ∧
      ∀ x, ReflTransGen (BuildsOn graph root) id x → x ∈ chain := by
  induction h using ReflTransGen.head_induction_on with
  | refl =>
      obtain ⟨change, hauth⟩ := hroot
      obtain ⟨signed, hgenuine, -⟩ := hauth.exists_genuine
      refine ⟨[root], .root hgenuine, fun x hx => ?_⟩
      rcases ReflTransGen.cases_head hx with rfl | ⟨p, hp, -⟩
      · exact List.mem_singleton_self _
      · exact absurd hp not_buildsOn_root
  | @head id parent hbuilds _ ih =>
      obtain ⟨chain, hchain, hmem⟩ := ih
      obtain ⟨hne, change, hauth, hparent⟩ := hbuilds
      obtain ⟨signed, hgenuine, rfl⟩ := hauth.exists_genuine
      refine ⟨id :: chain, .cons hne hgenuine hparent hchain, fun x hx => ?_⟩
      rcases ReflTransGen.cases_head hx with rfl | ⟨p, hp, hpx⟩
      · exact List.mem_cons_self
      · obtain rfl := hp.unique ⟨hne, _, hauth, hparent⟩
        exact List.mem_cons_of_mem _ (hmem x hpx)

/-- What is replayed is what stands on a chain. -/
theorem replayed_iff_onChain {id : ObjectId} :
    Replayed graph root tips id ↔ OnChain graph root tips id := by
  constructor
  · rintro ⟨⟨tip, htip, hpath⟩, hdesc, hroot⟩
    obtain ⟨chain, hchain, hmem⟩ := exists_chain hroot (hpath.trans hdesc)
    exact ⟨tip, htip, chain, hchain, hmem id hpath⟩
  · rintro ⟨tip, htip, chain, hchain, hid⟩
    obtain ⟨hpath, hdesc⟩ := hchain.between hid
    exact ⟨⟨tip, htip, hpath⟩, hdesc, hchain.exists_root⟩

/-- Chains depend on the records alone. -/
theorem Chain.of_records {larger : ObjectGraph}
    (hsame : ∀ id signed, Genuine graph id signed → Genuine larger id signed) {id : ObjectId}
    {chain : List ObjectId} (h : Chain graph root id chain) : Chain larger root id chain := by
  induction h with
  | root h => exact .root (hsame _ _ h)
  | cons hne h hparent _ ih => exact .cons hne (hsame _ _ h) hparent ih

/-- The same records make the same chains. -/
theorem onChain_congr {other : ObjectGraph} (hchange : other.change? = graph.change?)
    {id : ObjectId} : OnChain other root tips id ↔ OnChain graph root tips id := by
  have hsame : ∀ id signed, Genuine other id signed ↔ Genuine graph id signed := fun id signed =>
    ⟨fun h => ⟨hchange ▸ h.stored, h.named, h.verified⟩,
      fun h => ⟨hchange ▸ h.stored, h.named, h.verified⟩⟩
  constructor
  · rintro ⟨tip, htip, chain, hchain, hid⟩
    exact ⟨tip, htip, chain, hchain.of_records fun _ _ => (hsame _ _).mp, hid⟩
  · rintro ⟨tip, htip, chain, hchain, hid⟩
    exact ⟨tip, htip, chain, hchain.of_records fun _ _ => (hsame _ _).mpr, hid⟩

/-! ### Records that go bad -/

/-- When one record has gone bad, its change builds on nothing, and the others build on what they
did. -/
theorem Spoiled.buildsOn_iff (h : Spoiled graph spoiled bad) {id p : ObjectId} :
    BuildsOn spoiled root id p ↔ id ≠ bad ∧ BuildsOn graph root id p := by
  constructor
  · rintro ⟨hne, change, hauth, hparent⟩
    have hbad : id ≠ bad := by
      rintro rfl
      exact h.lost change hauth
    exact ⟨hbad, hne, change, (h.kept id change hbad).mp hauth, hparent⟩
  · rintro ⟨hbad, hne, change, hauth, hparent⟩
    exact ⟨hne, change, (h.kept id change hbad).mpr hauth, hparent⟩

/-- Ways down in the spoiled graph were there before. -/
theorem Spoiled.reflTransGen (h : Spoiled graph spoiled bad) {id a : ObjectId}
    (ha : ReflTransGen (BuildsOn spoiled root) id a) : ReflTransGen (BuildsOn graph root) id a :=
  ReflTransGen.mono (fun _ _ hp => (h.buildsOn_iff.mp hp).2) _ _ ha

/-- What builds on the bad record is not replayed. -/
theorem Spoiled.not_above (h : Spoiled graph spoiled bad) {id : ObjectId}
    (hid : Replayed spoiled root tips id) : ¬ReflTransGen (BuildsOn graph root) id bad := by
  intro hbelow
  induction hbelow using ReflTransGen.head_induction_on with
  | refl =>
      obtain ⟨change, hauth⟩ := hid.exists_authentic
      exact h.lost change hauth
  | @head id p hp _ ih =>
      obtain ⟨change, hauth⟩ := hid.exists_authentic
      have hbad : id ≠ bad := by
        rintro rfl
        exact h.lost change hauth
      exact ih (hid.parent (h.buildsOn_iff.mpr ⟨hbad, hp⟩))

/-- What does not build on the bad record keeps its way down. -/
theorem Spoiled.descends (h : Spoiled graph spoiled bad) {id : ObjectId}
    (hid : ReflTransGen (BuildsOn graph root) id root)
    (hbad : ¬ReflTransGen (BuildsOn graph root) id bad) :
    ReflTransGen (BuildsOn spoiled root) id root := by
  induction hid using ReflTransGen.head_induction_on with
  | refl => exact .refl
  | @head id p hp _ ih =>
      have hne : id ≠ bad := by
        rintro rfl
        exact hbad .refl
      exact .head (h.buildsOn_iff.mpr ⟨hne, hp⟩) (ih fun hpb => hbad (.head hp hpb))

/-- When a record has gone bad, what was replayed before still is, unless it builds on that record
or no tip leads to it any more. -/
theorem Spoiled.replayed_iff (h : Spoiled graph spoiled bad) {id : ObjectId} :
    Replayed spoiled root tips id ↔ Replayed graph root tips id ∧
      ¬ReflTransGen (BuildsOn graph root) id bad ∧ Met spoiled root tips id := by
  constructor
  · intro hid
    obtain ⟨tip, htip, hpath⟩ := hid.met
    obtain ⟨change, hauth⟩ := hid.root_authentic
    have hroot : root ≠ bad := by
      rintro rfl
      exact h.lost change hauth
    exact ⟨⟨⟨tip, htip, h.reflTransGen hpath⟩, h.reflTransGen hid.descends, change,
      (h.kept root change hroot).mp hauth⟩, h.not_above hid, hid.met⟩
  · rintro ⟨hid, hbad, hmet⟩
    obtain ⟨change, hauth⟩ := hid.root_authentic
    have hroot : root ≠ bad := by
      rintro rfl
      exact hbad hid.descends
    exact ⟨hmet, h.descends hid.descends hbad, change, (h.kept root change hroot).mpr hauth⟩

end History

end SignedRefs
