import SignedRefs.Proofs.Json.RoundTrip
import SignedRefs.Proofs.Ref.Naming
import SignedRefs.Proofs.Tracking.Aliases

/-!
# Saved Registries

A saved registry is read back as it was, the index of aliases included, although the file does not
hold the index: tracking the policies one after another builds it again, and as no two of them have
one alias, none is taken from another. The one thing that can go wrong is an identity. It is written
whatever its bytes are, but it is read only if it names a public key. If it does not, the whole file
cannot be read.

## Main results

* `PolicyFile.ofJson?_toJson`: which policy files are read back.
* `Registry.Reached.ofPolicyFile_eq`: what is read is the registry that was saved.
* `Registry.saved_reads_back`: when a saved registry is read back, and what happens otherwise.
-/

namespace SignedRefs

open Json

/-! ### Identities -/

/-- An identity is read back if it is a public key. -/
theorem PeerId.ofJson?_hex (id : PeerId) :
    PeerId.ofJson? (.ofText id.hex) = if id.isPublicKey = true then some id else none := by
  rw [ofJson?, Value.text?_ofText, Option.bind_some, ofText_hex]
  split <;> rfl

/-! ### Policy files -/

namespace PolicyFile

/-- A scope is read back. -/
theorem readScope_text (scope : Scope) : readScope (.ofText scope.text) = some scope := by
  rw [readScope, Value.ofText, Value.choice?, Content.text?_ofText]
  cases scope <;> rfl

/-- An alias is read back. -/
theorem readAlias_text (name : Alias) : readAlias (.ofText name.text) = some name := by
  rw [readAlias, Value.text?_ofText, Option.bind_some, Alias.ofText_eq_ok_iff.mpr rfl]
  rfl

/-- A policy is read back. -/
theorem readPolicy_policyValue (policy : Policy) :
    readPolicy (policyValue policy) = some policy := by
  obtain ⟨scope, name⟩ := policy
  cases name with
  | none =>
      rw [readPolicy, policyValue, Record.ofValue?_ofFields (by simp) (by simp)]
      simp [Record.get?, Record.getD, List.lookup_cons, readScope_text]
  | some name =>
      have hname : Value.orNull? readAlias (.ofText name.text) = some (some name) := by
        change (readAlias (.ofText name.text)).map some = _
        rw [readAlias_text, Option.map_some]
      rw [readPolicy, policyValue, Record.ofValue?_ofFields (by simp) (by simp)]
      simp [Record.get?, Record.getD, List.lookup_cons, readScope_text, hname]

/-- A policy is written as a proper value. -/
theorem proper_policyValue (policy : Policy) : (policyValue policy).Proper := by
  obtain ⟨scope, name⟩ := policy
  refine .fields fun field hfield => ?_
  cases name with
  | none =>
      obtain rfl := List.mem_singleton.mp hfield
      exact .text _
  | some name =>
      rcases List.mem_cons.mp hfield with rfl | hfield
      · exact .text _
      · obtain rfl := List.mem_singleton.mp hfield
        exact .text _

/-- The policies of a file, as a value. -/
def policiesValue (policies : SortedMap PeerId Policy) : Value :=
  .ofFields (policies.entries.map fun (id, p) => (id.hex, policyValue p))

/-- Identities, as a value. -/
def identitiesValue (identities : SortedSet PeerId) : Value :=
  .array (identities.toList.map fun id => .ofText id.hex)

/-- Policies are read back if all identities in them are public keys. -/
theorem readPolicies_policiesValue (policies : SortedMap PeerId Policy) :
    readPolicies (policiesValue policies) =
      if ∀ id ∈ policies.keys, id.isPublicKey = true then some policies else none := by
  have hentry : ∀ e : PeerId × Policy,
      (do return (← PeerId.ofJson? (.ofText e.1.hex), ← readPolicy (policyValue e.2))) =
        if e.1.isPublicKey = true then some e else none := by
    intro e
    rw [PeerId.ofJson?_hex, readPolicy_policyValue]
    split <;> rfl
  have hkeys : (∀ e ∈ policies.entries, e.1.isPublicKey = true) ↔
      ∀ id ∈ policies.keys, id.isPublicKey = true := by
    rw [SortedMap.keys, List.forall_mem_map]
  rw [policiesValue, Value.ofFields, readPolicies, List.map_map]
  refine (congrArg (Option.map SortedMap.ofList) (mapM_map_of hentry policies.entries)).trans ?_
  simp only [hkeys]
  split
  · rw [Option.map_some, SortedMap.ofList_entries]
  · rfl

/-- A list of identities is read back if all of them are public keys. -/
theorem readIdentities_identitiesValue (identities : SortedSet PeerId) :
    readIdentities (identitiesValue identities) =
      if ∀ id ∈ identities.toList, id.isPublicKey = true then some identities else none := by
  have hset : SortedSet.ofList identities.toList = identities := by
    rw [SortedSet.ofList, SortedSet.toList, SortedMap.keys, List.map_map]
    exact (congrArg SortedMap.ofList (List.map_id _)).trans identities.ofList_entries
  rw [readIdentities, identitiesValue, Value.items?, Option.bind_eq_bind, Option.bind_some,
    mapM_map_of PeerId.ofJson?_hex]
  split
  · rw [Option.bind_eq_bind, Option.bind_some, hset]
    rfl
  · rfl

/-- The identities in a file. -/
def identities (file : PolicyFile) : List PeerId := file.policies.keys ++ file.untracked.toList

/-- All identities in a file name public keys. -/
def Readable (file : PolicyFile) : Prop := ∀ id ∈ file.identities, id.isPublicKey = true

instance (file : PolicyFile) : Decidable file.Readable :=
  inferInstanceAs (Decidable (∀ id ∈ file.identities, _))

/-- A file has a version, the policies and, if there are any, the untracked identities. -/
theorem toJson_eq (file : PolicyFile) : file.toJson =
    .ofFields ([("version", .ofNat file.version), ("policies", policiesValue file.policies)] ++
      if file.untracked.isEmpty then [] else [("untracked", identitiesValue file.untracked)]) := rfl

/-- A file is written as a proper value. -/
theorem proper_toJson (file : PolicyFile) : file.toJson.Proper := by
  have hpolicies : (policiesValue file.policies).Proper := by
    refine .fields fun field hfield => ?_
    obtain ⟨e, -, rfl⟩ := List.mem_map.mp hfield
    exact proper_policyValue e.2
  have huntracked : (identitiesValue file.untracked).Proper := by
    refine .array fun item hitem => ?_
    obtain ⟨id, -, rfl⟩ := List.mem_map.mp hitem
    exact .text _
  rw [toJson_eq]
  refine .fields fun field hfield => ?_
  rcases List.mem_append.mp hfield with hfield | hfield
  · rcases List.mem_pair.mp hfield with rfl | rfl
    · exact Value.proper_ofNat _
    · exact hpolicies
  · split at hfield
    · cases hfield
    · obtain rfl := List.mem_singleton.mp hfield
      exact huntracked

/-- A policy file is read back exactly if all identities in it name public keys. -/
theorem ofJson?_toJson {file : PolicyFile} (hversion : file.version < UInt32.size) :
    ofJson? file.toJson = if file.Readable then some file else none := by
  obtain ⟨version, policies, untracked⟩ := file
  have hversion' : (Value.ofNat version).nat? UInt32.size = some version :=
    Value.nat?_ofNat hversion
  have hall : Readable ⟨version, policies, untracked⟩ ↔
      (∀ id ∈ policies.keys, id.isPublicKey = true) ∧
        ∀ id ∈ untracked.toList, id.isPublicKey = true := List.forall_mem_append
  rw [toJson_eq, ofJson?, Record.ofValue?_ofFields (by split <;> simp) (by split <;> simp)]
  simp only [hall, ite_and]
  cases hempty : untracked.isEmpty with
  | true =>
      have hnone : untracked = .empty := by
        obtain ⟨entries, hentries⟩ := untracked
        obtain rfl := List.isEmpty_iff.mp hempty
        rfl
      subst hnone
      have hlist : SortedSet.toList (SortedMap.empty : SortedSet PeerId) = [] := rfl
      simp only [↓reduceIte, List.append_nil, Record.get?, Record.getD, Option.pure_def,
        Option.bind_eq_bind, Option.bind_some, List.lookup_cons, BEq.rfl, hversion',
        String.reduceBEq, readPolicies_policiesValue, hlist, List.not_mem_nil, IsEmpty.forall_iff,
        implies_true]
      split_ifs <;> rfl
  | false =>
      simp only [Bool.false_eq_true, ↓reduceIte, List.cons_append, List.nil_append, Record.get?,
        Record.getD, Option.pure_def, Option.bind_eq_bind, Option.bind_some, List.lookup_cons,
        BEq.rfl, hversion', String.reduceBEq, readPolicies_policiesValue,
        readIdentities_identitiesValue]
      split_ifs <;> rfl

end PolicyFile

namespace Registry

variable {r s : Registry}

/-! ### Rebuilding the index -/

/-- Registries with the same parts are the same. -/
theorem ext (hpolicies : r.policies = s.policies) (hholders : r.holders = s.holders)
    (huntracked : r.untracked = s.untracked) : r = s := by
  cases r; cases s; cases hpolicies; cases hholders; cases huntracked; rfl

/-- Registries with the same policies have the same index. -/
theorem Indexed.holders_eq (h : r.Indexed) (h' : s.Indexed) (hpolicies : r.policies = s.policies) :
    r.holders = s.holders := by
  refine SortedMap.ext fun key => Option.ext fun id => ?_
  rw [h.get?_iff, h'.get?_iff, aliasOf?, aliasOf?, policy?, policy?, hpolicies]

/-- Some of the policies of a registry were tracked. -/
structure Rebuilt (r s : Registry) : Prop where
  /-- The index is up to date. -/
  indexed : s.Indexed
  /-- The policies are those of the registry. -/
  policy? : ∀ id policy, s.policy? id = some policy → r.policy? id = some policy

/-- An alias that was tracked already is the one in the registry. -/
theorem Rebuilt.aliasOf? (h : r.Rebuilt s) {id : PeerId} {key : Alias}
    (hid : s.aliasOf? id = some key) : r.aliasOf? id = some key := by
  obtain ⟨policy, hpolicy, hname⟩ := Option.bind_eq_some_iff.mp hid
  rw [Registry.aliasOf?, h.policy? id policy hpolicy, Option.bind_some, hname]

/-- One more policy is tracked, and no other one changes. -/
theorem Rebuilt.policies_track (h : r.Rebuilt s) (hr : r.Indexed) {id : PeerId} {policy : Policy}
    (hid : r.policy? id = some policy) :
    (s.track id policy.name policy.scope).policies = s.policies.insert id policy := by
  have hfree : policy.name.bind (s.holdersWithout id).get? = none := by
    refine Option.eq_none_iff_forall_ne_some.mpr fun holder hholder => ?_
    obtain ⟨key, hname, hfound⟩ := Option.bind_eq_some_iff.mp hholder
    obtain ⟨hne, htaken⟩ := h.indexed.get?_holdersWithout.mp hfound
    have hholder : r.aliasOf? holder = some key := h.aliasOf? htaken
    have hown : r.aliasOf? id = some key := by
      rw [Registry.aliasOf?, hid, Option.bind_some, hname]
    exact hne (hr.unique hholder hown)
  rw [Registry.policies_track, hfree]
  rfl

/-- One more of the policies may be tracked. -/
theorem Rebuilt.track (h : r.Rebuilt s) (hr : r.Indexed) {id : PeerId} {policy : Policy}
    (hid : r.policy? id = some policy) : r.Rebuilt (s.track id policy.name policy.scope) := by
  refine ⟨h.indexed.track _ _ _, fun other policy' hother => ?_⟩
  rw [Registry.policy?, h.policies_track hr hid] at hother
  by_cases hne : other = id
  · subst hne
    rw [SortedMap.get?_insert_self] at hother
    cases hother
    exact hid
  · rw [SortedMap.get?_insert_of_ne _ hne] at hother
    exact h.policy? other policy' hother

/-- Tracking policies of a registry one after another tracks all of them. -/
theorem Rebuilt.foldl (hr : r.Indexed) {entries : List (PeerId × Policy)}
    (hentries : ∀ e ∈ entries, r.policy? e.1 = some e.2) (h : r.Rebuilt s) :
    let rebuilt := entries.foldl (fun s e => s.track e.1 e.2.name e.2.scope) s
    r.Rebuilt rebuilt ∧ ∀ id, (id ∈ entries.map Prod.fst ∨ s.policies.contains id = true) →
      rebuilt.policies.contains id = true := by
  induction entries generalizing s with
  | nil => exact ⟨h, fun id hid => hid.resolve_left (by simp)⟩
  | cons e entries ih =>
      obtain ⟨he, hentries⟩ := List.forall_mem_cons.mp hentries
      obtain ⟨hrebuilt, hcontains⟩ := ih hentries (h.track hr he)
      refine ⟨hrebuilt, fun id hid => hcontains id ?_⟩
      rw [h.policies_track hr he, SortedMap.contains_insert]
      rcases hid with hid | hid
      · rw [List.map_cons, List.mem_cons] at hid
        exact hid.symm.imp_right .inl
      · exact .inr (.inr hid)

/-- What the file of a registry says. -/
def policyFile (r : Registry) : PolicyFile :=
  ⟨PolicyFile.currentVersion, r.policies, r.untracked⟩

/-- Tracking the policies again makes no difference to them. -/
theorem Indexed.policies_ofPolicyFile (h : r.Indexed) :
    (ofPolicyFile r.policyFile).policies = r.policies := by
  have hnone : r.Rebuilt .empty := ⟨indexed_empty, fun _ _ hid => by cases hid⟩
  have hentries : ∀ e ∈ r.policies.entries, r.policy? e.1 = some e.2 := fun _ he =>
    SortedMap.mem_entries_iff.mp he
  obtain ⟨hrebuilt, hcontains⟩ := hnone.foldl h hentries
  refine SortedMap.ext fun id => Option.ext fun policy => ⟨hrebuilt.policy? id policy, ?_⟩
  intro hid
  have hkey : id ∈ r.policies.keys :=
    SortedMap.mem_keys_iff.mpr (SortedMap.contains_eq_true_iff.mpr ⟨policy, hid⟩)
  obtain ⟨policy', hpolicy'⟩ := SortedMap.contains_eq_true_iff.mp (hcontains id (.inl hkey))
  have hsame := hrebuilt.policy? id policy' hpolicy'
  rw [policy?, hid] at hsame
  cases hsame
  exact hpolicy'

/-- The file of a registry that decisions lead to describes this registry: no untracked identity has
a policy, so none of them is left out. -/
theorem Reached.ofPolicyFile_eq (h : r.Reached) : ofPolicyFile r.policyFile = r := by
  have hpolicies := h.indexed.policies_ofPolicyFile
  refine ext hpolicies ((indexed_ofPolicyFile _).holders_eq h.indexed hpolicies) ?_
  have hfilter : (ofPolicyFile r.policyFile).untracked =
      r.untracked.filter fun id _ => !(ofPolicyFile r.policyFile).policies.contains id := rfl
  rw [hfilter, hpolicies]
  refine SortedMap.ext fun id => ?_
  rw [SortedMap.get?_filter]
  cases hid : r.untracked.get? id with
  | none => rfl
  | some _ =>
      have hnone : r.policy? id = none :=
        h.policy?_of_untracked (SortedMap.contains_eq_true_iff.mpr ⟨_, hid⟩)
      refine Option.filter_some_pos ?_
      rw [SortedMap.contains, ← policy?, hnone]
      rfl

/-! ### Saving and loading -/

/-- The file of a registry can be read if all identities in it are public keys. -/
theorem readable_policyFile_iff : r.policyFile.Readable ↔
    ∀ id, r.policies.contains id = true ∨ r.untracked.contains id = true →
      id.isPublicKey = true := by
  refine forall_congr' fun id => imp_congr_left ?_
  rw [PolicyFile.identities, List.mem_append, ← SortedMap.mem_keys_iff, ← SortedMap.mem_keys_iff]
  rfl

/-- A saved registry is read back as it was, or its file cannot be read. -/
theorem load_save (h : r.Reached) :
    load (some r.save) = if r.policyFile.Readable then .ok r else .error .unreadable := by
  have hparse : Value.parse? r.save = some r.policyFile.toJson :=
    r.policyFile.proper_toJson.parse?_pretty
  have hversion : PolicyFile.currentVersion < UInt32.size := by decide
  rw [load, hparse, Option.bind_some, PolicyFile.ofJson?_toJson hversion]
  split_ifs
  · exact congrArg Except.ok h.ofPolicyFile_eq
  · rfl

/-- After any decisions, made in a new registry or in one that was read from a policy file, the
registry can be saved and read back exactly if every identity that has a policy or is untracked
names a public key. Then what is read has the same policies and untracked identities, and aliases
lead to the same identities. Otherwise the file cannot be read. -/
theorem saved_reads_back {start : Registry}
    (hstart : start = .empty ∨ ∃ text, load text = .ok start) (decisions : List Decision) :
    let r := start.afterAll decisions
    ((∃ loaded, load (some r.save) = .ok loaded ∧ loaded.policies = r.policies ∧
        loaded.untracked = r.untracked ∧ ∀ text, loaded.resolve text = r.resolve text) ↔
      ∀ id, r.policies.contains id = true ∨ r.untracked.contains id = true →
        id.isPublicKey = true) ∧
    (load (some r.save) = .ok r ∨ load (some r.save) = .error .unreadable) := by
  intro r
  have hreached : r.Reached := reached_afterAll hstart decisions
  rw [← readable_policyFile_iff, load_save hreached]
  by_cases h : r.policyFile.Readable
  · rw [if_pos h]
    exact ⟨⟨fun _ => h, fun _ => ⟨r, rfl, rfl, rfl, fun _ => rfl⟩⟩, .inl rfl⟩
  · rw [if_neg h]
    refine ⟨⟨?_, fun hall => absurd hall h⟩, .inr rfl⟩
    rintro ⟨loaded, hloaded, -⟩
    cases hloaded

end Registry

/-! ### An identity without a public key -/

namespace NoKey

open Registry

/-- Bytes that name no point of the curve. -/
def nobody : PeerId :=
  ⟨.ofNat 32 0x0202020202020202020202020202020202020202020202020202020202020202⟩

set_option maxRecDepth 100000 in
/-- The bytes are no public key. -/
theorem isPublicKey_nobody : nobody.isPublicKey = false := by decide +kernel

/-- A registry in which only they are tracked is saved, but its file cannot be read. -/
theorem saved_not_read :
    load (some (Registry.empty.afterAll [.track nobody none .trusted]).save) =
      .error .unreadable := by
  rw [load_save (Reached.empty.afterAll _), if_neg]
  intro hkeys
  have hnobody := hkeys nobody (by decide)
  rw [isPublicKey_nobody] at hnobody
  cases hnobody

end NoKey

/-! ### An alias that is kept -/

namespace SharedAlias

open Registry

/-- Alice has the alias, and Bob is untracked. -/
def untracking : List Decision := [.trackText alice.hex (some "dev") .trusted, .untrack bob]

set_option maxRecDepth 100000 in
/-- Both have a public key. -/
theorem after_untracking : let r := Registry.empty.afterAll untracking
    r.policyFile.Readable ∧ r.resolve "dev" = .ok alice ∧ r.isUntracked bob = true := by
  decide +kernel

/-- The alias and the untracked identity are found in the file. -/
theorem alias_read_back : ∃ loaded,
    load (some (Registry.empty.afterAll untracking).save) = .ok loaded ∧
      loaded.resolve "dev" = .ok alice ∧ loaded.isUntracked bob = true := by
  obtain ⟨hreadable, hdev, hbob⟩ := after_untracking
  obtain ⟨loaded, hloaded, -, huntracked, hresolve⟩ :=
    (saved_reads_back (.inl rfl) untracking).1.mpr (readable_policyFile_iff.mp hreadable)
  refine ⟨loaded, hloaded, (hresolve _).trans hdev, ?_⟩
  rw [isUntracked, huntracked]
  exact hbob

end SharedAlias

end SignedRefs
