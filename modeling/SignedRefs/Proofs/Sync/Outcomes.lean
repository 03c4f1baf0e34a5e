import SignedRefs.Proofs.Ref.Replay
import SignedRefs.Proofs.Store.Independence
import SignedRefs.Proofs.Sync.Limits

/-!
# What an Outcome Says

The outcome of a request is read off the error with which the store refuses a manifest, after the
answer has been checked, its bytes have been read, and the manifest has been compared with its place
and its signature. What an answer comes down to is simpler than that. It brings a signed manifest
(`Answer.Brings`) or it does not, and the manifest can be written, is the one that is stored, is
another one with a number that is not higher, or does not fit. There is one rule for each of these
cases (`Answer.Leads`), and everything that an outcome says follows from the rules.

The limits come before all of this: bytes that are too many are not looked at, even if they encode
the manifest that is stored.

## Main results

* `Answer.leads_apply`: what an answer leads to, by the rules.
* `Answer.Leads.upToDate_iff`, `Answer.Leads.stale_iff`: what the two outcomes say that are told
  apart only by what is stored.
* `Answer.outcome_of_run`: what an outcome says about the answer and the store, after any run.
* `Oversized.same_not_up_to_date`: what is stored comes again, in too many bytes.
-/

namespace SignedRefs

/-! ### Answers that bring something -/

/-- A manifest is understood exactly if one was sent that keeps the limits. -/
theorem Reply.manifest_eq_ok_iff {reply : Reply} {found : Option Bytes} :
    reply.manifest = .ok found ↔ reply = .ok (.manifest found) ∧
      ∀ encoded, found = some encoded → encoded.length ≤ Limit.manifestBytes := by
  have hsent : Reply.manifest (.ok (.manifest found)) = .ok found ↔
      ∀ encoded, found = some encoded → encoded.length ≤ Limit.manifestBytes := by
    cases found with
    | none => exact iff_of_true rfl nofun
    | some encoded =>
        by_cases hlimit : Limit.manifestBytes < encoded.length
        · simp [Reply.manifest, Reply.checked, Response.validate, hlimit]
        · simp [Reply.manifest, Reply.checked, Response.validate, hlimit, Nat.le_of_not_lt]
  constructor
  · intro h
    obtain rfl := Reply.eq_of_manifest h
    exact ⟨rfl, hsent.mp h⟩
  · rintro ⟨rfl, hlimit⟩
    exact hsent.mpr hlimit

/-- Whether the reason is the number of the manifest. -/
def FailReason.isStale : FailReason → Bool
  | .stale _ _ => true
  | _ => false

namespace Answer

variable {answer : Answer} {store after : Store} {now : Int64} {repo : RepoId} {identity : PeerId}
  {before : Option Namespace} {signed : SignedManifest} {outcome : Outcome}

/-- The answer brings a signed manifest: its bytes keep the limit and can be read. -/
def Brings (answer : Answer) (signed : SignedManifest) : Prop :=
  ∃ encoded, answer = .replied (.ok (.manifest (some encoded))) ∧
    encoded.length ≤ Limit.manifestBytes ∧ SignedManifest.decode encoded = .ok signed

/-- The peer answers that it has no manifest. -/
def HasNone (answer : Answer) : Prop := answer = .replied (.ok (.manifest none))

/-- An answer brings one manifest. -/
theorem Brings.unique {other : SignedManifest} (h : answer.Brings signed)
    (h' : answer.Brings other) : signed = other := by
  obtain ⟨encoded, rfl, -, hdecode⟩ := h
  obtain ⟨_, ⟨⟩, -, hdecode'⟩ := h'
  rw [hdecode] at hdecode'
  exact Except.ok.inj hdecode'

/-- An answer that brings a manifest does not say that there is none. -/
theorem Brings.not_hasNone (h : answer.Brings signed) : ¬answer.HasNone := by
  obtain ⟨encoded, rfl, -⟩ := h
  rintro ⟨⟩

/-- The bytes that a request finds bring what can be read from them. -/
theorem brings_replied_iff {reply : Reply} : (Answer.replied reply).Brings signed ↔
    ∃ encoded, reply.manifest = .ok (some encoded) ∧
      SignedManifest.decode encoded = .ok signed := by
  simp only [Brings, Answer.replied.injEq, Reply.manifest_eq_ok_iff, Option.some.injEq,
    forall_eq', and_assoc]

/-! ### The rules -/

/-- The refs of a place, none if nothing is stored there. -/
def refsOf : Option Namespace → SortedMap RefName ObjectId
  | some found => found.manifest.refs
  | none => .empty

/-- What an answer leads to, if `before` is what is stored in its place: an outcome, and the store
afterwards. -/
inductive Leads (answer : Answer) (store : Store) (repo : RepoId) (identity : PeerId)
    (before : Option Namespace) : Outcome → Store → Prop
  /-- A manifest comes that may be written, and is. -/
  | applied {new : Namespace} {after : Store} (hbrings : answer.Brings new.signed)
      (haccept : Acceptable repo identity new.signed before)
      (hload : after.load repo identity = .ok (some new)) :
      Leads answer store repo identity before
        (.applied new.sequence (RefUpdate.diff (refsOf before) new.manifest.refs)) after
  /-- The one that is stored comes again. -/
  | same {old : Namespace} (hbefore : before = some old) (hbrings : answer.Brings old.signed) :
      Leads answer store repo identity before (.skipped (.upToDate old.sequence)) store
  /-- Another one comes that is good, but has no higher number. -/
  | stale {old : Namespace} {signed : SignedManifest} (hbefore : before = some old)
      (hbrings : answer.Brings signed) (hfits : Delivery.Fits ⟨repo, identity, signed⟩)
      (hother : signed ≠ old.signed) (hle : signed.manifest.sequence ≤ old.sequence) :
      Leads answer store repo identity before
        (.failed (.stale old.sequence signed.manifest.sequence)) store
  /-- There is none. -/
  | absent (hnone : answer.HasNone) :
      Leads answer store repo identity before (.skipped .notFound) store
  /-- Nothing comes that would fit, whatever is stored. -/
  | unfit {reason : FailReason} (hnone : ¬answer.HasNone)
      (hunfit : ∀ signed, answer.Brings signed → ¬Delivery.Fits ⟨repo, identity, signed⟩)
      (hreason : reason.isStale = false) :
      Leads answer store repo identity before (.failed reason) store

/-- A manifest that is accepted was acceptable. -/
theorem leads_of_replace (hload : store.load repo identity = .ok before)
    (hbrings : answer.Brings signed) {replaced : Store.Replaced}
    (hreplace : store.replace now repo identity signed = .ok (replaced, after)) :
    answer.Leads store repo identity before (.applied replaced.current.sequence
      (RefUpdate.diff (refsOf replaced.previous) replaced.current.manifest.refs)) after := by
  obtain ⟨hprevious, haccept, rfl, -, -⟩ := Store.replace_eq_ok_iff.mp hreplace
  obtain rfl : before = replaced.previous := Except.ok.inj (hload.symm.trans hprevious)
  have hnew := Store.load_of_replace hreplace repo identity
  rw [if_pos ⟨rfl, rfl⟩] at hnew
  exact .applied hbrings haccept hnew

/-- A manifest that is refused does not fit, or its number is not higher than the stored one:
nothing else forbids it when the checks are passed. -/
theorem leads_ofStoreError (hload : store.load repo identity = .ok before)
    (hbrings : answer.Brings signed) {error : StoreError}
    (hreplace : store.replace now repo identity signed = .error error) :
    answer.Leads store repo identity before (.ofStoreError signed error) store := by
  cases hcheck : Store.check now repo identity signed with
  | error fault =>
      rw [Store.replace_of_check_error hcheck] at hreplace
      obtain rfl := Except.error.inj hreplace
      have hunfit : ∀ other, answer.Brings other → ¬Delivery.Fits ⟨repo, identity, other⟩ := by
        intro other hother hfits
        rw [← hbrings.unique hother, ← Store.exists_check_iff now] at hfits
        obtain ⟨new, hnew⟩ := hfits
        rw [hcheck] at hnew
        cases hnew
      rcases Store.error_of_check hcheck with rfl | rfl | ⟨cause, rfl⟩
      · exact .unfit hbrings.not_hasNone hunfit rfl
      · exact .unfit hbrings.not_hasNone hunfit rfl
      · exact .unfit hbrings.not_hasNone hunfit rfl
  | ok new =>
      have hnot : ¬Acceptable repo identity signed before := fun haccept => by
        obtain ⟨done, hdone⟩ := Store.exists_replace hload haccept now
        rw [hreplace] at hdone
        cases hdone
      obtain ⟨old, rfl, hle⟩ := Store.exists_stored_of_not_acceptable hcheck hnot
      rw [Store.replace_of_stale hcheck hload hle] at hreplace
      obtain rfl := Except.error.inj hreplace
      obtain ⟨-, -, -, hsigned, -⟩ := Store.check_eq_ok_iff.mp hcheck
      rw [Namespace.sequence_of_signed hsigned] at hle ⊢
      rw [Outcome.ofStoreError]
      split
      · next hsame =>
          subst hsame
          exact .same rfl hbrings
      · next hother =>
          exact .stale rfl hbrings ((Store.exists_check_iff now).mp ⟨new, hcheck⟩)
            (Ne.symm hother) hle

/-- What bytes lead to that keep the limit. -/
theorem leads_applyEncoded (hload : store.load repo identity = .ok before) (now : Int64)
    {encoded : Bytes} (hlimit : encoded.length ≤ Limit.manifestBytes) :
    (Answer.replied (.ok (.manifest (some encoded)))).Leads store repo identity before
      (store.applyEncoded now repo identity encoded).1
      (store.applyEncoded now repo identity encoded).2 := by
  unfold Store.applyEncoded
  cases hdecode : SignedManifest.decode encoded with
  | error error =>
      refine .unfit ?_ ?_ rfl
      · rintro ⟨⟩
      · rintro signed ⟨_, ⟨⟩, -, hdecode'⟩
        rw [hdecode] at hdecode'
        cases hdecode'
  | ok signed =>
      have hbrings : (Answer.replied (.ok (.manifest (some encoded)))).Brings signed :=
        ⟨encoded, rfl, hlimit, hdecode⟩
      dsimp only
      cases hreplace : store.replace now repo identity signed with
      | error error => exact leads_ofStoreError hload hbrings hreplace
      | ok done =>
          have hleads := leads_of_replace hload hbrings hreplace
          obtain ⟨⟨previous, current⟩, after⟩ := done
          cases previous with
          | none => exact hleads
          | some previous => exact hleads

/-- What an answer leads to. -/
theorem leads_apply (answer : Answer) (hload : store.load repo identity = .ok before)
    (now : Int64) : answer.Leads store repo identity before
      (answer.apply store now repo identity).1 (answer.apply store now repo identity).2 := by
  cases answer with
  | timedOut =>
      refine .unfit ?_ ?_ rfl
      · rintro ⟨⟩
      · rintro signed ⟨_, ⟨⟩, -⟩
  | replied reply =>
      simp only [apply]
      cases hmanifest : reply.manifest with
      | error error =>
          have hnone : ¬(Answer.replied reply).HasNone := by
            rintro ⟨⟩
            cases hmanifest
          have hunfit : ∀ signed, (Answer.replied reply).Brings signed →
              ¬Delivery.Fits ⟨repo, identity, signed⟩ := by
            intro signed hbrings
            obtain ⟨encoded, hencoded, -⟩ := brings_replied_iff.mp hbrings
            rw [hmanifest] at hencoded
            cases hencoded
          cases error with
          | rejected code text => exact .unfit hnone hunfit rfl
          | _ => exact .unfit hnone hunfit rfl
      | ok found =>
          obtain ⟨rfl, hlimit⟩ := Reply.manifest_eq_ok_iff.mp hmanifest
          cases found with
          | none => exact .absent rfl
          | some encoded => exact leads_applyEncoded hload now (hlimit encoded rfl)

/-! ### What outcomes say -/

namespace Leads

/-- Only an outcome that says so changes the store. -/
theorem store_eq (h : answer.Leads store repo identity before outcome after)
    (hnot : outcome.isApplied = false) : after = store := by
  cases h with
  | applied => cases hnot
  | same => rfl
  | stale => rfl
  | absent => rfl
  | unfit => rfl

/-- A namespace was replaced exactly if the outcome says so. -/
theorem isApplied_iff (h : answer.Leads store repo identity before outcome after)
    (hload : store.load repo identity = .ok before) :
    outcome.isApplied = true ↔ after.load repo identity ≠ store.load repo identity := by
  cases happlied : outcome.isApplied with
  | false => simp [h.store_eq happlied]
  | true =>
      refine iff_of_true rfl fun hsame => ?_
      cases h with
      | @applied new _ _ haccept hnew =>
          rw [hnew, hload] at hsame
          exact UInt64.lt_irrefl _ (haccept.newer new (Except.ok.inj hsame).symm)
      | _ => cases happlied

/-- What is applied is what the answer brings. It has a higher number than what was there before,
and the changes lead to its refs. -/
theorem of_applied {sequence : UInt64} {updates : List RefUpdate}
    (h : answer.Leads store repo identity before (.applied sequence updates) after) :
    ∃ new, after.load repo identity = .ok (some new) ∧ answer.Brings new.signed ∧
      sequence = new.sequence ∧ (∀ old, before = some old → old.sequence < sequence) ∧
        updates.foldl RefUpdate.apply (refsOf before) = new.manifest.refs := by
  cases h with
  | @applied new _ hbrings haccept hnew =>
      exact ⟨new, hnew, hbrings, rfl, haccept.newer, RefUpdate.foldl_apply_diff (.refl _)⟩

/-- The outcome is that nothing was found exactly if the peer says so. -/
theorem notFound_iff (h : answer.Leads store repo identity before outcome after) :
    outcome = .skipped .notFound ↔ answer.HasNone := by
  cases h with
  | applied hbrings => exact iff_of_false nofun hbrings.not_hasNone
  | same _ hbrings => exact iff_of_false nofun hbrings.not_hasNone
  | stale _ hbrings => exact iff_of_false nofun hbrings.not_hasNone
  | absent hnone => exact iff_of_true rfl hnone
  | unfit hnone => exact iff_of_false nofun hnone

/-- Nothing is to be done exactly if the stored manifest comes again. -/
theorem upToDate_iff (h : answer.Leads store repo identity before outcome after)
    (hfits : ∀ old, before = some old → Delivery.Fits ⟨repo, identity, old.signed⟩)
    {sequence : UInt64} : outcome = .skipped (.upToDate sequence) ↔
      ∃ old, before = some old ∧ old.sequence = sequence ∧ answer.Brings old.signed := by
  constructor
  · rintro rfl
    cases h with
    | same hbefore hbrings => exact ⟨_, hbefore, rfl, hbrings⟩
  · rintro ⟨old, hbefore, rfl, hbrings⟩
    cases h with
    | @applied new _ hnew haccept =>
        have hlt := haccept.newer old hbefore
        rw [hnew.unique hbrings] at hlt
        exact absurd hlt (UInt64.lt_irrefl _)
    | same hbefore' =>
        rw [hbefore] at hbefore'
        cases hbefore'
        rfl
    | stale hbefore' hsigned _ hother =>
        rw [hbefore] at hbefore'
        cases hbefore'
        exact absurd (hsigned.unique hbrings) hother
    | absent hnone => exact absurd hnone hbrings.not_hasNone
    | unfit _ hunfit => exact absurd (hfits old hbefore) (hunfit _ hbrings)

/-- The answer is stale exactly if another manifest comes that is good, but has no higher number. -/
theorem stale_iff (h : answer.Leads store repo identity before outcome after)
    {stored received : UInt64} : outcome = .failed (.stale stored received) ↔
      ∃ old signed, before = some old ∧ answer.Brings signed ∧
        Delivery.Fits ⟨repo, identity, signed⟩ ∧ signed ≠ old.signed ∧
          signed.manifest.sequence ≤ old.sequence ∧ stored = old.sequence ∧
            received = signed.manifest.sequence := by
  constructor
  · rintro rfl
    cases h with
    | stale hbefore hbrings hfits hother hle =>
        exact ⟨_, _, hbefore, hbrings, hfits, hother, hle, rfl, rfl⟩
    | unfit _ _ hreason => cases hreason
  · rintro ⟨old, signed, hbefore, hbrings, hfits, hother, hle, rfl, rfl⟩
    cases h with
    | @applied new _ hnew haccept =>
        have hlt := haccept.newer old hbefore
        rw [hnew.unique hbrings] at hlt
        exact absurd hle (UInt64.not_le.mpr hlt)
    | same hbefore' hold =>
        rw [hbefore] at hbefore'
        cases hbefore'
        exact absurd (hbrings.unique hold) hother
    | stale hbefore' hsigned =>
        rw [hbefore] at hbefore'
        cases hbefore'
        rw [hsigned.unique hbrings]
    | absent hnone => exact absurd hnone hbrings.not_hasNone
    | unfit _ hunfit => exact absurd hfits (hunfit _ hbrings)

end Leads

/-- In a store after any run, the outcome of an answer says what has happened. It is `applied`
exactly if the namespace was replaced: then it names the new number, which is higher than the one
before, and the changes lead from the refs before to the new ones. With any other outcome the store
is as it was. Nothing is to be done exactly if the answer brings the very manifest that is stored,
or if the peer answers that it has none; and the answer is stale exactly if it brings another one
that the identity signed for the repository, with a number that is not above the stored one. -/
theorem outcome_of_run (backend : Backend) (operations : List Operation) (answer : Answer)
    (now : Int64) (repo : RepoId) (identity : PeerId) :
    let store := backend.newStore.afterAll operations
    let outcome := (answer.apply store now repo identity).1
    let after := (answer.apply store now repo identity).2
    ∃ before, store.load repo identity = .ok before ∧
      (outcome.isApplied = true ↔ after.load repo identity ≠ store.load repo identity) ∧
      (∀ sequence updates, outcome = .applied sequence updates →
        (∃ new, after.load repo identity = .ok (some new) ∧ answer.Brings new.signed ∧
          sequence = new.sequence ∧ (∀ old, before = some old → old.sequence < sequence) ∧
            updates.foldl RefUpdate.apply (refsOf before) = new.manifest.refs) ∧
          ∀ repo' identity', ¬(repo' = repo ∧ identity' = identity) →
            after.load repo' identity' = store.load repo' identity') ∧
      (outcome.isApplied = false → after = store) ∧
      (∀ sequence, outcome = .skipped (.upToDate sequence) ↔
        ∃ old, before = some old ∧ old.sequence = sequence ∧ answer.Brings old.signed) ∧
      (outcome = .skipped .notFound ↔ answer = .replied (.ok (.manifest none))) ∧
      ∀ stored received, outcome = .failed (.stale stored received) ↔
        ∃ old signed, before = some old ∧ answer.Brings signed ∧
          Delivery.Fits ⟨repo, identity, signed⟩ ∧ signed ≠ old.signed ∧
            signed.manifest.sequence ≤ old.sequence ∧ stored = old.sequence ∧
              received = signed.manifest.sequence := by
  intro store outcome after
  have hauthentic : store.Authentic := (Store.authentic_newStore backend).afterAll operations
  obtain ⟨before, hload, hbefore⟩ := hauthentic repo identity
  have hleads : answer.Leads store repo identity before outcome after :=
    answer.leads_apply hload now
  refine ⟨before, hload, hleads.isApplied_iff hload, fun sequence updates happlied => ⟨?_, ?_⟩,
    hleads.store_eq, fun sequence => ?_, hleads.notFound_iff, fun stored received =>
      hleads.stale_iff⟩
  · rw [happlied] at hleads
    exact hleads.of_applied
  · exact fun repo' identity' hne => answer.load_apply_of_ne store now hne
  · exact hleads.upToDate_iff fun old hold => (hbefore old hold).fits

/-- Bytes that are too many are not looked at. -/
theorem apply_of_too_long {encoded : Bytes} (h : Limit.manifestBytes < encoded.length)
    (store : Store) (now : Int64) (repo : RepoId) (identity : PeerId) :
    (Answer.replied (.ok (.manifest (some encoded)))).apply store now repo identity =
      (.failed (.exchange (.response (.limit .manifest))), store) := by
  simp [apply, Reply.manifest, Reply.checked, Response.validate, h]

end Answer

namespace Oversized

/-- The manifest that is stored comes again, in more bytes than a response may have: it is not
recognised as the same. -/
theorem same_not_up_to_date :
    let store := Backend.database.newStore.afterAll [.write (.put 1700000000000 repo signed)]
    ∃ encoded, SignedManifest.decode encoded = .ok signed ∧
      store.held repo owner = .ok (some signed) ∧
        ((Answer.replied (.ok (.manifest (some encoded)))).apply store 1700000000001 repo owner).1 =
          .failed (.exchange (.response (.limit .manifest))) := by
  intro store
  have hsize : Limit.manifestBytes < signed.wireSize := by
    rw [wireSize_signed]
    decide
  obtain ⟨⟨found, hload, hfound⟩, -⟩ :=
    Store.not_within_limits .database 1700000000000 acceptable_signed hsize
  obtain ⟨encoded, -, hdecode, hlength⟩ := Store.respond_manifest_of_load hload 1700000000001
  rw [hfound] at hdecode hlength
  refine ⟨encoded, hdecode, Store.held_eq_some_iff.mpr ⟨found, hload, hfound⟩, ?_⟩
  rw [Answer.apply_of_too_long (hlength ▸ hsize)]

end Oversized

end SignedRefs
