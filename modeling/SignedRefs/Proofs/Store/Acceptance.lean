import SignedRefs.Proofs.Store.Keeping
import SignedRefs.Sync.Exchange

/-!
# What a Store Accepts

A signed manifest can reach a store in three ways: it is written under a repository and an identity,
it is put under its own identity, or a peer pushes it. All three go through `Store.replace`, and so
one rule decides (`Acceptable`). A run is a list of such writes; the store keeps account of what it
accepted in the sense that what is stored in a place carries the last number accepted there
(`Agrees`). This is the invariant of a run.

## Main results

* `Store.error_of_check`: what the checks can find at fault.
* `Store.replace_eq_ok_iff`: when a replacement succeeds, and what it does.
* `Store.replace_of_load`: the rule where look-ups succeed.
* `Store.perform_cases`: what a write can do.
* `Agrees.perform`, `Agrees.run`: a write and a run keep account.
* `Store.acceptance_of_run`: the rule after any run, and the order of what was accepted in it.
-/

namespace SignedRefs

/-! ### The rule -/

/-- When a signed manifest may be written under a repository and an identity, if `before` is what
is stored there. -/
structure Acceptable (repo : RepoId) (identity : PeerId) (signed : SignedManifest)
    (before : Option Namespace) : Prop where
  /-- It is a manifest of the identity. -/
  identity_eq : signed.manifest.identity = identity
  /-- It is one for the repository. -/
  repo_eq : signed.manifest.repo = repo
  /-- It follows the rules for manifests. -/
  valid : signed.manifest.validate = .ok ()
  /-- The identity signed it. -/
  signature : ∃ message, signed.manifest.signingBytes = .ok message ∧
    identity.verify message signed.signature = .ok ()
  /-- Nothing with this number or a higher one is stored. -/
  newer : ∀ stored, before = some stored → stored.sequence < signed.manifest.sequence

/-- A signed manifest verifies if it follows the rules and the signature over its form is its
owner's. -/
theorem SignedManifest.verify_eq_ok_iff {s : SignedManifest} :
    s.verify = .ok () ↔ ∃ message, s.manifest.signingBytes = .ok message ∧
      s.manifest.identity.verify message s.signature = .ok () := by
  rw [SignedManifest.verify, bind_eq_ok_iff]

namespace Store

variable {store after : Store} {now : Int64} {repo : RepoId} {identity : PeerId}
  {signed : SignedManifest} {replaced : Replaced}

/-- The checks that do not look at what is stored. -/
theorem check_eq_ok_iff {new : Namespace} :
    check now repo identity signed = .ok new ↔ signed.manifest.identity = identity ∧
      signed.manifest.repo = repo ∧ signed.verify = .ok () ∧ new.signed = signed ∧
        new.receivedAt = now := by
  rw [check]
  by_cases hidentity : signed.manifest.identity = identity
  · by_cases hrepo : signed.manifest.repo = repo
    · cases hverify : signed.verify with
      | error error => simp [hidentity, hrepo]
      | ok _ =>
          rw [← Namespace.ofSigned_eq_ok_iff]
          cases Namespace.ofSigned signed now with
          | error error => simp [hidentity, hrepo]
          | ok found => simp [hidentity, hrepo]
    · simp [hidentity, hrepo]
  · simp [hidentity]

/-- The fault that the checks find lies in the manifest: its signature, its owner or its form. -/
theorem error_of_check {error : StoreError} (h : check now repo identity signed = .error error) :
    error = .invalidSignature identity ∨
      error = .identityMismatch identity signed.manifest.identity ∨
        ∃ cause, error = .malformed cause := by
  rw [check] at h
  split at h
  · exact .inr (.inl (Except.error.inj h).symm)
  · split at h
    · exact .inr (.inr ⟨_, (Except.error.inj h).symm⟩)
    · split at h
      · next cause _ =>
          obtain rfl := Except.error.inj h
          cases cause <;> simp [StoreError.ofRecord]
      · split at h
        · exact .inr (.inr ⟨_, (Except.error.inj h).symm⟩)
        · cases h

/-- What is acceptable passes the checks and has a higher number than what is stored. -/
theorem acceptable_iff {new : Namespace} {before : Option Namespace} (hsigned : new.signed = signed)
    (hnow : new.receivedAt = now) :
    Acceptable repo identity signed before ↔ check now repo identity signed = .ok new ∧
      ∀ stored, before = some stored → stored.sequence < new.sequence := by
  rw [check_eq_ok_iff, SignedManifest.verify_eq_ok_iff, Namespace.sequence_of_signed hsigned]
  constructor
  · rintro ⟨rfl, rfl, -, hsignature, hnewer⟩
    exact ⟨⟨rfl, rfl, hsignature, hsigned, hnow⟩, hnewer⟩
  · rintro ⟨⟨rfl, rfl, ⟨message, hmessage, hkey⟩, -, -⟩, hnewer⟩
    have hvalid := (Manifest.signingBytes_eq_ok_iff.mp hmessage).1
    exact ⟨rfl, rfl, hvalid, ⟨message, hmessage, hkey⟩, hnewer⟩

/-- What passes the checks and is not acceptable has no higher number than what is stored. -/
theorem exists_stored_of_not_acceptable {new : Namespace} {before : Option Namespace}
    (hcheck : check now repo identity signed = .ok new)
    (h : ¬Acceptable repo identity signed before) :
    ∃ stored, before = some stored ∧ new.sequence ≤ stored.sequence := by
  obtain ⟨-, -, -, hsigned, hnow⟩ := check_eq_ok_iff.mp hcheck
  rw [acceptable_iff hsigned hnow] at h
  obtain ⟨stored, hstored, hle⟩ := not_forall₂.mp (not_and.mp h hcheck)
  exact ⟨stored, hstored, UInt64.not_lt.mp hle⟩

/-- A replacement succeeds for what is acceptable, and saves the namespace made of it. -/
theorem replace_eq_ok_iff :
    store.replace now repo identity signed = .ok (replaced, after) ↔
      store.load repo identity = .ok replaced.previous ∧
        Acceptable repo identity signed replaced.previous ∧ replaced.current.signed = signed ∧
          replaced.current.receivedAt = now ∧ store.save replaced.current = .ok after := by
  obtain ⟨previous, current⟩ := replaced
  simp only [replace, bind_eq_ok_iff]
  constructor
  · rintro ⟨new, hcheck, found, hload, hwrite⟩
    obtain ⟨-, -, -, hsigned, hnow⟩ := check_eq_ok_iff.mp hcheck
    cases found with
    | none =>
        obtain ⟨saved, hsave, hdone⟩ := bind_eq_ok_iff.mp hwrite
        cases hdone
        exact ⟨hload, (acceptable_iff hsigned hnow).mpr ⟨hcheck, by simp⟩, hsigned, hnow, hsave⟩
    | some stored =>
        by_cases hstale : new.sequence ≤ stored.sequence
        · simp [hstale, throw, throwThe, MonadExceptOf.throw] at hwrite
        · simp only [hstale, if_false] at hwrite
          obtain ⟨saved, hsave, hdone⟩ := bind_eq_ok_iff.mp hwrite
          cases hdone
          refine ⟨hload, (acceptable_iff hsigned hnow).mpr ⟨hcheck, ?_⟩, hsigned, hnow, hsave⟩
          rintro _ ⟨⟩
          exact UInt64.not_le.mp hstale
  · rintro ⟨hload, haccept, hsigned, hnow, hsave⟩
    obtain ⟨hcheck, hnewer⟩ := (acceptable_iff hsigned hnow).mp haccept
    refine ⟨current, hcheck, previous, hload, ?_⟩
    cases previous with
    | none => exact bind_eq_ok_iff.mpr ⟨after, hsave, rfl⟩
    | some stored =>
        simp only [UInt64.not_le.mpr (hnewer stored rfl), if_false]
        exact bind_eq_ok_iff.mpr ⟨after, hsave, rfl⟩

/-- Where look-ups succeed, what is acceptable is accepted. -/
theorem exists_replace {before : Option Namespace} (hload : store.load repo identity = .ok before)
    (haccept : Acceptable repo identity signed before) (now : Int64) :
    ∃ done, store.replace now repo identity signed = .ok done := by
  obtain ⟨new, hnew⟩ := Namespace.exists_ofSigned haccept.valid now
  obtain ⟨hsigned, hnow⟩ := Namespace.ofSigned_eq_ok_iff.mp hnew
  obtain ⟨after, hsave⟩ := exists_save hload new
  exact ⟨(⟨before, new⟩, after), replace_eq_ok_iff.mpr ⟨hload, haccept, hsigned, hnow, hsave⟩⟩

/-- What is written is found in its place, and everything else where it was. -/
theorem load_of_replace (h : store.replace now repo identity signed = .ok (replaced, after))
    (repo' : RepoId) (identity' : PeerId) :
    after.load repo' identity' =
      if repo' = repo ∧ identity' = identity then .ok (some replaced.current)
      else store.load repo' identity' := by
  obtain ⟨-, haccept, hsigned, -, hsave⟩ := replace_eq_ok_iff.mp h
  rw [load_of_save hsave, Namespace.repo_of_signed hsigned, haccept.repo_eq,
    Namespace.identity_of_signed hsigned, haccept.identity_eq]

/-- The rule in a place where look-ups succeed: what is acceptable is accepted, then it stands in
its place, and nothing else has changed. -/
theorem replace_of_load {before : Option Namespace} (hload : store.load repo identity = .ok before)
    (now : Int64) (signed : SignedManifest) :
    ((∃ done, store.replace now repo identity signed = .ok done) ↔
        Acceptable repo identity signed before) ∧
      ∀ replaced after, store.replace now repo identity signed = .ok (replaced, after) →
        replaced.previous = before ∧ replaced.current.signed = signed ∧
          replaced.current.receivedAt = now ∧
          after.load repo identity = .ok (some replaced.current) ∧
          ∀ repo' identity', ¬(repo' = repo ∧ identity' = identity) →
            after.load repo' identity' = store.load repo' identity' := by
  have hprevious : ∀ {replaced after}, store.replace now repo identity signed =
      .ok (replaced, after) → replaced.previous = before := fun hreplace => by
    have hfound := (replace_eq_ok_iff.mp hreplace).1
    rw [hload] at hfound
    cases hfound
    rfl
  refine ⟨⟨?_, fun haccept => exists_replace hload haccept now⟩, fun replaced after hreplace => ?_⟩
  · rintro ⟨⟨replaced, after⟩, hreplace⟩
    exact hprevious hreplace ▸ (replace_eq_ok_iff.mp hreplace).2.1
  · obtain ⟨-, -, hsigned, hnow, -⟩ := replace_eq_ok_iff.mp hreplace
    refine ⟨hprevious hreplace, hsigned, hnow, ?_, fun repo' identity' hne => ?_⟩
    · rw [load_of_replace hreplace, if_pos ⟨rfl, rfl⟩]
    · rw [load_of_replace hreplace, if_neg hne]

end Store

/-! ### Writes and runs -/

/-- A way to write to a store. -/
inductive Write
  /-- A signed manifest is written under a repository and an identity. -/
  | replace (now : Int64) (repo : RepoId) (identity : PeerId) (signed : SignedManifest)
  /-- A signed manifest is put under its own identity. -/
  | put (now : Int64) (repo : RepoId) (signed : SignedManifest)
  /-- A request of another peer is answered. -/
  | serve (now : Int64) (request : Request)

/-- That a manifest was accepted. -/
structure Accepted where
  /-- Where it was written. -/
  place : Place
  /-- Its number. -/
  sequence : UInt64
deriving DecidableEq

/-- What a response says to have been accepted. -/
def Accepted.ofResponse? : Request → Response → Option Accepted
  | .push repo identity _, .accepted sequence => some ⟨⟨repo, identity⟩, sequence⟩
  | _, _ => none

/-- A response that reports a failure stands for nothing accepted. -/
theorem Accepted.ofResponse?_failure (request : Request) (code : ErrorCode) (text : String) :
    ofResponse? request (.failure code text) = none := by
  cases request <;> rfl

namespace Store

/-- What a write says to have been accepted, and the store afterwards. -/
def perform (store : Store) : Write → Option Accepted × Store
  | .replace now repo identity signed =>
    match store.replace now repo identity signed with
    | .ok (replaced, after) => (some ⟨⟨repo, identity⟩, replaced.current.sequence⟩, after)
    | .error _ => (none, store)
  | .put now repo signed =>
    match store.put now repo signed with
    | .ok (current, after) => (some ⟨⟨repo, signed.manifest.identity⟩, current.sequence⟩, after)
    | .error _ => (none, store)
  | .serve now request =>
    let (response, after) := store.respond now request
    (Accepted.ofResponse? request response, after)

/-- What is accepted in a run, in order, and the store afterwards. -/
def run (store : Store) : List Write → List Accepted × Store
  | [] => ([], store)
  | write :: rest =>
    let (accepted, after) := store.perform write
    let (later, last) := after.run rest
    (accepted.toList ++ later, last)

/-- A request is answered without touching the store, or it pushes what is accepted. -/
theorem respond_cases (store : Store) (now : Int64) (request : Request) :
    (Accepted.ofResponse? request (store.respond now request).1 = none ∧
        (store.respond now request).2 = store) ∨
      ∃ repo identity encoded signed replaced after, request = .push repo identity encoded ∧
        SignedManifest.decode encoded = .ok signed ∧
          store.replace now repo identity signed = .ok (replaced, after) ∧
            store.respond now request = (.accepted replaced.current.sequence, after) := by
  unfold respond
  cases request.validate with
  | error fault => exact .inl ⟨Accepted.ofResponse?_failure _ _ _, rfl⟩
  | ok _ =>
      cases request with
      | namespaces repo => exact .inl ⟨rfl, rfl⟩
      | manifest repo identity => exact .inl ⟨rfl, rfl⟩
      | push repo identity encoded =>
          dsimp only
          unfold respondPush
          cases hdecode : SignedManifest.decode encoded with
          | error error => exact .inl ⟨Accepted.ofResponse?_failure _ _ _, rfl⟩
          | ok signed =>
              dsimp only
              cases h : store.replace now repo identity signed with
              | error error => exact .inl ⟨Accepted.ofResponse?_failure _ _ _, rfl⟩
              | ok done =>
                  exact .inr ⟨repo, identity, encoded, signed, done.1, done.2, rfl, hdecode, h, rfl⟩

/-- A write leaves the store as it was, or replaces one namespace and says so. -/
theorem perform_cases (store : Store) (write : Write) :
    store.perform write = (none, store) ∨
      ∃ now repo identity signed replaced after,
        store.replace now repo identity signed = .ok (replaced, after) ∧
          store.perform write = (some ⟨⟨repo, identity⟩, replaced.current.sequence⟩, after) := by
  cases write with
  | replace now repo identity signed =>
      rw [perform]
      cases h : store.replace now repo identity signed with
      | error error => exact .inl rfl
      | ok done => exact .inr ⟨now, repo, identity, signed, done.1, done.2, h, rfl⟩
  | put now repo signed =>
      rw [perform, put]
      cases h : store.replace now repo signed.manifest.identity signed with
      | error error => exact .inl rfl
      | ok done => exact .inr ⟨now, repo, _, signed, done.1, done.2, h, rfl⟩
  | serve now request =>
      simp only [perform]
      rcases respond_cases store now request with ⟨hnone, hstore⟩ | ⟨repo, identity, encoded,
        signed, replaced, after, rfl, -, hreplace, hrespond⟩
      · exact .inl (Prod.ext hnone hstore)
      · exact .inr ⟨now, repo, identity, signed, replaced, after, hreplace, by rw [hrespond]; rfl⟩

/-- What is not accepted leaves the store alone. -/
theorem perform_of_none {store : Store} {write : Write} (h : (store.perform write).1 = none) :
    (store.perform write).2 = store := by
  rcases store.perform_cases write with hnone | ⟨_, _, _, _, _, _, _, hsome⟩
  · rw [hnone]
  · rw [hsome] at h
    cases h

/-- What is accepted replaced a namespace. -/
theorem perform_of_some {store : Store} {write : Write} {accepted : Accepted}
    (h : (store.perform write).1 = some accepted) : ∃ now signed replaced,
      store.replace now accepted.place.repo accepted.place.identity signed =
        .ok (replaced, (store.perform write).2) ∧
          replaced.current.sequence = accepted.sequence := by
  rcases store.perform_cases write with hnone | ⟨now, repo, identity, signed, replaced, after,
    hreplace, hsome⟩
  · rw [hnone] at h
    cases h
  · rw [hsome] at h ⊢
    cases h
    exact ⟨now, signed, replaced, hreplace, rfl⟩

end Store

/-! ### Accounts -/

/-- The numbers that were accepted in a place, in order. -/
def acceptedAt (log : List Accepted) (place : Place) : List UInt64 :=
  (log.filter fun accepted => accepted.place = place).map Accepted.sequence

/-- In every place of the store is what was accepted last, and the numbers went up. -/
structure Agrees (store : Store) (log : List Accepted) : Prop where
  /-- Look-ups succeed, with the last number. -/
  stored : ∀ repo identity, ∃ found, store.load repo identity = .ok found ∧
    (acceptedAt log ⟨repo, identity⟩).getLast? = found.map Namespace.sequence
  /-- The numbers in a place went up. -/
  increasing : ∀ place, (acceptedAt log place).Pairwise (· < ·)

/-- What is accepted counts in its own place only, after what was accepted before. -/
theorem acceptedAt_append (log : List Accepted) (accepted : Accepted) (place : Place) :
    acceptedAt (log ++ [accepted]) place =
      if accepted.place = place then acceptedAt log place ++ [accepted.sequence]
      else acceptedAt log place := by
  rw [acceptedAt, List.filter_append, List.map_append]
  by_cases h : accepted.place = place
  · simp [h, acceptedAt]
  · simp [h, acceptedAt]

/-- Where the numbers go up, the last one is the highest. -/
theorem lt_of_lt_getLast? {l : List UInt64} (h : l.Pairwise (· < ·)) {last next : UInt64}
    (hlast : l.getLast? = some last) (hlt : last < next) : ∀ n ∈ l, n < next := by
  obtain ⟨init, rfl⟩ := List.getLast?_eq_some_iff.mp hlast
  intro n hn
  rcases List.mem_append.mp hn with hinit | hmem
  · have hbelow := (List.pairwise_append.mp h).2.2 n hinit last (by simp)
    exact UInt64.lt_trans hbelow hlt
  · rwa [List.mem_singleton.mp hmem]

/-- If the numbers go up in every place, nothing was accepted twice. -/
theorem nodup_of_increasing {log : List Accepted}
    (h : ∀ place, (acceptedAt log place).Pairwise (· < ·)) : log.Nodup := by
  induction log with
  | nil => exact List.nodup_nil
  | cons accepted log ih =>
      refine List.nodup_cons.mpr ⟨fun hmem => ?_, ih fun place => ?_⟩
      · have hfirst : acceptedAt (accepted :: log) accepted.place =
            accepted.sequence :: acceptedAt log accepted.place := by simp [acceptedAt]
        have hpairs := h accepted.place
        rw [hfirst] at hpairs
        have hagain : accepted.sequence ∈ acceptedAt log accepted.place :=
          List.mem_map.mpr ⟨accepted, List.mem_filter.mpr ⟨hmem, by simp⟩, rfl⟩
        exact UInt64.lt_irrefl _ ((List.pairwise_cons.mp hpairs).1 _ hagain)
      · have hsub : (acceptedAt log place).Sublist (acceptedAt (accepted :: log) place) :=
          ((List.sublist_cons_self accepted log).filter _).map _
        exact (h place).sublist hsub

namespace Agrees

variable {store : Store} {log : List Accepted}

/-- A replacement is entered in the account. -/
theorem replace (h : Agrees store log) {now : Int64} {repo : RepoId} {identity : PeerId}
    {signed : SignedManifest} {replaced : Store.Replaced} {after : Store}
    (hreplace : store.replace now repo identity signed = .ok (replaced, after)) :
    Agrees after (log ++ [⟨⟨repo, identity⟩, replaced.current.sequence⟩]) := by
  obtain ⟨hload, haccept, hsigned, -, -⟩ := Store.replace_eq_ok_iff.mp hreplace
  refine ⟨fun repo' identity' => ?_, fun place => ?_⟩
  · rw [Store.load_of_replace hreplace, acceptedAt_append]
    by_cases hplace : repo' = repo ∧ identity' = identity
    · obtain ⟨rfl, rfl⟩ := hplace
      exact ⟨some replaced.current, by simp, by simp⟩
    · have hne : ¬(⟨repo, identity⟩ : Place) = ⟨repo', identity'⟩ := by
        rintro ⟨⟩
        exact hplace ⟨rfl, rfl⟩
      rw [if_neg hplace, if_neg hne]
      exact h.stored repo' identity'
  · rw [acceptedAt_append]
    by_cases hplace : (⟨repo, identity⟩ : Place) = place
    · subst hplace
      rw [if_pos rfl]
      obtain ⟨found, hfound, hlast⟩ := h.stored repo identity
      rw [hload] at hfound
      cases hfound
      refine List.pairwise_append.mpr ⟨h.increasing _, List.pairwise_singleton _ _, ?_⟩
      intro n hn next hnext
      obtain rfl := List.mem_singleton.mp hnext
      cases hprevious : replaced.previous with
      | none =>
          rw [hprevious] at hlast
          rw [List.getLast?_eq_none_iff.mp hlast] at hn
          cases hn
      | some stored =>
          rw [hprevious] at hlast
          have hlt : stored.sequence < replaced.current.sequence := by
            rw [Namespace.sequence_of_signed hsigned]
            exact haccept.newer stored hprevious
          exact lt_of_lt_getLast? (h.increasing _) hlast hlt n hn
    · rw [if_neg hplace]
      exact h.increasing place

/-- Every write keeps account. -/
theorem perform (h : Agrees store log) (write : Write) :
    Agrees (store.perform write).2 (log ++ (store.perform write).1.toList) := by
  rcases store.perform_cases write with hnone | ⟨now, repo, identity, signed, replaced, after,
    hreplace, hsome⟩
  · rw [hnone]
    simpa using h
  · rw [hsome]
    exact h.replace hreplace

/-- Every run keeps account. -/
theorem run (h : Agrees store log) (writes : List Write) :
    Agrees (store.run writes).2 (log ++ (store.run writes).1) := by
  induction writes generalizing store log with
  | nil => simpa [Store.run] using h
  | cons write rest ih =>
      have hrest := ih (h.perform write)
      rw [List.append_assoc] at hrest
      exact hrest

/-- A new store keeps account of nothing. -/
theorem start (h : ∀ repo identity, store.load repo identity = .ok none) : Agrees store [] :=
  ⟨fun repo identity => ⟨none, h repo identity, rfl⟩, fun _ => List.Pairwise.nil⟩

end Agrees

/-! ### Stores after a run -/

/-- Where a new store keeps its namespaces. -/
inductive Backend
  /-- In memory. -/
  | memory
  /-- In a database. -/
  | database
deriving DecidableEq

/-- A store without namespaces. -/
def Backend.newStore : Backend → Store
  | .memory => .inMemory
  | .database => .inDatabase

/-- A new store has nothing anywhere. -/
theorem Backend.load_newStore (backend : Backend) (repo : RepoId) (identity : PeerId) :
    backend.newStore.load repo identity = .ok none := by
  cases backend with
  | memory => rfl
  | database => rfl

/-- After any run of writes, a signed manifest can be written exactly where it is acceptable, and
then it stands in its place and nothing else has changed. A write that is not accepted leaves the
store alone, and one that is accepted replaced a namespace by this rule. The numbers accepted in a
place go up, so nothing is accepted twice. -/
theorem Store.acceptance_of_run (backend : Backend) (writes : List Write) :
    let log := (backend.newStore.run writes).1
    let store := (backend.newStore.run writes).2
    (∀ now repo identity signed, ∃ before, store.load repo identity = .ok before ∧
      ((∃ done, store.replace now repo identity signed = .ok done) ↔
        Acceptable repo identity signed before) ∧
      ∀ replaced after, store.replace now repo identity signed = .ok (replaced, after) →
        replaced.previous = before ∧ replaced.current.signed = signed ∧
          replaced.current.receivedAt = now ∧
          after.load repo identity = .ok (some replaced.current) ∧
          ∀ repo' identity', ¬(repo' = repo ∧ identity' = identity) →
            after.load repo' identity' = store.load repo' identity') ∧
    (∀ write, (store.perform write).1 = none → (store.perform write).2 = store) ∧
    (∀ write accepted, (store.perform write).1 = some accepted → ∃ now signed replaced,
      store.replace now accepted.place.repo accepted.place.identity signed =
        .ok (replaced, (store.perform write).2) ∧
          replaced.current.sequence = accepted.sequence) ∧
    (∀ place, (acceptedAt log place).Pairwise (· < ·)) ∧ log.Nodup := by
  intro log store
  have hagrees : Agrees store log := (Agrees.start backend.load_newStore).run writes
  refine ⟨fun now repo identity signed => ?_, fun _ => perform_of_none,
    fun _ _ => perform_of_some, hagrees.increasing, nodup_of_increasing hagrees.increasing⟩
  obtain ⟨before, hload, -⟩ := hagrees.stored repo identity
  exact ⟨before, hload, replace_of_load hload now signed⟩

end SignedRefs
