import SignedRefs.Proofs.Store.Delivery
import SignedRefs.Proofs.Store.Listing

/-!
# Two Backends, One Store

Whether a store keeps its namespaces in memory or in a database cannot be seen from its answers.
Both answer as the contents do (`Contents.Answers`), which are a namespace or none in every place
and know nothing of maps, rows or encodings. One call of a store that holds some contents is
answered by them, and leaves a store that holds the contents after the call; so a list of calls is
answered alike by whatever store held the same contents before.

## Main results

* `Store.Holds.writeOutcome_replace`: a write does the same to a store and to its contents.
* `Store.Holds.call`: a call keeps a store and the contents in step.
* `Contents.Follows.unique`: the contents leave no choice of answers.
* `Store.backends_agree`: the answers of new stores.
-/

namespace SignedRefs

/-! ### Calls -/

/-- A call of a store, with the time at which something is written. -/
inductive StoreCall
  /-- Writes a signed manifest under a repository and an identity, and asks what it replaces. -/
  | replace (now : Int64) (repo : RepoId) (identity : PeerId) (signed : SignedManifest)
  /-- Writes a signed manifest under a repository and an identity. -/
  | put (now : Int64) (repo : RepoId) (identity : PeerId) (signed : SignedManifest)
  /-- Writes a signed manifest under its own identity. -/
  | putSigned (now : Int64) (repo : RepoId) (signed : SignedManifest)
  /-- Asks for the namespace of an identity, which has to be there. -/
  | get (repo : RepoId) (identity : PeerId)
  /-- Asks for the namespace of an identity. -/
  | tryGet (repo : RepoId) (identity : PeerId)
  /-- Walks through the identities of a repository. -/
  | namespaces (repo : RepoId)
  /-- Asks for all namespaces of a repository. -/
  | snapshot (repo : RepoId)
  /-- Asks for the repositories. -/
  | repositories

/-- What a call returns if it succeeds. -/
inductive StoreAnswer
  /-- What a replacement did. -/
  | replaced (replaced : Store.Replaced)
  /-- The namespace that is stored now. -/
  | stored (stored : Namespace)
  /-- What was found. -/
  | found (found : Option Namespace)
  /-- A walk through identities. -/
  | namespaces (cursor : IdentityCursor)
  /-- All namespaces of a repository. -/
  | snapshot (snapshot : Snapshot)
  /-- The repositories. -/
  | repositories (repos : List RepoId)

/-- What a call returns. -/
abbrev StoreResult := Except StoreError StoreAnswer

/-- What a write returns, and what is there afterwards: an error changes nothing. -/
def writeOutcome {State β : Type} (before : State) (answer : β → StoreAnswer) :
    Except StoreError (β × State) → StoreResult × State
  | .ok (done, after) => (.ok (answer done), after)
  | .error error => (.error error, before)

namespace Store

/-- What a call returns, and the store afterwards. -/
def call (store : Store) : StoreCall → StoreResult × Store
  | .replace now repo identity signed =>
    writeOutcome store .replaced (store.replace now repo identity signed)
  | .put now repo identity signed =>
    writeOutcome store (fun replaced => .stored replaced.current)
      (store.replace now repo identity signed)
  | .putSigned now repo signed => writeOutcome store .stored (store.put now repo signed)
  | .get repo identity => ((store.get repo identity).map .stored, store)
  | .tryGet repo identity => ((store.load repo identity).map .found, store)
  | .namespaces repo => ((store.identities repo).map fun ids => .namespaces (.ofList ids), store)
  | .snapshot repo => ((store.snapshot repo).map .snapshot, store)
  | .repositories => (store.repositories.map .repositories, store)

/-- What calls return one after another, and the store afterwards. -/
def callAll (store : Store) : List StoreCall → List StoreResult × Store
  | [] => ([], store)
  | call :: rest =>
    let (result, after) := store.call call
    let (results, last) := after.callAll rest
    (result :: results, last)

end Store

/-! ### The contents answer -/

namespace Contents

/-- Nothing in any place. -/
def empty : Contents := fun _ _ => none

/-- Writes a signed manifest under a repository and an identity. -/
def replace (contents : Contents) (now : Int64) (repo : RepoId) (identity : PeerId)
    (signed : SignedManifest) : Except StoreError (Store.Replaced × Contents) := do
  let new ← Store.check now repo identity signed
  match contents repo identity with
  | none => return (⟨none, new⟩, contents.save new)
  | some current =>
    if new.sequence ≤ current.sequence then throw (.stale identity current new.sequence)
    else return (⟨some current, new⟩, contents.save new)

/-- What some contents answer to a call, and the contents afterwards. -/
inductive Answers (contents : Contents) : StoreCall → StoreResult × Contents → Prop
  /-- A replacement is decided by what is in its place. -/
  | replace (now : Int64) (repo : RepoId) (identity : PeerId) (signed : SignedManifest) :
      Answers contents (.replace now repo identity signed)
        (writeOutcome contents .replaced (contents.replace now repo identity signed))
  /-- A write is a replacement. -/
  | put (now : Int64) (repo : RepoId) (identity : PeerId) (signed : SignedManifest) :
      Answers contents (.put now repo identity signed)
        (writeOutcome contents (fun replaced => .stored replaced.current)
          (contents.replace now repo identity signed))
  /-- A write under the own identity is a replacement there. -/
  | putSigned (now : Int64) (repo : RepoId) (signed : SignedManifest) :
      Answers contents (.putSigned now repo signed)
        (writeOutcome contents (fun replaced => .stored replaced.current)
          (contents.replace now repo signed.manifest.identity signed))
  /-- What is in a place is returned. -/
  | get {repo : RepoId} {identity : PeerId} {n : Namespace} (h : contents repo identity = some n) :
      Answers contents (.get repo identity) (.ok (.stored n), contents)
  /-- Where nothing is, nothing can be returned. -/
  | notFound {repo : RepoId} {identity : PeerId} (h : contents repo identity = none) :
      Answers contents (.get repo identity) (.error (.notFound repo identity), contents)
  /-- What is in a place is returned, or that nothing is. -/
  | tryGet (repo : RepoId) (identity : PeerId) :
      Answers contents (.tryGet repo identity) (.ok (.found (contents repo identity)), contents)
  /-- The identities are listed. -/
  | namespaces {repo : RepoId} {ids : List PeerId}
      (h : Lists ids fun identity => ∃ n, contents repo identity = some n) :
      Answers contents (.namespaces repo) (.ok (.namespaces (.ofList ids)), contents)
  /-- What is in a repository is shown. -/
  | snapshot {s : Snapshot} (h : ∀ identity, s.get? identity = contents s.repo identity) :
      Answers contents (.snapshot s.repo) (.ok (.snapshot s), contents)
  /-- The repositories are listed. -/
  | repositories {repos : List RepoId}
      (h : Lists repos fun repo => ∃ identity n, contents repo identity = some n) :
      Answers contents .repositories (.ok (.repositories repos), contents)

/-- What some contents answer to calls one after another, and the contents afterwards. -/
inductive Follows : Contents → List StoreCall → List StoreResult × Contents → Prop
  /-- There is nothing to answer. -/
  | nil (contents : Contents) : Follows contents [] ([], contents)
  /-- The contents after one call answer the next. -/
  | cons {contents next last : Contents} {call : StoreCall} {calls : List StoreCall}
      {result : StoreResult} {results : List StoreResult}
      (h : contents.Answers call (result, next)) (hrest : Follows next calls (results, last)) :
      Follows contents (call :: calls) (result :: results, last)

variable {contents : Contents}

/-- Two snapshots of the same contents are the same. -/
theorem snapshot_unique {s s' : Snapshot} (hrepo : s.repo = s'.repo)
    (h : ∀ identity, s.get? identity = contents s.repo identity)
    (h' : ∀ identity, s'.get? identity = contents s'.repo identity) : s = s' := by
  obtain ⟨repo, namespaces⟩ := s
  obtain ⟨repo', namespaces'⟩ := s'
  obtain rfl : repo = repo' := hrepo
  congr 1
  exact SortedMap.ext fun identity => (h identity).trans (h' identity).symm

/-- The contents leave no choice of an answer. -/
theorem Answers.unique {call : StoreCall} {outcome outcome' : StoreResult × Contents}
    (h : contents.Answers call outcome) (h' : contents.Answers call outcome') :
    outcome = outcome' := by
  cases h with
  | replace => cases h'; rfl
  | put => cases h'; rfl
  | putSigned => cases h'; rfl
  | get h =>
      cases h' with
      | get h' => rw [Option.some.inj (h.symm.trans h')]
      | notFound h' => cases h.symm.trans h'
  | notFound h =>
      cases h' with
      | get h' => cases h.symm.trans h'
      | notFound h' => rfl
  | tryGet => cases h'; rfl
  | namespaces h =>
      cases h' with
      | namespaces h' => rw [h.unique h']
  | @snapshot s h =>
      generalize hrepo : s.repo = repo at h'
      cases h' with
      | snapshot h' => rw [snapshot_unique hrepo h h']
  | repositories h =>
      cases h' with
      | repositories h' => rw [h.unique h']

/-- The contents leave no choice of answers. -/
theorem Follows.unique {calls : List StoreCall} {outcome outcome' : List StoreResult × Contents}
    (h : contents.Follows calls outcome) (h' : contents.Follows calls outcome') :
    outcome = outcome' := by
  induction h generalizing outcome' with
  | nil => cases h'; rfl
  | cons hcall _ ih =>
      cases h' with
      | cons hcall' hrest' =>
          cases hcall.unique hcall'
          cases ih hrest'
          rfl

end Contents

/-! ### No faults of stored data -/

/-- Nothing that is checked before a write has to do with stored data. -/
theorem Store.check_ne_invalidData {now : Int64} {repo : RepoId} {identity : PeerId}
    {signed : SignedManifest} (fault : DataFault) :
    check now repo identity signed ≠ .error (.invalidData fault) := by
  intro h
  rcases error_of_check h with h | h | ⟨_, h⟩ <;> cases h

/-- A write returns only the error with which it failed. -/
theorem eq_error_of_writeOutcome {State β : Type} {before : State}
    {answer : β → StoreAnswer} {done : Except StoreError (β × State)} {error : StoreError}
    (h : (writeOutcome before answer done).1 = .error error) : done = .error error := by
  cases done with
  | ok done => cases h
  | error error => cases h; rfl

namespace Contents

variable {contents : Contents}

/-- A replacement never finds fault with what is stored. -/
theorem replace_ne_invalidData {now : Int64} {repo : RepoId} {identity : PeerId}
    {signed : SignedManifest} (fault : DataFault) :
    contents.replace now repo identity signed ≠ .error (.invalidData fault) := by
  rw [replace]
  cases hcheck : Store.check now repo identity signed with
  | error error =>
      rintro ⟨⟩
      exact Store.check_ne_invalidData fault hcheck
  | ok new =>
      simp only [bind, Except.bind]
      split
      · simp [pure, Except.pure]
      · split
        · simp [throw, throwThe, MonadExceptOf.throw]
        · simp [pure, Except.pure]

/-- The contents never find fault with what is stored. -/
theorem Answers.ne_invalidData {call : StoreCall} {result : StoreResult} {next : Contents}
    (h : contents.Answers call (result, next)) (fault : DataFault) :
    result ≠ .error (.invalidData fault) := by
  generalize houtcome : (result, next) = outcome at h
  obtain rfl : outcome.1 = result := by rw [← houtcome]
  intro herror
  cases h with
  | replace => exact replace_ne_invalidData fault (eq_error_of_writeOutcome herror)
  | put => exact replace_ne_invalidData fault (eq_error_of_writeOutcome herror)
  | putSigned => exact replace_ne_invalidData fault (eq_error_of_writeOutcome herror)
  | _ => cases herror

/-- Nor does any answer. -/
theorem Follows.ne_invalidData {calls : List StoreCall} {results : List StoreResult}
    {last : Contents} (h : contents.Follows calls (results, last)) :
    ∀ result ∈ results, ∀ fault, result ≠ .error (.invalidData fault) := by
  generalize houtcome : (results, last) = outcome at h
  induction h generalizing results with
  | nil =>
      cases houtcome
      simp
  | cons hanswers _ ih =>
      cases houtcome
      exact List.forall_mem_cons.mpr ⟨hanswers.ne_invalidData, ih rfl⟩

end Contents

/-! ### Stores in step with the contents -/

namespace Store

variable {store : Store} {contents : Contents} {now : Int64} {repo : RepoId} {identity : PeerId}
  {signed : SignedManifest}

namespace Holds

/-- A write does to a store what it does to the contents that the store holds. -/
theorem writeOutcome_replace (h : store.Holds contents) (answer : Replaced → StoreAnswer) :
    ∃ after, writeOutcome store answer (store.replace now repo identity signed) =
        ((writeOutcome contents answer (contents.replace now repo identity signed)).1, after) ∧
      after.Holds (writeOutcome contents answer (contents.replace now repo identity signed)).2 := by
  rw [replace, Contents.replace]
  cases check now repo identity signed with
  | error error => exact ⟨store, rfl, h⟩
  | ok new =>
      obtain ⟨after, hsave⟩ := h.exists_save new
      have hload := h.load repo identity
      cases hfound : contents repo identity with
      | none =>
          rw [hfound] at hload
          simp only [bind, Except.bind, hload, hsave]
          exact ⟨after, rfl, h.save hsave⟩
      | some current =>
          rw [hfound] at hload
          by_cases hstale : new.sequence ≤ current.sequence
          · simp only [bind, Except.bind, hload, hstale, if_true]
            exact ⟨store, rfl, h⟩
          · simp only [bind, Except.bind, hload, hsave, hstale, if_false]
            exact ⟨after, rfl, h.save hsave⟩

/-- A store gives out what it holds. -/
theorem get_eq (h : store.Holds contents) : store.get repo identity =
    match contents repo identity with
    | some n => .ok n
    | none => .error (.notFound repo identity) := by
  rw [get, h.load]
  cases contents repo identity <;> rfl

/-- A call keeps a store and the contents in step. -/
theorem call (h : store.Holds contents) (c : StoreCall) : ∃ result after next,
    store.call c = (result, after) ∧ contents.Answers c (result, next) ∧ after.Holds next := by
  cases c with
  | replace now repo identity signed =>
      obtain ⟨after, heq, hafter⟩ := h.writeOutcome_replace .replaced
      exact ⟨_, after, _, heq, .replace now repo identity signed, hafter⟩
  | put now repo identity signed =>
      obtain ⟨after, heq, hafter⟩ := h.writeOutcome_replace fun replaced => .stored replaced.current
      exact ⟨_, after, _, heq, .put now repo identity signed, hafter⟩
  | putSigned now repo signed =>
      obtain ⟨after, heq, hafter⟩ := h.writeOutcome_replace fun replaced => .stored replaced.current
      have hput : store.call (.putSigned now repo signed) =
          store.call (.put now repo signed.manifest.identity signed) := by
        simp only [Store.call, Store.put]
        cases store.replace now repo signed.manifest.identity signed <;> rfl
      exact ⟨_, after, _, hput.trans heq, .putSigned now repo signed, hafter⟩
  | get repo identity =>
      cases hfound : contents repo identity with
      | none => exact ⟨_, store, _, by rw [Store.call, h.get_eq, hfound]; rfl, .notFound hfound, h⟩
      | some n => exact ⟨_, store, _, by rw [Store.call, h.get_eq, hfound]; rfl, .get hfound, h⟩
  | tryGet repo identity =>
      exact ⟨_, store, _, by rw [Store.call, h.load]; rfl, .tryGet repo identity, h⟩
  | namespaces repo =>
      obtain ⟨ids, hids, hlists⟩ := h.exists_identities repo
      exact ⟨_, store, _, by rw [Store.call, hids]; rfl, .namespaces hlists, h⟩
  | snapshot repo =>
      obtain ⟨s, hs, rfl, hget⟩ := h.exists_snapshot repo
      exact ⟨_, store, _, by rw [Store.call, hs]; rfl, .snapshot hget, h⟩
  | repositories =>
      obtain ⟨repos, hrepos, hlists⟩ := h.exists_repositories
      exact ⟨_, store, _, by rw [Store.call, hrepos]; rfl, .repositories hlists, h⟩

/-- Calls keep a store and the contents in step. -/
theorem callAll (h : store.Holds contents) (calls : List StoreCall) : ∃ results after last,
    store.callAll calls = (results, after) ∧ contents.Follows calls (results, last) ∧
      after.Holds last := by
  induction calls generalizing store contents with
  | nil => exact ⟨[], store, contents, rfl, .nil contents, h⟩
  | cons c calls ih =>
      obtain ⟨result, after, next, hcall, hanswers, hafter⟩ := h.call c
      obtain ⟨results, final, last, hcalls, hfollows, hfinal⟩ := ih hafter
      refine ⟨result :: results, final, last, ?_, .cons hanswers hfollows, hfinal⟩
      rw [Store.callAll, hcall]
      simp only [hcalls]

/-- Something can be got where something is held. -/
theorem exists_get_iff (h : store.Holds contents) :
    (∃ n, store.get repo identity = .ok n) ↔ ∃ n, contents repo identity = some n := by
  rw [h.get_eq]
  cases contents repo identity with
  | none => simp
  | some n => simp

/-- The identities of a repository, its snapshot and what can be got from it are the same. -/
theorem views (h : store.Holds contents) (repo : RepoId) : ∃ ids s,
    store.identities repo = .ok ids ∧ store.snapshot repo = .ok s ∧ s.namespaces.keys = ids ∧
      Lists ids fun identity => ∃ n, store.get repo identity = .ok n := by
  obtain ⟨ids, hids, hlists⟩ := h.exists_identities repo
  obtain ⟨s, hs, hrepo, hget⟩ := h.exists_snapshot repo
  refine ⟨ids, s, hids, hs, ?_, hlists.congr fun identity => h.exists_get_iff.symm⟩
  refine ((Lists.keys s.namespaces).congr fun identity => ?_).unique hlists
  rw [← hget identity, Snapshot.get?]

end Holds

/-- A new store holds nothing. -/
theorem holds_newStore (backend : Backend) : backend.newStore.Holds .empty := by
  refine ⟨backend.load_newStore, ?_⟩
  cases backend with
  | memory => trivial
  | database =>
      rintro _ ⟨⟩ place row hget
      cases hget

/-- New stores answer any calls alike, wherever they keep what they store: as the contents do, which
leave them no choice. They never find fault with what they stored. And whatever the calls, a store
then lists the identities of a repository in ascending order, with those in its snapshot and those
whose namespace can be got, and the repositories that have any. -/
theorem backends_agree (calls : List StoreCall) : ∃ results contents,
    (∀ outcome, Contents.empty.Follows calls outcome ↔ outcome = (results, contents)) ∧
      (∀ result ∈ results, ∀ fault, result ≠ .error (.invalidData fault)) ∧
      ∀ backend : Backend, (backend.newStore.callAll calls).1 = results ∧
        let store := (backend.newStore.callAll calls).2
        (∀ repo identity, store.load repo identity = .ok (contents repo identity)) ∧
        (∀ repo, ∃ ids s, store.identities repo = .ok ids ∧ store.snapshot repo = .ok s ∧
          s.namespaces.keys = ids ∧ Lists ids fun identity => ∃ n, store.get repo identity = .ok n) ∧
        ∃ repos, store.repositories = .ok repos ∧
          Lists repos fun repo => ∃ identity n, store.get repo identity = .ok n := by
  obtain ⟨results, -, contents, -, hfollows, -⟩ := (holds_newStore .memory).callAll calls
  refine ⟨results, contents, fun outcome => ⟨fun h => h.unique hfollows, fun h => h ▸ hfollows⟩,
    hfollows.ne_invalidData, fun backend => ?_⟩
  obtain ⟨results', after, contents', hcalls, hfollows', hafter⟩ :=
    (holds_newStore backend).callAll calls
  cases hfollows'.unique hfollows
  rw [hcalls]
  obtain ⟨repos, hrepos, hlists⟩ := hafter.exists_repositories
  exact ⟨rfl, hafter.load, hafter.views, repos, hrepos,
    hlists.congr fun repo => exists_congr fun identity => hafter.exists_get_iff.symm⟩

end Store

namespace OutOfOrder

/-- Alice's second manifest is written before her first one. Then it is looked for, and so is what
somebody else wrote. -/
def calls : List StoreCall :=
  [.replace 1700000000000 repo alice second, .putSigned 1700000000001 repo first,
    .tryGet repo alice, .namespaces repo, .snapshot repo, .repositories,
    .get repo ⟨.replicate 32 1⟩]

/-- Both backends take the second manifest, refuse the first one and find nothing else. -/
theorem calls_answered_alike :
    (Store.inMemory.callAll calls).1 = (Store.inDatabase.callAll calls).1 ∧
      (Store.inDatabase.callAll calls).1.map (fun result => result.toOption.isSome) =
        [true, false, true, true, true, true, false] := by
  obtain ⟨results, contents, -, -, hbackends⟩ := Store.backends_agree calls
  have hmemory : (Store.inMemory.callAll calls).1 = results := (hbackends .memory).1
  have hdatabase : (Store.inDatabase.callAll calls).1 = results := (hbackends .database).1
  exact ⟨hmemory.trans hdatabase.symm, by decide +kernel⟩

end OutOfOrder

end SignedRefs
