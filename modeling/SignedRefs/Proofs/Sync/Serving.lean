import SignedRefs.Proofs.Sync.Admission
import SignedRefs.Proofs.Sync.Limits

/-!
# Fetching from a Store

A store that is asked answers as it should: it lists the identities that it has, and sends the
manifest that it holds if there is one and it is not too long. What comes of such an answer can be
said without looking at messages (`Store.Takes`): the local store then holds the newest of what it
held and of what the other one sends, and nothing was applied unless it changed.

A fetch from a store asks for its candidates among the identities that are listed (`Fetch.Asks`),
and on its way has an outcome for some of them and requests running or waiting for the others. This
is the invariant of a fetch (`Fetch.Standing`). It is about the outcomes only, so that other fetches
may write to the local store in the meantime.

## Main results

* `Store.Sound.accept`, `Store.Reached.sound`: a store that is written to can answer.
* `Store.takes_takeFrom`, `Store.takes_takeFrom_self`: what comes of the answer to a request.
* `Fetch.Standing.resume`: one more answer keeps the invariant.
-/

namespace SignedRefs

/-! ### Lists of identities -/

namespace Database

variable {db after : Database} {repo : RepoId} {new : Namespace}

/-- The identities of a repository can be listed if its rows have identities in their columns. -/
theorem identities_eq_ok_iff : (∃ listed, db.identities repo = .ok listed) ↔
    ∃ rows, db.table = some rows ∧ ∀ key row, rows.get? key = some row → key.repo = repo.bytes →
      ∃ id, readIdentity key.identity = .ok id := by
  have hidentities : db.identities repo = db.rowsOf repo >>= fun l =>
      l.mapM fun e => readIdentity e.1.identity := rfl
  simp only [hidentities, rowsOf, bind_eq_ok_iff, rows_eq_ok_iff, mapM_eq_ok_iff_filterMap, pure,
    Except.pure, Except.ok.injEq]
  constructor
  · rintro ⟨_, _, ⟨rows, hrows, rfl⟩, hall, -⟩
    exact ⟨rows, hrows, fun key row hget hrepo =>
      hall (key, row) (mem_rowsOf_iff.mpr ⟨hget, hrepo⟩)⟩
  · rintro ⟨rows, hrows, hall⟩
    refine ⟨_, _, ⟨rows, hrows, rfl⟩, fun e he => ?_, rfl⟩
    obtain ⟨hget, hrepo⟩ := mem_rowsOf_iff.mp he
    exact hall e.1 e.2 hget hrepo

/-- Where the identities can be listed, they still can after a namespace was saved. -/
theorem exists_identities_of_save (h : db.save new = .ok after)
    (hlisted : ∃ listed, db.identities repo = .ok listed) :
    ∃ listed, after.identities repo = .ok listed := by
  obtain ⟨rows, bytes, hrows, -, rfl⟩ := save_eq_ok_iff.mp h
  obtain ⟨_, hrows', hall⟩ := identities_eq_ok_iff.mp hlisted
  rw [hrows] at hrows'
  cases hrows'
  refine identities_eq_ok_iff.mpr ⟨_, rfl, fun key row hget hrepo => ?_⟩
  by_cases hkey : key = Database.key new.repo new.identity
  · rw [hkey]
    exact ⟨new.identity, readIdentity_eq_ok_iff.mpr rfl⟩
  · rw [SortedMap.get?_insert_of_ne _ hkey] at hget
    exact hall key row hget hrepo

end Database

namespace Store

variable {store server after : Store} {now : Int64} {repo : RepoId} {id : PeerId}

/-- A store can answer: it holds nothing but authentic namespaces, and can list whose they are. -/
structure Sound (store : Store) : Prop where
  /-- Look-ups find authentic namespaces. -/
  authentic : store.Authentic
  /-- The identities can be listed. -/
  listable : ∀ repo, ∃ listed, store.identities repo = .ok listed

/-- Operations lead to a store, from a new one. -/
def Reached (store : Store) : Prop :=
  ∃ (backend : Backend) (operations : List Operation), store = backend.newStore.afterAll operations

/-- Where the identities can be listed, they still can after a namespace was saved. -/
theorem exists_identities_of_save {new : Namespace} (h : store.save new = .ok after)
    (hlisted : ∃ listed, store.identities repo = .ok listed) :
    ∃ listed, after.identities repo = .ok listed := by
  cases store with
  | memory namespaces =>
      cases h
      exact ⟨_, rfl⟩
  | database db =>
      obtain ⟨db', hsave, rfl⟩ := map_eq_ok_iff.mp h
      exact Database.exists_identities_of_save hsave hlisted

/-- Accepting a manifest leaves a store able to answer. -/
theorem Sound.accept (h : store.Sound) (haccepts : Accepts store after) : after.Sound := by
  refine ⟨h.authentic.accept haccepts, fun repo => ?_⟩
  obtain ⟨now, repo', identity, signed, replaced, hreplace⟩ := haccepts
  obtain ⟨-, -, -, -, hsave⟩ := replace_eq_ok_iff.mp hreplace
  exact exists_identities_of_save hsave (h.listable repo)

/-- A new store is sound. -/
theorem sound_newStore (backend : Backend) : backend.newStore.Sound := by
  refine ⟨authentic_newStore backend, fun repo => ?_⟩
  cases backend with
  | memory => exact ⟨_, rfl⟩
  | database => exact ⟨_, rfl⟩

/-- Operations keep a store sound. -/
theorem Sound.afterAll (h : store.Sound) (operations : List Operation) :
    (store.afterAll operations).Sound := by
  induction operations generalizing store with
  | nil => exact h
  | cons operation operations ih =>
      refine ih ?_
      rcases store.after_cases operation with hsame | haccepts
      · rwa [hsame]
      · exact h.accept haccepts

/-- Every store that operations lead to can answer. -/
theorem Reached.sound (h : store.Reached) : store.Sound := by
  obtain ⟨backend, operations, rfl⟩ := h
  exact (sound_newStore backend).afterAll operations

/-! ### Answers of a store -/

/-- A store sends a manifest when it is asked for an identity: it holds the manifest, and its
encoding is not too long. -/
def Sends (store : Store) (repo : RepoId) (id : PeerId) (m : SignedManifest) : Prop :=
  store.held repo id = .ok (some m) ∧
    ∃ encoded, m.encode = .ok encoded ∧ encoded.length ≤ Limit.manifestBytes

/-- What a store that can answer sends could be written anywhere else. -/
theorem Sound.fits (h : store.Sound) {m : SignedManifest} (hsends : store.Sends repo id m) :
    Delivery.Fits ⟨repo, id, m⟩ := by
  obtain ⟨found, hload, rfl⟩ := held_eq_some_iff.mp hsends.1
  obtain ⟨found', hload', hauthentic⟩ := h.authentic repo id
  rw [hload] at hload'
  cases hload'
  exact (hauthentic found rfl).fits

/-- Asks another store for the manifest of an identity, and does what the answer asks for. -/
def takeFrom (store server : Store) (now : Int64) (repo : RepoId) (id : PeerId) : Outcome × Store :=
  (Answer.replied (.ok (server.respond now (.manifest repo id)).1)).apply store now repo id

end Store

/-- A manifest with a number was applied. -/
def Outcome.Applies (outcome : Outcome) (sequence : UInt64) : Prop :=
  ∃ updates, outcome = .applied sequence updates

namespace Outcome

/-- What does not count as applied applies no number. -/
theorem not_applies_of_isApplied {outcome : Outcome} (h : outcome.isApplied = false)
    (sequence : UInt64) : ¬outcome.Applies sequence := by
  rintro ⟨updates, rfl⟩
  cases h

/-- What the store refuses is not applied. -/
theorem isApplied_ofStoreError (signed : SignedManifest) (error : StoreError) :
    (ofStoreError signed error).isApplied = false := by
  cases error with
  | stale identity current received =>
      rw [ofStoreError]
      split
      · rfl
      · rfl
  | _ => rfl

end Outcome

/-- What comes of a request for an identity if some manifests are on offer for it: the newest of
these and of what is there is held afterwards, and an outcome tells whether one was applied. -/
structure Store.Takes (store : Store) (repo : RepoId) (id : PeerId)
    (offered : SignedManifest → Prop) (result : Outcome × Store) : Prop where
  /-- If none was applied, the store is the same. -/
  unchanged : (∀ sequence, ¬result.1.Applies sequence) → result.2 = store
  /-- One that was applied was on offer, and the store accepted it. -/
  accepted : ∀ sequence, result.1.Applies sequence → ∃ m now replaced, offered m ∧
    m.manifest.sequence = sequence ∧ store.replace now repo id m = .ok (replaced, result.2)
  /-- The newest is held. -/
  newest : ∀ before, store.held repo id = .ok before →
    ∃ latest, result.2.held repo id = .ok latest ∧ Newest before offered latest

namespace Store.Takes

variable {store : Store} {repo : RepoId} {id id' : PeerId} {offered : SignedManifest → Prop}
  {result : Outcome × Store} {sequence : UInt64}

/-- The store is the same, or it accepted what was on offer. -/
theorem cases (h : store.Takes repo id offered result) :
    (result.2 = store ∧ ∀ sequence, ¬result.1.Applies sequence) ∨
      ∃ m now replaced, store.replace now repo id m = .ok (replaced, result.2) := by
  by_cases happlies : ∃ sequence, result.1.Applies sequence
  · obtain ⟨sequence, hsequence⟩ := happlies
    obtain ⟨m, now, replaced, -, -, hreplace⟩ := h.accepted sequence hsequence
    exact .inr ⟨m, now, replaced, hreplace⟩
  · exact .inl ⟨h.unchanged (not_exists.mp happlies), not_exists.mp happlies⟩

/-- Other places stay as they are. -/
theorem load_of_ne (h : store.Takes repo id offered result) (hne : id' ≠ id) :
    result.2.load repo id' = store.load repo id' := by
  rcases h.cases with ⟨hsame, -⟩ | ⟨m, now, replaced, hreplace⟩
  · rw [hsame]
  · rw [load_of_replace hreplace, if_neg fun hplace => hne hplace.2]

/-- A request for one identity changes nothing for another. -/
theorem held_of_ne (h : store.Takes repo id offered result) (hne : id' ≠ id) :
    result.2.held repo id' = store.held repo id' := by
  rw [held, held, h.load_of_ne hne]

/-- Where a look-up fails, it still does. -/
theorem load_error {error : StoreError} (h : store.Takes repo id offered result)
    (herror : store.load repo id' = .error error) : result.2.load repo id' = .error error := by
  by_cases hid : id' = id
  · rcases h.cases with ⟨hsame, -⟩ | ⟨m, now, replaced, hreplace⟩
    · rwa [hsame]
    · have hprevious := (replace_eq_ok_iff.mp hreplace).1
      rw [← hid, herror] at hprevious
      cases hprevious
  · rw [h.load_of_ne hid, herror]

/-- What was applied has a higher number than what was held, and is held now. -/
theorem of_applies (h : store.Takes repo id offered result) (happlies : result.1.Applies sequence) :
    (∀ m, store.held repo id = .ok (some m) → m.manifest.sequence < sequence) ∧
      ∃ m, offered m ∧ m.manifest.sequence = sequence ∧ result.2.held repo id = .ok (some m) := by
  obtain ⟨m, now, replaced, hoffered, rfl, hreplace⟩ := h.accepted sequence happlies
  obtain ⟨hload, haccept, -, -, -⟩ := replace_eq_ok_iff.mp hreplace
  refine ⟨fun m' hm' => ?_, m, hoffered, rfl, ?_⟩
  · obtain ⟨stored, hstored, rfl⟩ := held_eq_some_iff.mp hm'
    rw [hstored] at hload
    exact haccept.newer stored (Except.ok.inj hload).symm
  · rw [held_of_replace hreplace, if_pos ⟨rfl, rfl⟩]

/-- No number goes down. -/
theorem held_le {m : SignedManifest} (h : store.Takes repo id offered result)
    (hm : store.held repo id' = .ok (some m)) : ∃ m', result.2.held repo id' = .ok (some m') ∧
      m.manifest.sequence ≤ m'.manifest.sequence := by
  by_cases hid : id' = id
  · rw [hid] at hm ⊢
    obtain ⟨latest, hlatest, hnewest⟩ := h.newest _ hm
    rcases hnewest.above_before m rfl with rfl | ⟨m', rfl, hlt⟩
    · exact ⟨m, hlatest, UInt64.le_refl _⟩
    · exact ⟨m', hlatest, UInt64.le_of_lt hlt⟩
  · exact ⟨m, by rw [h.held_of_ne hid, hm], UInt64.le_refl _⟩

/-- Whatever comes of a request, the store stays sound. -/
theorem sound (h : store.Takes repo id offered result) (hsound : store.Sound) : result.2.Sound := by
  rcases h.cases with ⟨hsame, -⟩ | ⟨m, now, replaced, hreplace⟩
  · rwa [hsame]
  · exact hsound.accept ⟨now, repo, id, m, replaced, hreplace⟩

end Store.Takes

namespace Store

variable {store server after : Store} {now : Int64} {repo : RepoId} {id : PeerId}
  {m : SignedManifest}

/-- Where nothing is on offer and nothing is done. -/
theorem takes_of_unchanged {outcome : Outcome} (h : ∀ sequence, ¬outcome.Applies sequence) :
    store.Takes repo id (fun _ => False) (outcome, store) :=
  ⟨fun _ => rfl, fun _ happlies => absurd happlies (h _),
    fun before hbefore => ⟨before, hbefore, .refl fun _ hm => hm⟩⟩

/-- What comes of an encoded manifest that fits. -/
theorem takes_applyEncoded {encoded : Bytes} (hdecode : SignedManifest.decode encoded = .ok m)
    (hfits : Delivery.Fits ⟨repo, id, m⟩) :
    store.Takes repo id (· = m) (store.applyEncoded now repo id encoded) := by
  have hperform : ∀ before, store.held repo id = .ok before →
      ∃ latest, (store.perform (Delivery.write ⟨repo, id, m⟩ now)).2.held repo id = .ok latest ∧
        Newest before (· = m) latest := fun before hbefore => by
    obtain ⟨latest, hlatest, hnewest⟩ := newest_of_perform hbefore now ⟨repo, id, m⟩
    refine ⟨latest, hlatest, hnewest.congr fun m' => ?_⟩
    constructor
    · rintro rfl
      exact ⟨rfl, hfits⟩
    · rintro ⟨heq, -⟩
      cases heq
      rfl
  simp only [Delivery.write, perform] at hperform
  unfold applyEncoded
  rw [hdecode]
  dsimp only
  cases hreplace : store.replace now repo id m with
  | error error =>
      rw [hreplace] at hperform
      have hnot := Outcome.not_applies_of_isApplied (Outcome.isApplied_ofStoreError m error)
      exact ⟨fun _ => rfl, fun sequence happlies => absurd happlies (hnot sequence), hperform⟩
  | ok done =>
      obtain ⟨replaced, after⟩ := done
      rw [hreplace] at hperform
      obtain ⟨-, -, hsigned, -, -⟩ := replace_eq_ok_iff.mp hreplace
      refine ⟨fun hnone => absurd ⟨_, rfl⟩ (hnone _), ?_, hperform⟩
      rintro sequence ⟨updates, hupdates⟩
      cases hupdates
      exact ⟨m, now, replaced, rfl, (Namespace.sequence_of_signed hsigned).symm, hreplace⟩

/-- What a store sends for an identity is written if it fits. -/
theorem takeFrom_of_sends (hsends : server.Sends repo id m) : ∃ encoded,
    SignedManifest.decode encoded = .ok m ∧
      store.takeFrom server now repo id = store.applyEncoded now repo id encoded := by
  obtain ⟨hheld, encoded, hencode, hlength⟩ := hsends
  obtain ⟨found, hload, rfl⟩ := held_eq_some_iff.mp hheld
  refine ⟨encoded, SignedManifest.decode_encode hencode, ?_⟩
  rw [takeFrom, respond_manifest_of_encode hload hencode]
  simp only [Answer.apply, Reply.manifest, Reply.checked, Response.validate,
    Nat.not_lt.mpr hlength, if_false]

/-- Where a store sends nothing, nothing is done. -/
theorem takeFrom_of_not_sends (h : ∀ m, ¬server.Sends repo id m) : ∃ outcome : Outcome,
    (∀ sequence, ¬outcome.Applies sequence) ∧
      store.takeFrom server now repo id = (outcome, store) := by
  have hnot : ∀ {outcome : Outcome}, outcome.isApplied = false →
      ∀ sequence, ¬outcome.Applies sequence := Outcome.not_applies_of_isApplied
  rw [takeFrom, respond_manifest, respondManifest]
  cases hload : server.load repo id with
  | error error =>
      refine ⟨.failed (.rejected (String.ofList
        (Response.fitting Limit.errorBytes error.message.toList))), hnot rfl, ?_⟩
      simp only [Answer.apply, Reply.manifest, Reply.checked, Response.validate_failure]
      rfl
  | ok found =>
      cases found with
      | none => exact ⟨.skipped .notFound, hnot rfl, rfl⟩
      | some found =>
          obtain ⟨encoded, hencode⟩ := found.exists_encode
          have hlong : Limit.manifestBytes < encoded.length := by
            by_contra hshort
            exact h found.signed ⟨held_eq_some_iff.mpr ⟨found, hload, rfl⟩, encoded, hencode,
              Nat.not_lt.mp hshort⟩
          refine ⟨.failed (.exchange (.response (.limit .manifest))), hnot rfl, ?_⟩
          simp only [hencode, Answer.apply, Reply.manifest, Reply.checked, Response.validate, hlong,
            if_true]

/-- What comes of the answer of a store. -/
theorem takes_takeFrom (hserver : server.Sound) :
    store.Takes repo id (server.Sends repo id) (store.takeFrom server now repo id) := by
  by_cases hsends : ∃ m, server.Sends repo id m
  · obtain ⟨m, hm⟩ := hsends
    obtain ⟨encoded, hdecode, htake⟩ := takeFrom_of_sends hm
    have hone : server.Sends repo id = (· = m) := by
      funext m'
      refine propext ⟨fun hm' => ?_, fun h => h ▸ hm⟩
      have hheld := hm.1
      rw [hm'.1] at hheld
      cases hheld
      rfl
    rw [htake, hone]
    exact takes_applyEncoded hdecode (hserver.fits hm)
  · have hnone := not_exists.mp hsends
    obtain ⟨outcome, hnot, htake⟩ := takeFrom_of_not_sends hnone
    have hempty : server.Sends repo id = fun _ => False :=
      funext fun m => eq_false (hnone m)
    rw [htake, hempty]
    exact takes_of_unchanged hnot

/-- A store that asks itself takes nothing over, since no manifest has a higher number than itself.
-/
theorem takes_takeFrom_self :
    store.Takes repo id (fun _ => False) (store.takeFrom store now repo id) := by
  by_cases hsends : ∃ m, store.Sends repo id m
  · obtain ⟨m, hm⟩ := hsends
    obtain ⟨encoded, hdecode, htake⟩ := takeFrom_of_sends hm
    obtain ⟨found, hload, hfound⟩ := held_eq_some_iff.mp hm.1
    have hrefused : ∃ error, store.replace now repo id m = .error error := by
      cases hreplace : store.replace now repo id m with
      | error error => exact ⟨error, rfl⟩
      | ok done =>
          obtain ⟨hprevious, haccept, -, -, -⟩ := replace_eq_ok_iff.mp hreplace
          rw [hload] at hprevious
          have hnewer := haccept.newer found (Except.ok.inj hprevious).symm
          rw [Namespace.sequence_of_signed hfound] at hnewer
          exact absurd hnewer (UInt64.lt_irrefl _)
    obtain ⟨error, herror⟩ := hrefused
    rw [htake]
    unfold applyEncoded
    rw [hdecode]
    dsimp only
    rw [herror]
    exact takes_of_unchanged
      (Outcome.not_applies_of_isApplied (Outcome.isApplied_ofStoreError m error))
  · obtain ⟨outcome, hnot, htake⟩ :=
      takeFrom_of_not_sends (not_exists.mp hsends)
    rw [htake]
    exact takes_of_unchanged hnot

end Store

/-! ### Fetches from a store -/

/-- The outcomes so far. -/
def FetchState.outcomes : FetchState → SortedMap PeerId Outcome
  | .requesting _ _ outcomes => outcomes
  | .finished (.ok outcomes) => outcomes
  | _ => .empty

namespace Fetch

variable {f : Fetch} {servers : Store → Prop} {store server : Store} {now : Int64}
  {state : FetchState} {call : Call} {ids : List PeerId}

/-- The identities that a fetch from a store asks for. -/
def Asks (f : Fetch) (server : Store) (ids : List PeerId) : Prop :=
  ∃ listed, server.identities f.repo = .ok listed ∧
    ids = (f.registry.candidates f.scope f.self (listed.take Limit.identities)).toList

/-- A manifest of an identity is on offer in a fetch from a store: the identity is asked for, and
the store sends the manifest. -/
def Offers (f : Fetch) (server : Store) (id : PeerId) (m : SignedManifest) : Prop :=
  (∃ ids, f.Asks server ids ∧ id ∈ ids) ∧ server.Sends f.repo id m

/-- What comes for a call if a store answers. -/
def answer (f : Fetch) (server : Store) (now : Int64) (call : Call) : Arrival :=
  match Network.requestOf? f call with
  | none => .connected
  | some request => .response (server.respond now request).1

/-- A store lists the identities of which it has a namespace, up to the limit. -/
theorem listed_answer {listed : List PeerId} (h : server.identities f.repo = .ok listed) :
    f.listed (f.answer server now .list) = .ok (listed.take Limit.identities) := by
  refine listed_eq_ok_iff.mpr ⟨?_, List.length_take_le _ _⟩
  have hanswer : f.answer server now .list = .response (server.respondNamespaces f.repo) := rfl
  rw [hanswer, Store.respondNamespaces, h]

/-- Taking the answer of a store is asking the store. -/
theorem replyOf_answer (id : PeerId) :
    (f.replyOf (f.answer server now (.request id))).apply store now f.repo id =
      store.takeFrom server now f.repo id := rfl

/-- Nobody is asked for twice. -/
theorem Asks.nodup (h : f.Asks server ids) : ids.Nodup := by
  obtain ⟨listed, -, rfl⟩ := h
  exact SortedMap.nodup_keys _

/-- How far a fetch has come that is answered by stores. It asks for the candidates of one of them,
of which some have an outcome and the others are running or waiting. -/
inductive Standing (f : Fetch) (servers : Store → Prop) : FetchState → Prop
  /-- Nothing has come. -/
  | connecting : Standing f servers .connecting
  /-- There is a connection. -/
  | listing (hscope : f.scope = .all) : Standing f servers .listing
  /-- Some requests have been answered. -/
  | requesting {server : Store} {ids waiting running : List PeerId}
      {outcomes : SortedMap PeerId Outcome} (hserver : servers server)
      (hasked : f.Asks server ids) (hids : (outcomes.keys ++ (running ++ waiting)).Perm ids)
      (hrunning : running ≠ []) : Standing f servers (.requesting waiting running outcomes)
  /-- All of them have been answered. -/
  | finished {server : Store} {ids : List PeerId} {outcomes : SortedMap PeerId Outcome}
      (hserver : servers server) (hasked : f.Asks server ids) (hids : outcomes.keys.Perm ids) :
      Standing f servers (.finished (.ok outcomes))

namespace Standing

/-- The first requests start when it is known for which identities they are. -/
theorem request (hserver : servers server) (hasked : f.Asks server ids) :
    f.Standing servers (f.request ids).1 ∧ (f.request ids).1.outcomes = .empty := by
  cases ids with
  | nil => exact ⟨.finished hserver hasked .nil, rfl⟩
  | cons id ids =>
      have hids : ((SortedMap.empty : SortedMap PeerId Outcome).keys ++
          ((id :: ids).take f.width ++ (id :: ids).drop f.width)).Perm (id :: ids) := by
        rw [List.take_append_drop]
        exact .refl _
      refine ⟨.requesting hserver hasked hids ?_, rfl⟩
      rw [Ne, List.take_eq_nil_iff]
      rintro (hwidth | hnil)
      · exact absurd hwidth (Nat.ne_of_gt f.width_pos)
      · cases hnil

/-- A connection leads to the list of identities or to the first requests. -/
theorem afterConnect (hserver : servers server) (hsound : server.Sound) :
    f.Standing servers (f.afterConnect .connected).1 ∧
      (f.afterConnect .connected).1.outcomes = .empty := by
  obtain ⟨listed, hlisted⟩ := hsound.listable f.repo
  unfold Fetch.afterConnect
  cases hscope : f.scope with
  | all => exact ⟨.listing hscope, rfl⟩
  | none =>
      refine request hserver ⟨listed, hlisted, ?_⟩
      rw [hscope]
      rfl
  | trusted =>
      refine request hserver ⟨listed, hlisted, ?_⟩
      rw [hscope]
      rfl

/-- The list of identities leads to the first requests. -/
theorem afterList (hserver : servers server) (hsound : server.Sound) (hscope : f.scope = .all)
    (now : Int64) :
    f.Standing servers (f.afterList (f.answer server now .list)).1 ∧
      (f.afterList (f.answer server now .list)).1.outcomes = .empty := by
  obtain ⟨listed, hlisted⟩ := hsound.listable f.repo
  rw [Fetch.afterList, listed_answer hlisted]
  refine request hserver ⟨listed, hlisted, ?_⟩
  rw [hscope]

/-- The answer to a request leads to the next one, or it is waited for others, or all have come. -/
theorem afterRequest {waiting running : List PeerId} {outcomes : SortedMap PeerId Outcome}
    (hserver : servers server) (hasked : f.Asks server ids)
    (hids : (outcomes.keys ++ (running ++ waiting)).Perm ids) :
    f.Standing servers (Fetch.afterRequest waiting running outcomes).1 ∧
      (Fetch.afterRequest waiting running outcomes).1.outcomes = outcomes := by
  cases waiting with
  | cons next waiting =>
      refine ⟨.requesting hserver hasked ?_ (List.concat_ne_nil next running), rfl⟩
      rwa [List.append_assoc]
  | nil =>
      cases running with
      | cons id running =>
          exact ⟨.requesting hserver hasked hids (List.cons_ne_nil id running), rfl⟩
      | nil =>
          rw [List.append_nil, List.append_nil] at hids
          exact ⟨.finished hserver hasked hids, rfl⟩

/-- The answer of a store to a call that is under way keeps the invariant. It brings no outcome, or
the one of an identity that had none, since nobody is asked for twice, and what the store sends for
this identity is taken over. -/
theorem resume (h : f.Standing servers state) (hserver : servers server) (hsound : server.Sound)
    (store : Store) (now : Int64) (hcall : call ∈ state.pending) :
    let after := f.resume now state store call (f.answer server now call)
    f.Standing servers after.1.1 ∧
      (after.1.1.outcomes = state.outcomes ∧ after.2 = store ∨
        ∃ id, state.outcomes.contains id = false ∧
          after.1.1.outcomes = state.outcomes.insert id (store.takeFrom server now f.repo id).1 ∧
            after.2 = (store.takeFrom server now f.repo id).2) := by
  cases h with
  | connecting =>
      obtain rfl := List.mem_singleton.mp hcall
      obtain ⟨hstanding, houtcomes⟩ := afterConnect (f := f) hserver hsound
      exact ⟨hstanding, .inl ⟨houtcomes, rfl⟩⟩
  | listing hscope =>
      obtain rfl := List.mem_singleton.mp hcall
      obtain ⟨hstanding, houtcomes⟩ := afterList hserver hsound hscope now
      exact ⟨hstanding, .inl ⟨houtcomes, rfl⟩⟩
  | @requesting server' ids waiting running outcomes hserver' hasked hids hrunning =>
      obtain ⟨id, hid, rfl⟩ := List.mem_map.mp hcall
      have hnew : outcomes.contains id = false := by
        rw [← Bool.not_eq_true, ← SortedMap.mem_keys_iff]
        intro hkey
        have hnodup := hids.nodup_iff.mpr hasked.nodup
        exact (List.nodup_append.mp hnodup).2.2 id hkey id (List.mem_append_left _ hid) rfl
      have hrest : ((outcomes.insert id (store.takeFrom server now f.repo id).1).keys ++
          (running.erase id ++ waiting)).Perm ids := by
        refine (((SortedMap.keys_insert_perm hnew _).append_right _).trans ?_).trans hids
        rw [List.cons_append]
        refine List.perm_middle.symm.trans (.append_left _ ?_)
        exact (List.perm_cons_erase hid).symm.append_right waiting
      obtain ⟨hstanding, houtcomes⟩ := afterRequest hserver' hasked hrest
      have hresume : f.resume now (.requesting waiting running outcomes) store (.request id)
            (f.answer server now (.request id)) =
          (Fetch.afterRequest waiting (running.erase id)
            (outcomes.insert id (store.takeFrom server now f.repo id).1),
              (store.takeFrom server now f.repo id).2) := by
        simp only [Fetch.resume, List.contains_iff_mem, hid, if_true, replyOf_answer]
      intro after
      have hafter : after = _ := hresume
      rw [hafter]
      exact ⟨hstanding, .inr ⟨id, hnew, houtcomes, rfl⟩⟩
  | finished => cases hcall

end Standing

end Fetch

end SignedRefs
