import SignedRefs.Network.Announcing
import SignedRefs.Proofs.Network.Convergence
import SignedRefs.Proofs.Sync.Pushing

/-!
# Announcing to Seeds

A node pushes its namespace to seeds over links that come and go, each of which has a store of its
own. A network is followed through all attempts with what one seed has in its store
(`Network.Provides`), and through all seeds with what the outcomes so far say (`Network.Announced`):
they are true, and nobody else's store has changed.

## Main results

* `Network.Provides.attemptPush`: an attempt is lost, or it brings the answer of the store.
* `Network.exists_announceTo`: what a push to one seed does.
* `Network.Announced.next`, `Network.Announced.foldl`: one more seed, and all of them.
* `Network.report_truthful`: the report of an announcement tells the truth about the seeds.
-/

namespace SignedRefs

namespace Network

/-! ### One seed -/

/-- A network has become another one in which an endpoint has some store, and otherwise only time
has passed and links have changed. -/
structure Provides (n : Network) (endpoint : Endpoint) (store : Store) (n' : Network) : Prop where
  /-- The endpoint has the store. -/
  store : n'.storeAt? endpoint = some store
  /-- The others have what they had. -/
  others : ∀ other, other ≠ endpoint → n'.storeAt? other = n.storeAt? other
  /-- The same endpoints are behind the addresses. -/
  endpoints : ∀ address, n'.endpoint? address = n.endpoint? address

namespace Provides

variable {n n' : Network} {endpoint : Endpoint} {store : Store}

/-- At first the endpoint has its own store. -/
theorem refl (h : n.storeAt? endpoint = some store) : n.Provides endpoint store n :=
  ⟨h, fun _ _ => rfl, fun _ => rfl⟩

/-- Time may pass. -/
theorem advance (h : n.Provides endpoint store n') (time : Nat) :
    n.Provides endpoint store (n'.advance time) :=
  ⟨h.store, h.others, fun address =>
    (endpoint_applyUntil time n'.links n'.scheduled address).trans (h.endpoints address)⟩

/-- Links may be set back. -/
theorem rewind (h : n.Provides endpoint store n') : n.Provides endpoint store (n'.rewind n) :=
  ⟨h.store, h.others, fun _ => rfl⟩

/-- The endpoint answers with its store. -/
theorem serve (h : n.Provides endpoint store n') (request : Request) :
    (n'.serve endpoint request).1 = (store.respond n'.clock request).1 ∧
      n.Provides endpoint (store.respond n'.clock request).2 (n'.serve endpoint request).2 := by
  have hstore := h.store
  cases endpoint with
  | script rules => cases hstore
  | store name =>
      have hfound : n'.stores.get? name = some store := hstore
      rw [Network.serve]
      simp only [hfound, true_and]
      refine ⟨SortedMap.get?_insert_self _ _ _, fun other hother => ?_, h.endpoints⟩
      rw [← h.others other hother]
      cases other with
      | script rules => rfl
      | node name' => rfl
      | store name' =>
          exact SortedMap.get?_insert_of_ne _ (fun heq => hother (congrArg Endpoint.store heq)) _
  | node name =>
      obtain ⟨node, hfound, rfl⟩ := Option.map_eq_some_iff.mp hstore
      rw [Network.serve]
      simp only [hfound, true_and]
      refine ⟨?_, fun other hother => ?_, h.endpoints⟩
      · exact congrArg (Option.map Node.store) (SortedMap.get?_insert_self _ _ _)
      · rw [← h.others other hother]
        cases other with
        | script rules => rfl
        | store name' => rfl
        | node name' =>
            exact congrArg (Option.map Node.store)
              (SortedMap.get?_insert_of_ne _ (fun heq => hother (congrArg Endpoint.node heq)) _)

/-- An attempt is lost on the way, or it brings the answer of the store. -/
theorem attemptPush (h : n.Provides endpoint store n') {seed : Address}
    (hseed : n.endpoint? seed = some endpoint) (request : Request) (timeout : Nat) :
    ∃ after, n.Provides endpoint after (attemptPush seed request timeout n').2 ∧
      Attempted request store (attemptPush seed request timeout n').1 after := by
  unfold Network.attemptPush
  split
  · exact ⟨store, h, .lost nofun⟩
  · split
    · exact ⟨store, h.advance _, .lost nofun⟩
    · dsimp only
      split
      · exact ⟨store, h.advance _, .lost nofun⟩
      · next reached latency hroute =>
          split
          · exact ⟨store, (h.advance _).advance _, .lost nofun⟩
          · have hreached := endpoint?_of_route? hroute
            rw [(h.advance _).endpoints, hseed] at hreached
            obtain rfl := Option.some.inj hreached
            obtain ⟨hresponse, hafter⟩ := ((h.advance _).advance _).serve request
            refine ⟨_, hafter, ?_⟩
            rw [hresponse]
            exact .answered _

end Provides

section

variable {config : AnnounceConfig} {repo : RepoId} {identity : PeerId} {encoded : Bytes}
  {signed : SignedManifest} {n : Network} {seed : Address} {endpoint : Endpoint} {before : Store}

/-- A push to one seed has a true outcome, and nobody else's store changes. -/
theorem exists_announceTo (config : AnnounceConfig) (repo : RepoId) (identity : PeerId)
    (hdecode : SignedManifest.decode encoded = .ok signed) (a : Announcing)
    (hseed : a.network.endpoint? seed = some endpoint)
    (hstore : a.network.storeAt? endpoint = some before) :
    ∃ outcome after,
      (announceTo config (.push repo identity encoded) a seed).outcomes =
        a.outcomes.insert seed outcome ∧
      a.network.Provides endpoint after
        (announceTo config (.push repo identity encoded) a seed).network ∧
      outcome.Truthful signed repo identity before after := by
  have hpause : ∀ delay n' store, a.network.Provides endpoint store n' →
      a.network.Provides endpoint store (pause delay n') := fun delay n' _ h =>
    h.advance (n'.now + waitFor delay)
  obtain ⟨after, hafter, htruthful⟩ := Push.exists_truthful
    (fun n' store => a.network.Provides endpoint store n') hdecode
    (fun _ _ h => h.attemptPush hseed (.push repo identity encoded) config.attemptTimeout.toNat)
    hpause config.backoff (config.attempts - 1) 1 config.backoff.first (.refl hstore)
  exact ⟨_, after, rfl, hafter.rewind, htruthful⟩

/-! ### All seeds -/

/-- What an announcement to some seeds has made of a network: there is one outcome for each of them,
which is true of its store, and nobody else's store has changed. -/
structure Announced (signed : SignedManifest) (repo : RepoId) (identity : PeerId)
    (seeds : List Address) (n : Network) (a : Announcing) : Prop where
  /-- There are outcomes for the seeds. -/
  reported : ∀ seed, a.outcomes.contains seed = true ↔ seed ∈ seeds
  /-- They are true. -/
  truthful : ∀ seed ∈ seeds, ∃ outcome before after, a.outcomes.get? seed = some outcome ∧
    n.storeOf? seed = some before ∧ a.network.storeOf? seed = some after ∧
      outcome.Truthful signed repo identity before after
  /-- The other endpoints have what they had. -/
  others : ∀ endpoint, (∀ seed ∈ seeds, n.endpoint? seed ≠ some endpoint) →
    a.network.storeAt? endpoint = n.storeAt? endpoint
  /-- The same endpoints are behind the addresses. -/
  endpoints : ∀ address, a.network.endpoint? address = n.endpoint? address

variable {seeds : List Address} {a : Announcing}

/-- An announcement to nobody has changed nothing. -/
theorem announced_start (n : Network) (latest : Nat) :
    Announced signed repo identity [] n ⟨n, latest, .empty⟩ :=
  ⟨fun _ => by simp, nofun, fun _ _ => rfl, fun _ => rfl⟩

/-- One more seed, with a store of its own. -/
theorem Announced.next (hdecode : SignedManifest.decode encoded = .ok signed)
    (h : Announced signed repo identity seeds n a) (hstore : n.storeOf? seed = some before)
    (hown : ∀ other ∈ seeds, n.endpoint? other ≠ n.endpoint? seed) :
    Announced signed repo identity (seeds ++ [seed]) n
      (announceTo config (.push repo identity encoded) a seed) := by
  obtain ⟨endpoint, hendpoint, hserved⟩ := Option.bind_eq_some_iff.mp hstore
  have hbefore : a.network.storeAt? endpoint = some before := by
    rw [h.others endpoint fun other hother => hendpoint ▸ hown other hother]
    exact hserved
  obtain ⟨outcome, after, houtcomes, hprovides, htruthful⟩ :=
    exists_announceTo config repo identity hdecode a
      ((h.endpoints seed).trans hendpoint) hbefore
  have hendpoints : ∀ address,
      (announceTo config (.push repo identity encoded) a seed).network.endpoint? address =
        n.endpoint? address := fun address =>
    (hprovides.endpoints address).trans (h.endpoints address)
  refine ⟨fun other => ?_, fun other hother => ?_, fun other hother => ?_, hendpoints⟩
  · rw [houtcomes, SortedMap.contains_insert, h.reported, List.mem_append, List.mem_singleton,
      or_comm]
  · rcases List.mem_append.mp hother with hold | hnew
    · obtain ⟨outcome', before', after', hget, hbefore', hafter', htruthful'⟩ :=
        h.truthful other hold
      have hne : other ≠ seed := by
        rintro rfl
        exact hown other hold rfl
      refine ⟨outcome', before', after', ?_, hbefore', ?_, htruthful'⟩
      · rw [houtcomes, SortedMap.get?_insert_of_ne _ hne, hget]
      · obtain ⟨endpoint', hendpoint', hserved'⟩ := Option.bind_eq_some_iff.mp hafter'
        rw [h.endpoints] at hendpoint'
        rw [storeOf?, hendpoints, hendpoint', Option.bind_some, hprovides.others, hserved']
        rintro rfl
        exact hown other hold (hendpoint'.trans hendpoint.symm)
    · obtain rfl := List.mem_singleton.mp hnew
      refine ⟨outcome, before, after, ?_, hstore, ?_, htruthful⟩
      · rw [houtcomes, SortedMap.get?_insert_self]
      · rw [storeOf?, hendpoints, hendpoint, Option.bind_some, hprovides.store]
  · simp only [List.mem_append, List.mem_singleton, or_imp, forall_and, forall_eq] at hother
    rw [hprovides.others other fun heq => hother.2 (heq ▸ hendpoint), h.others other hother.1]

/-- All seeds, each with a store of its own. -/
theorem Announced.foldl (hdecode : SignedManifest.decode encoded = .ok signed)
    (h : Announced signed repo identity seeds n a) {rest : List Address}
    (hserved : ∀ seed ∈ rest, ∃ store, n.storeOf? seed = some store)
    (hown : (seeds ++ rest).Pairwise fun seed other => n.endpoint? seed ≠ n.endpoint? other) :
    Announced signed repo identity (seeds ++ rest) n
      (rest.foldl (announceTo config (.push repo identity encoded)) a) := by
  induction rest generalizing seeds a with
  | nil => rwa [List.append_nil]
  | cons seed rest ih =>
      obtain ⟨⟨before, hstore⟩, hserved⟩ := List.forall_mem_cons.mp hserved
      have hsplit : seeds ++ seed :: rest = (seeds ++ [seed]) ++ rest := by simp
      have hnew : ∀ other ∈ seeds, n.endpoint? other ≠ n.endpoint? seed := fun other hother =>
        (List.pairwise_append.mp hown).2.2 other hother seed List.mem_cons_self
      rw [hsplit] at hown ⊢
      exact ih (h.next hdecode hstore hnew) hserved hown

/-- An announcement comes to a report about all seeds. -/
theorem exists_announced {node : Node} {own : Namespace}
    (hget : node.store.get repo node.id = .ok own)
    (hserved : ∀ seed ∈ node.config.announce.seeds, ∃ store, n.storeOf? seed = some store)
    (hown : node.config.announce.seeds.Pairwise fun seed other =>
      n.endpoint? seed ≠ n.endpoint? other) :
    ∃ a : Announcing,
      n.announce node repo = (.ok ⟨own.sequence, a.outcomes⟩, a.network.advance a.latest) ∧
        Announced own.signed repo node.id node.config.announce.seeds n a := by
  obtain ⟨encoded, hencode⟩ := own.exists_encode
  have hstart : Announced own.signed repo node.id [] n ⟨n, n.now, .empty⟩ :=
    announced_start n n.now
  refine ⟨node.config.announce.seeds.foldl
    (announceTo node.config.announce (.push repo node.id encoded)) ⟨n, n.now, .empty⟩, ?_,
    hstart.foldl (SignedManifest.decode_encode hencode) hserved hown⟩
  rw [announce, hget]
  simp only [hencode]

end

/-- Time that passes changes nobody's store. -/
theorem storeOf?_advance (n : Network) (time : Nat) (address : Address) :
    (n.advance time).storeOf? address = n.storeOf? address := by
  have hendpoint : (n.advance time).endpoint? address = n.endpoint? address :=
    endpoint_applyUntil time n.links n.scheduled address
  rw [storeOf?, hendpoint]
  rfl

/-- The outcome of a push is true of the store of the seed, whatever comes of the attempts, as long
as each of them ends before the store has handled the push or brings its answer. The report of an
announcement has one outcome for each seed, and if the seeds have a store each, all of them are
true: what was delivered has the number of the report and has replaced the copy of the seed, what
was up to date was stored with that number or a higher one, and in all other cases the store is
unchanged. No namespace of a seed changes but the announced one, and nobody else's store does. -/
theorem report_truthful :
    (∀ (σ : Type) (serves : σ → Store → Prop) (attempt : σ → Except AttemptFault UInt64 × σ)
      (pause : Nat → σ → σ) (config : AnnounceConfig) (own : Namespace) (repo : RepoId)
      (identity : PeerId) (encoded : Bytes) (s : σ) (before : Store),
      own.signed.encode = .ok encoded →
      (∀ s store, serves s store → ∃ after, serves (attempt s).2 after ∧
        Attempted (.push repo identity encoded) store (attempt s).1 after) →
      (∀ delay s store, serves s store → serves (pause delay s) store) →
      serves s before →
      ∃ after, serves (Push.run attempt pause config s).2 after ∧
        (Push.run attempt pause config s).1.Truthful own.signed repo identity before after ∧
        ∀ repo' identity', ¬(repo' = repo ∧ identity' = identity) →
          after.load repo' identity' = before.load repo' identity') ∧
    ∀ (n : Network) (node : Node) (repo : RepoId) (own : Namespace),
      node.store.get repo node.id = .ok own →
      (∀ seed ∈ node.config.announce.seeds, ∃ store, n.storeOf? seed = some store) →
      (node.config.announce.seeds.Pairwise fun seed other =>
        n.endpoint? seed ≠ n.endpoint? other) →
      ∃ report, (n.announce node repo).1 = .ok report ∧ report.sequence = own.sequence ∧
        report.outcomes.keys.Perm node.config.announce.seeds ∧
        (∀ seed ∈ node.config.announce.seeds, ∃ outcome before after,
          report.outcomes.get? seed = some outcome ∧ n.storeOf? seed = some before ∧
          (n.announce node repo).2.storeOf? seed = some after ∧
          outcome.Truthful own.signed repo node.id before after ∧
          ∀ repo' identity', ¬(repo' = repo ∧ identity' = node.id) →
            after.load repo' identity' = before.load repo' identity') ∧
        ∀ endpoint, (∀ seed ∈ node.config.announce.seeds, n.endpoint? seed ≠ some endpoint) →
          (n.announce node repo).2.storeAt? endpoint = n.storeAt? endpoint := by
  refine ⟨fun σ serves attempt pause config own repo identity encoded s before hencode hattempt
    hpause hserves => ?_, fun n node repo own hget hserved hown => ?_⟩
  · obtain ⟨after, hafter, htruthful⟩ := Push.exists_truthful serves
      (SignedManifest.decode_encode hencode) hattempt hpause config.backoff (config.attempts - 1) 1
      config.backoff.first hserves
    exact ⟨after, hafter, htruthful, fun _ _ => htruthful.load_of_ne⟩
  · obtain ⟨a, hannounce, h⟩ := exists_announced hget hserved hown
    have hnodup : node.config.announce.seeds.Nodup :=
      hown.imp fun hne heq => hne (congrArg n.endpoint? heq)
    rw [hannounce]
    refine ⟨_, rfl, rfl, ?_, fun seed hseed => ?_, fun endpoint hendpoint => h.others _ hendpoint⟩
    · refine (List.perm_ext_iff_of_nodup (SortedMap.nodup_keys _) hnodup).mpr fun seed => ?_
      rw [SortedMap.mem_keys_iff, h.reported]
    · obtain ⟨outcome, before, after, hget, hbefore, hafter, htruthful⟩ := h.truthful seed hseed
      exact ⟨outcome, before, after, hget, hbefore, (storeOf?_advance _ _ _).trans hafter,
        htruthful, fun _ _ => htruthful.load_of_ne⟩

end Network

/-! ### Three seeds -/

namespace ThreeSeeds

open OutOfOrder (repo first second)
open Seeded (storeWith)

/-- Alice, who announces her second manifest. -/
def alice : Node where
  keys := ⟨.replicate 32 1⟩
  id := OutOfOrder.alice
  id_eq := by decide +kernel
  store := storeWith second
  registry := .empty
  remotes := .empty
  delegates := .empty
  config := { NodeConfig.standard with
    announce := { AnnounceConfig.standard with seeds := ["behind", "ahead", "away"] } }

/-- Three seeds: one still has her first manifest, one has her second one, and one is not there. -/
def network : Network :=
  (((Network.start.addStore "behind" (storeWith first)).addStore "ahead"
    (storeWith second)).addStore "away" .inMemory).setLink "away" ⟨none, some false⟩

/-- What becomes of the announcement. -/
def outcomes : SortedMap Address AnnounceOutcome :=
  .ofList [("behind", .delivered 1 2), ("ahead", .upToDate 1),
    ("away", .unreachable 5 (.failed (.connection "away" .unreachable)))]

/-- One seed takes the manifest, one has it already, and one is not reached. -/
theorem get?_outcomes : outcomes.get? "behind" = some (.delivered 1 2) ∧
    outcomes.get? "ahead" = some (.upToDate 1) ∧
    outcomes.get? "away" =
      some (.unreachable 5 (.failed (.connection "away" .unreachable))) := by
  decide +kernel

set_option maxRecDepth 100000 in
/-- What Alice has, and what she is told. -/
theorem facts : alice.store.held repo alice.id = .ok (some second) ∧
    (network.announce alice repo).1.map AnnounceReport.outcomes = .ok outcomes := by
  decide +kernel

/-- A push of which some attempts get lost before the store answers. -/
def attemptAfter (request : Request) : Nat × Store → Except AttemptFault UInt64 × (Nat × Store)
  | (0, store) =>
    let (response, after) := store.respond 1700000000001 request
    ((Reply.accepted (.ok response)).mapError .failed, (0, after))
  | (lost + 1, store) => (.error .timedOut, (lost, store))

/-- Each seed is a store of its own name. -/
theorem endpoints : network.endpoint? "behind" = some (.store "behind") ∧
    network.endpoint? "ahead" = some (.store "ahead") ∧
    network.endpoint? "away" = some (.store "away") := ⟨rfl, rfl, rfl⟩

/-- Each seed is served by a store. -/
theorem served : ∀ seed ∈ alice.config.announce.seeds,
    ∃ store, network.storeOf? seed = some store := by
  intro seed hseed
  simp only [alice, List.mem_cons, List.not_mem_nil, or_false] at hseed
  rcases hseed with rfl | rfl | rfl
  · exact ⟨_, rfl⟩
  · exact ⟨_, rfl⟩
  · exact ⟨_, rfl⟩

/-- No two seeds are served by the same store. -/
theorem own_stores : alice.config.announce.seeds.Pairwise fun seed other =>
    network.endpoint? seed ≠ network.endpoint? other := by
  obtain ⟨hbehind, hahead, haway⟩ := endpoints
  simp [alice, hbehind, hahead, haway]

/-- The seed that was behind holds Alice's second manifest now, and the others hold what they held.
A push whose first two attempts get lost is reported truly as well. -/
theorem second_delivered :
    (∃ store, (network.announce alice repo).2.storeOf? "behind" = some store ∧
      store.held repo alice.id = .ok (some second)) ∧
    (network.announce alice repo).2.storeOf? "ahead" = network.storeOf? "ahead" ∧
    (network.announce alice repo).2.storeOf? "away" = network.storeOf? "away" ∧
    ∃ encoded, second.encode = .ok encoded ∧
      let attempt := attemptAfter (.push repo alice.id encoded)
      let done := Push.run attempt (fun _ s => s) .standard (2, storeWith first)
      done.1.Truthful second repo alice.id (storeWith first) done.2.2 := by
  obtain ⟨hheld, hreport⟩ := facts
  obtain ⟨own, hload, hsigned⟩ := Store.held_eq_some_iff.mp hheld
  have hget : alice.store.get repo alice.id = .ok own := by
    rw [Store.get, hload]
    rfl
  obtain ⟨encoded, hencode⟩ := own.exists_encode
  obtain ⟨hpush, hannounce⟩ := Network.report_truthful
  obtain ⟨report, hdone, -, -, hseeds, -⟩ :=
    hannounce network alice repo own hget served own_stores
  obtain ⟨_, rfl, hpushed, -⟩ := hpush (Nat × Store) (fun s store => s.2 = store)
    (attemptAfter (.push repo alice.id encoded)) (fun _ s => s) .standard own repo alice.id encoded
    (2, storeWith first) (storeWith first) hencode (fun s store hstore => by
      subst hstore
      obtain ⟨lost, store⟩ := s
      cases lost with
      | zero => exact ⟨_, rfl, .answered _⟩
      | succ lost => exact ⟨_, rfl, .lost nofun⟩) (fun _ _ _ h => h) (by dsimp only)
  rw [hsigned] at hencode hpushed hseeds
  rw [hdone] at hreport
  have houtcomes : report.outcomes = outcomes := Except.ok.inj hreport
  obtain ⟨hbehind, hahead, haway⟩ := get?_outcomes
  refine ⟨?_, ?_, ?_, encoded, hencode, hpushed⟩
  · obtain ⟨outcome, before, after, houtcome, -, hafter, htruthful, -⟩ :=
      hseeds "behind" (by simp [alice])
    rw [houtcomes, hbehind] at houtcome
    cases houtcome
    obtain ⟨-, now, replaced, -, hcurrent, hfound⟩ := htruthful
    exact ⟨after, hafter, Store.held_eq_some_iff.mpr ⟨_, hfound, hcurrent⟩⟩
  · obtain ⟨outcome, before, after, houtcome, hbefore, hafter, htruthful, -⟩ :=
      hseeds "ahead" (by simp [alice])
    rw [houtcomes, hahead] at houtcome
    cases houtcome
    rw [hafter, hbefore, htruthful.1]
  · obtain ⟨outcome, before, after, houtcome, hbefore, hafter, htruthful, -⟩ :=
      hseeds "away" (by simp [alice])
    rw [houtcomes, haway] at houtcome
    cases houtcome
    rw [hafter, hbefore, show after = before from htruthful]

end ThreeSeeds

end SignedRefs
