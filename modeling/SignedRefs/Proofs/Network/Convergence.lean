import SignedRefs.Proofs.Network.Links
import SignedRefs.Proofs.Network.Steady

/-!
# Fetching Converges

After a node has fetched from peers that answer all calls, its store holds the newest copies: for
every identity the newest of what it held and of what it was offered. Two manifests with the same
number for an identity are the same, so there is only one newest copy, and the order in which the
answers came has left no trace. What was applied in any of the fetches had a higher number than
everything held before, so nothing is applied twice; and when the node fetches once more it is
offered nothing that is newer, so nothing is applied and its store stays the same.

## Main results

* `Network.Settled.newest`: what is held when all fetches are over.
* `Network.Settled.unchanged`: what fetching once more does.
* `Network.newest_of_fetches`: fetching converges to the newest copies.
-/

namespace SignedRefs

/-- A manifest of an identity with a number was applied. -/
def FetchReport.Applies (report : FetchReport) (id : PeerId) (sequence : UInt64) : Prop :=
  ∃ updates, report.outcomes.get? id = some (.applied sequence updates)

/-- What a report says was applied shows in the outcomes. -/
theorem applied_of_applies {done : List FetchReport} {i : Nat} {report : FetchReport} {id : PeerId}
    {sequence : UInt64} (hreport : done[i]? = some report) (happlies : report.Applies id sequence) :
    Applied (outcomesIn done) i id sequence := by
  obtain ⟨updates, hupdates⟩ := happlies
  refine ⟨updates, ?_⟩
  rw [outcomesIn, hreport]
  exact hupdates

/-- A fetch asks a server for one list of identities. -/
theorem Fetch.Asks.unique {f : Fetch} {server : Store} {ids ids' : List PeerId}
    (h : f.Asks server ids) (h' : f.Asks server ids') : ids = ids' := by
  obtain ⟨listed, hlisted, rfl⟩ := h
  obtain ⟨listed', hlisted', rfl⟩ := h'
  rw [hlisted] at hlisted'
  cases hlisted'
  rfl

namespace Network

variable {n after last : Network} {name : String} {node : Node} {repo : RepoId} {scope : Scope}
  {peers : List Address} {stores later : Address → Store} {done again : List FetchReport}
  {store store' : Store}

/-- Behind the address of a peer is the store of the node, or the same one as before. -/
theorem Holds.storeOf? {peer : Address} (h : n.Holds name node store after)
    (hserved : n.storeOf? peer = some (stores peer)) :
    (n.endpoint? peer = some (.node name) ∧ after.storeOf? peer = some store) ∨
      (n.endpoint? peer ≠ some (.node name) ∧ after.storeOf? peer = some (stores peer)) := by
  obtain ⟨endpoint, hendpoint, hstore⟩ := Option.bind_eq_some_iff.mp hserved
  have hafter : after.storeOf? peer = after.storeAt? endpoint := by
    rw [Network.storeOf?, h.endpoints, hendpoint]
    rfl
  rw [hafter, hendpoint]
  rcases h.storeAt? endpoint with ⟨rfl, hat⟩ | ⟨hother, hat⟩
  · exact .inl ⟨rfl, hat⟩
  · exact .inr ⟨fun heq => hother (Option.some.inj heq), hat.trans hstore⟩

namespace Settled

/-- Who got an outcome in a fetch from another peer was on offer there if the peer sends a
manifest. -/
theorem offers {i : Nat} {id : PeerId} {m : SignedManifest}
    (h : n.Settled name node repo scope peers stores done store after)
    (hcontains : (outcomesIn done i).contains id = true)
    (hoffered : n.Offered name repo peers stores i id m) :
    ∃ peer ∈ peers, (node.fetchFrom repo scope peer).Offers (stores peer) id m := by
  obtain ⟨peer, hpeer, hother, hsends⟩ := hoffered
  obtain ⟨server, ids, hserves, hasked, hids⟩ := h.asked i peer hpeer
  rcases hserves with hself | rfl
  · exact absurd hself hother
  · exact ⟨peer, List.mem_of_getElem? hpeer, ⟨ids, hasked, (hids id).mp hcontains⟩, hsends⟩

/-- What was on offer from a peer was on offer in one of the fetches, or it was held before. -/
theorem offered {peer : Address} {id : PeerId} {m : SignedManifest}
    (h : n.Settled name node repo scope peers stores done store after)
    (hnode : n.nodes.get? name = some node) (hpeer : peer ∈ peers)
    (hserved : n.storeOf? peer = some (stores peer))
    (hoffers : (node.fetchFrom repo scope peer).Offers (stores peer) id m) :
    (∃ i, (outcomesIn done i).contains id = true ∧ n.Offered name repo peers stores i id m) ∨
      node.store.held repo id = .ok (some m) := by
  obtain ⟨⟨ids, hasks, hid⟩, hsends⟩ := hoffers
  by_cases hself : n.endpoint? peer = some (.node name)
  · exact .inr (store_eq_of_self hnode hself hserved ▸ hsends.1)
  · obtain ⟨i, hi⟩ := List.getElem?_of_mem hpeer
    obtain ⟨server, ids', hserves, hasked, hids⟩ := h.asked i peer hi
    obtain rfl := hserves.resolve_left hself
    obtain rfl := hasks.unique hasked
    exact .inl ⟨i, (hids id).mpr hid, peer, hi, hself, hsends⟩

/-- For every identity the newest of what was held and of what was on offer is held. -/
theorem newest (h : n.Settled name node repo scope peers stores done store after)
    (hnode : n.nodes.get? name = some node)
    (hserved : ∀ peer ∈ peers, n.storeOf? peer = some (stores peer)) {id : PeerId}
    {before : Option SignedManifest} (hbefore : node.store.held repo id = .ok before) :
    ∃ latest, store.held repo id = .ok latest ∧ Newest before
      (fun m => ∃ peer ∈ peers, (node.fetchFrom repo scope peer).Offers (stores peer) id m)
      latest := by
  obtain ⟨latest, hlatest, hnewest⟩ := h.tally.newest id before hbefore
  refine ⟨latest, hlatest, hnewest.mono ?_ ?_⟩
  · rintro m ⟨i, hcontains, hoffered⟩
    exact h.offers hcontains hoffered
  · rintro m ⟨peer, hpeer, hoffers⟩
    refine (h.offered hnode hpeer (hserved peer hpeer) hoffers).imp_right fun hheld => ?_
    rw [hbefore] at hheld
    exact Except.ok.inj hheld

/-- Afterwards the peers are still served by stores that can answer, the others by the same ones. -/
theorem exists_server (h : n.Settled name node repo scope peers stores done store after)
    (hnode : n.nodes.get? name = some node) {peer : Address}
    (hserved : n.storeOf? peer = some (stores peer)) (hsound : (stores peer).Sound) :
    ∃ server, after.storeOf? peer = some server ∧ server.Sound ∧
      (n.endpoint? peer ≠ some (.node name) → server = stores peer) := by
  rcases h.network.storeOf? hserved with ⟨hself, hafter⟩ | ⟨-, hafter⟩
  · rw [store_eq_of_self hnode hself hserved] at hsound
    exact ⟨store, hafter, h.tally.sound hsound, fun hother => absurd hself hother⟩
  · exact ⟨stores peer, hafter, hsound, fun _ => rfl⟩

/-- Fetching once more applies nothing: what is offered by a peer, who is another one, was offered
the first time as well. -/
theorem unchanged (h : n.Settled name node repo scope peers stores done store after)
    (hnode : n.nodes.get? name = some node)
    (hserved : ∀ peer ∈ peers, n.storeOf? peer = some (stores peer))
    (hlater : ∀ peer ∈ peers, n.endpoint? peer ≠ some (.node name) → later peer = stores peer)
    (hagain : after.Settled name { node with store := store } repo scope peers later again store'
      last) :
    (∀ i id sequence, ¬Applied (outcomesIn again) i id sequence) ∧ store' = store := by
  refine hagain.tally.unchanged_of_newest fun i id m hcontains hoffered => ?_
  obtain ⟨peer, hpeer, hother, hsends⟩ := hoffered
  have hmem := List.mem_of_getElem? hpeer
  rw [h.network.endpoints] at hother
  have hoffers : (node.fetchFrom repo scope peer).Offers (stores peer) id m := by
    obtain ⟨server, ids, hserves, hasked, hids⟩ := hagain.asked i peer hpeer
    rw [Network.Serves, h.network.endpoints] at hserves
    obtain rfl := hserves.resolve_left hother
    rw [hlater peer hmem hother] at hasked hsends
    exact ⟨⟨ids, hasked, (hids id).mp hcontains⟩, hsends⟩
  cases hload : node.store.load repo id with
  | error error => exact .inl ⟨error, h.tally.failing id error hload⟩
  | ok found =>
      obtain ⟨latest, hlatest, hnewest⟩ :=
        h.newest hnode hserved (map_eq_ok_iff.mpr ⟨found, hload, rfl⟩)
      obtain ⟨m', rfl, hle⟩ := hnewest.above_delivered m ⟨peer, hmem, hoffers⟩
      exact .inr ⟨m', hlatest, hle⟩

end Settled

/-- Fetching from peers that are served by stores and answer all calls converges to the newest
copies, if no two of the stores hold different manifests with the same number for an identity. This
is so for fetching in the order of time, and for taking the answers in any other order. All fetches
succeed. For every identity the node then holds the newest of the manifest it held and of those it
was offered, and there is only one; where it could not look up what it held, it still cannot. No
number is applied for an identity in two fetches. Fetching once more applies nothing, and leaves the
node as it is. -/
theorem newest_of_fetches (n : Network) (name : String) (node : Node) (repo : RepoId)
    (peers : List Address) (scope : Scope) (stores : Address → Store)
    (hnode : n.nodes.get? name = some node)
    (hserved : ∀ peer ∈ peers, n.storeOf? peer = some (stores peer) ∧ (stores peer).Reached)
    (hcoherent : ∀ s ∈ node.store :: peers.map stores, ∀ s' ∈ node.store :: peers.map stores,
      ∀ id m m', s.held repo id = .ok (some m) → s'.held repo id = .ok (some m') →
        m.manifest.sequence = m'.manifest.sequence → m = m') :
    (∀ (n' : Network) (node' : Node), n'.nodes.get? name = some node' →
      (n'.batch node' repo peers scope).Answered name →
        n'.Fetches name node' repo peers scope (n'.fetchAll name node' repo peers scope).1
          (n'.fetchAll name node' repo peers scope).2) ∧
    ∀ reports after, n.Fetches name node repo peers scope reports after →
      ∃ (store : Store) (done : List FetchReport),
        after.nodes.get? name = some { node with store := store } ∧
        reports = done.map (fun report => (report.peer, .ok report)) ∧
        done.map FetchReport.peer = peers ∧
        (∀ id before, node.store.held repo id = .ok before →
          ∃ latest, store.held repo id = .ok latest ∧
            Newest before (fun m => ∃ peer ∈ peers,
              (node.fetchFrom repo scope peer).Offers (stores peer) id m) latest ∧
            ∀ m, latest = some m → ∀ peer ∈ peers, ∀ m',
              (node.fetchFrom repo scope peer).Offers (stores peer) id m' →
                m'.manifest.sequence = m.manifest.sequence → m' = m) ∧
        (∀ id error, node.store.load repo id = .error error →
          store.load repo id = .error error) ∧
        (∀ (i j : Nat) (report report' : FetchReport) (id : PeerId) (sequence : UInt64),
          done[i]? = some report → done[j]? = some report' →
            report.Applies id sequence → report'.Applies id sequence → i = j) ∧
        ∀ reports' after',
          after.Fetches name { node with store := store } repo peers scope reports' after' →
            ∃ again : List FetchReport,
              reports' = again.map (fun report => (report.peer, .ok report)) ∧
              again.map FetchReport.peer = peers ∧
              (∀ report ∈ again, ∀ id sequence, ¬report.Applies id sequence) ∧
              after'.nodes.get? name = some { node with store := store } := by
  refine ⟨fun n' node' hnode' hanswered => fetches_fetchAll ⟨node', hnode'⟩ hanswered,
    fun reports after hfetches => ?_⟩
  have hstores : ∀ peer ∈ peers, n.storeOf? peer = some (stores peer) := fun peer hpeer =>
    (hserved peer hpeer).1
  have hsound : ∀ peer ∈ peers, (stores peer).Sound := fun peer hpeer =>
    (hserved peer hpeer).2.sound
  obtain ⟨store, done, hsettled, hreports, hpeers⟩ :=
    hfetches.exists_settled hnode fun peer hpeer => ⟨hstores peer hpeer, hsound peer hpeer⟩
  refine ⟨store, done, hsettled.network.node, hreports, hpeers, fun id before hbefore => ?newest,
    hsettled.tally.failing, fun i j report report' id sequence hi hj happlies happlies' => ?once,
    fun reports' after' hagain => ?again⟩
  case newest =>
    obtain ⟨latest, hlatest, hnewest⟩ := hsettled.newest hnode hstores hbefore
    refine ⟨latest, hlatest, hnewest, ?_⟩
    rintro m rfl peer hpeer m' hoffers hsequence
    have hmem' : stores peer ∈ node.store :: peers.map stores :=
      List.mem_cons_of_mem _ (List.mem_map_of_mem hpeer)
    rcases hnewest.origin with rfl | ⟨_, ⟨⟩, peer', hpeer', hoffers'⟩
    · exact hcoherent _ hmem' _ List.mem_cons_self id m' m hoffers.2.1 hbefore hsequence
    · exact hcoherent _ hmem' _ (List.mem_cons_of_mem _ (List.mem_map_of_mem hpeer')) id m' m
        hoffers.2.1 hoffers'.2.1 hsequence
  case once =>
    exact hsettled.tally.once i j id sequence (applied_of_applies hi happlies)
      (applied_of_applies hj happlies')
  case again =>
    let later : Address → Store := fun peer => (after.storeOf? peer).getD (stores peer)
    have hlater : ∀ peer ∈ peers, after.storeOf? peer = some (later peer) ∧ (later peer).Sound ∧
        (n.endpoint? peer ≠ some (.node name) → later peer = stores peer) := fun peer hpeer => by
      obtain ⟨server, hserver, hrest⟩ :=
        hsettled.exists_server hnode (hstores peer hpeer) (hsound peer hpeer)
      have hsame : later peer = server := by
        simp only [later, hserver, Option.getD_some]
      rw [hsame]
      exact ⟨hserver, hrest⟩
    obtain ⟨store', again, hsettled', hreports', hpeers'⟩ :=
      hagain.exists_settled hsettled.network.node
        fun peer hpeer => ⟨(hlater peer hpeer).1, (hlater peer hpeer).2.1⟩
    obtain ⟨hnone, rfl⟩ := hsettled.unchanged hnode hstores
      (fun peer hpeer => (hlater peer hpeer).2.2) hsettled'
    refine ⟨again, hreports', hpeers', fun report hreport id sequence happlies => ?_,
      hsettled'.network.node⟩
    obtain ⟨i, hi⟩ := List.getElem?_of_mem hreport
    exact hnone i id sequence (applied_of_applies hi happlies)

end Network

/-- A new store into which one manifest was put holds nothing else. -/
theorem Store.eq_of_held_put {backend : Backend} {now : Int64} {repo repo' : RepoId} {id : PeerId}
    {signed m : SignedManifest}
    (h : (backend.newStore.afterAll [.write (.put now repo signed)]).held repo' id = .ok (some m)) :
    m = signed := by
  have hempty : backend.newStore.held repo' id ≠ .ok (some m) := by
    rw [held, backend.load_newStore]
    rintro ⟨⟩
  have hafter : backend.newStore.afterAll [.write (.put now repo signed)] =
      (backend.newStore.perform (.put now repo signed)).2 := rfl
  rw [hafter, perform, put] at h
  cases hreplace : backend.newStore.replace now repo signed.manifest.identity signed with
  | error error =>
      rw [hreplace] at h
      exact absurd h hempty
  | ok done =>
      rw [hreplace] at h
      have hheld : done.2.held repo' id = .ok (some m) := h
      rw [held_of_replace hreplace] at hheld
      split at hheld
      · cases hheld
        rfl
      · exact absurd hheld hempty

namespace Seeded

open OutOfOrder (repo alice first second)

/-- Bob, who tracks Alice. -/
def bob : Node where
  keys := ⟨.replicate 32 2⟩
  id := ⟨.ofNat 32 0x8139770ea87d175f56a35466c34c7ecccb8d8a91b4ee37a25df60f5b8fc9b394⟩
  id_eq := by decide +kernel
  store := .inMemory
  registry := Registry.empty.track alice none .trusted
  remotes := .empty
  delegates := .empty
  config := .standard

/-- A store into which a manifest was put. -/
def storeWith (signed : SignedManifest) : Store :=
  Backend.database.newStore.afterAll [.write (.put 1700000000000 repo signed)]

/-- The stores of two seeds: one still has Alice's first manifest, the other one has her second. -/
def stores (peer : Address) : Store := if peer = "behind" then storeWith first else storeWith second

/-- Bob and the two seeds. -/
def network : Network :=
  ((Network.start.addNode "bob" bob).addStore "behind" (stores "behind")).addStore "ahead"
    (stores "ahead")

/-- Where Bob fetches from. -/
def peers : List Address := ["behind", "ahead"]

/-- There are two peers. -/
theorem mem_peers {peer : Address} (h : peer ∈ peers) : peer = "behind" ∨ peer = "ahead" := by
  simpa [peers] using h

/-- Both seeds can be reached at once, and no link is going to change. -/
theorem answered : (network.batch bob repo peers .trusted).Answered "bob" := by
  refine Network.answered_of_near ⟨bob, rfl⟩ rfl fun peer hpeer => ?_
  rcases mem_peers hpeer with rfl | rfl
  · exact ⟨.store "behind", 0, rfl, fun _ => Nat.zero_le _⟩
  · exact ⟨.store "ahead", 0, rfl, fun _ => Nat.zero_le _⟩

/-- Both are served by stores that some run has led to. -/
theorem served {peer : Address} (h : peer ∈ peers) :
    network.storeOf? peer = some (stores peer) ∧ (stores peer).Reached := by
  rcases mem_peers h with rfl | rfl
  · exact ⟨rfl, .database, _, rfl⟩
  · exact ⟨rfl, .database, _, rfl⟩

/-- All that Bob and the seeds hold is Alice's two manifests. -/
theorem first_or_second {s : Store} (h : s ∈ bob.store :: peers.map stores) {id : PeerId}
    {m : SignedManifest} (hheld : s.held repo id = .ok (some m)) : m = first ∨ m = second := by
  rcases List.mem_cons.mp h with rfl | hseed
  · cases hheld
  · obtain ⟨peer, hpeer, rfl⟩ := List.mem_map.mp hseed
    rcases mem_peers hpeer with rfl | rfl
    · exact .inl (Store.eq_of_held_put hheld)
    · exact .inr (Store.eq_of_held_put hheld)

/-- Her second one is on offer. -/
theorem second_offered :
    (bob.fetchFrom repo .trusted "ahead").Offers (stores "ahead") alice second := by
  have hheld : (stores "ahead").held repo alice = .ok (some second) := by decide +kernel
  have hmem : "ahead" ∈ peers := by decide
  obtain ⟨listed, hlisted⟩ := (served hmem).2.sound.listable repo
  obtain ⟨found, -, hfound⟩ := Store.held_eq_some_iff.mp hheld
  obtain ⟨encoded, hencode⟩ := found.exists_encode
  rw [hfound] at hencode
  refine ⟨⟨_, ⟨listed, hlisted, rfl⟩, SortedMap.mem_keys_iff.mpr ?_⟩, hheld, encoded, hencode, ?_⟩
  · exact Registry.contains_candidates_iff.mpr ⟨by decide, .inl ⟨by decide, by decide⟩⟩
  · rw [SignedManifest.length_of_encode hencode]
    decide

/-- Bob ends up with the second one. -/
theorem second_fetched : ∃ store, (network.fetchAll "bob" bob repo peers .trusted).2.nodes.get?
      "bob" = some { bob with store := store } ∧
    store.held repo alice = .ok (some second) := by
  obtain ⟨hfetches, hconverges⟩ := Network.newest_of_fetches network "bob" bob repo peers .trusted
    stores rfl (fun peer hpeer => served hpeer) fun s hs s' hs' id m m' hm hm' hsequence => by
      rcases first_or_second hs hm with rfl | rfl
      · rcases first_or_second hs' hm' with rfl | rfl
        · rfl
        · exact absurd hsequence (by decide)
      · rcases first_or_second hs' hm' with rfl | rfl
        · exact absurd hsequence (by decide)
        · rfl
  obtain ⟨store, -, hstore, -, -, hnewest, -⟩ :=
    hconverges _ _ (hfetches network bob rfl answered)
  obtain ⟨latest, hlatest, hlast, -⟩ := hnewest alice none rfl
  obtain ⟨m, rfl, hle⟩ := hlast.above_delivered second ⟨"ahead", by decide, second_offered⟩
  refine ⟨store, hstore, ?_⟩
  rcases hlast.origin with hnone | ⟨_, ⟨⟩, peer, hpeer, hoffers⟩
  · cases hnone
  · rcases first_or_second (List.mem_cons_of_mem _ (List.mem_map_of_mem hpeer)) hoffers.2.1 with
      rfl | rfl
    · exact absurd hle (by decide)
    · exact hlatest

end Seeded

end SignedRefs
