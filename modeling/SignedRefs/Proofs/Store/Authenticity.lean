import SignedRefs.Proofs.Node.Authoring
import SignedRefs.Sync.Fetch

/-!
# What a Store Holds

Manifests reach a store from everywhere: they are written to it, peers push them and are asked for
them, and the node that has the store authors its own. What comes from a peer is read by a decoder
that does not look at signatures, and peers may say anything in any order. All of it ends in
`Store.replace`, though (`Store.Accepts`), so that nothing is ever stored but authentic namespaces,
each in its own place (`Namespace.Authentic`). That is the invariant of a run of `Operation`s.

## Main results

* `Store.resume_cases`: what an answer can do to a store in the middle of a fetch.
* `Node.perform_eq_ok`: what a local call does to the store.
* `Store.Authentic.after`, `Store.Authentic.afterAll`: an operation and a run keep the invariant.
* `Store.authentic_of_run`: what a store holds after any run.
-/

namespace SignedRefs

/-- A namespace is what the store of a repository should hold for an identity. -/
structure Namespace.Authentic (n : Namespace) (repo : RepoId) (identity : PeerId) : Prop where
  /-- The manifest is for the repository. -/
  repo_eq : n.manifest.repo = repo
  /-- It is one of the identity. -/
  identity_eq : n.manifest.identity = identity
  /-- It follows the rules for manifests. -/
  valid : n.manifest.validate = .ok ()
  /-- It does not list too many refs. -/
  size_le : n.manifest.refs.size ≤ 4096
  /-- It does not list its own record. -/
  not_listed : n.manifest.refs.contains .signedRefs = false
  /-- The identity signed it. -/
  signature : ∃ message, n.manifest.signingBytes = .ok message ∧
    identity.verify message n.signed.signature = .ok ()
  /-- The record is named by the digest of the encoded manifest. -/
  record_eq : ∃ encoded, n.signed.encode = .ok encoded ∧ n.record = ObjectId.digest encoded

/-! ### Local calls -/

/-- What a node can be asked to do to its own namespace. -/
inductive LocalCall
  /-- It starts its namespace. -/
  | init (document : ObjectId)
  /-- It points a ref at an object. -/
  | setRef (name : RefName) (target : ObjectId)
  /-- It points a branch at an object. -/
  | setHead (branch : String) (target : ObjectId)
  /-- It removes a ref. -/
  | removeRef (name : RefName)
  /-- It authors a change of a patch. -/
  | author (graph : MemoryGraph) (call : Authoring)

namespace Node

variable {node node' : Node} {now : Int64} {repo : RepoId}

/-- Does what it is asked to do. -/
def perform (node : Node) (now : Int64) (repo : RepoId) : LocalCall → Except NodeError Node
  | .init document => (node.initNamespace now repo document).map Prod.snd
  | .setRef name target => (node.setRef now repo name target).map Prod.snd
  | .setHead branch target => (node.setHead now repo branch target).map Prod.snd
  | .removeRef name => (node.removeRef now repo name).map Prod.snd
  | .author graph call => (node.author graph now repo call).result.map Prod.snd

/-- Whatever a node is asked to do, it writes its own namespace. -/
theorem perform_eq_ok {call : LocalCall} (h : node.perform now repo call = .ok node') :
    ∃ edit written, node.writeRefs now repo edit = .ok (written, node') := by
  cases call with
  | init document =>
      obtain ⟨⟨written, _⟩, hwrite, rfl⟩ := map_eq_ok_iff.mp h
      exact ⟨_, written, hwrite⟩
  | setRef name target =>
      obtain ⟨⟨written, _⟩, hwrite, rfl⟩ := map_eq_ok_iff.mp h
      exact ⟨_, written, hwrite⟩
  | setHead branch target =>
      obtain ⟨⟨written, _⟩, hset, rfl⟩ := map_eq_ok_iff.mp h
      obtain ⟨branch, -, hwrite⟩ := bind_eq_ok_iff.mp hset
      exact ⟨_, written, hwrite⟩
  | removeRef name =>
      obtain ⟨⟨written, _⟩, hwrite, rfl⟩ := map_eq_ok_iff.mp h
      exact ⟨_, written, hwrite⟩
  | author graph call =>
      obtain ⟨⟨new, _⟩, hresult, rfl⟩ := map_eq_ok_iff.mp h
      cases hauthored : node.author graph now repo call with
      | mk result graph' =>
          rw [hauthored] at hresult
          subst hresult
          obtain ⟨-, written, -, hwrite, -⟩ := author_eq_ok hauthored
          exact ⟨_, written, hwrite⟩

end Node

/-! ### Replies -/

/-- Where a manifest is understood, one was sent. -/
theorem Reply.eq_of_manifest {reply : Reply} {found : Option Bytes}
    (h : reply.manifest = .ok found) : reply = .ok (.manifest found) := by
  cases reply with
  | error error => cases h
  | ok response =>
      simp only [Reply.manifest, Reply.checked] at h
      cases hvalid : response.validate with
      | error fault =>
          rw [hvalid] at h
          cases h
      | ok _ =>
          rw [hvalid] at h
          cases response with
          | manifest encoded =>
              cases h
              rfl
          | _ => cases h

/-! ### Operations -/

/-- What can happen to a store. -/
inductive Operation
  /-- It is written to, or a request of a peer is answered. -/
  | write (write : Write)
  /-- In a fetch that has come to some state, something arrives for a call. -/
  | arrive (fetch : Fetch) (now : Int64) (state : FetchState) (call : Call) (arrival : Arrival)
  /-- The node that has it does what it is asked to do. -/
  | act (node : Node) (now : Int64) (repo : RepoId) (call : LocalCall)

namespace Store

/-- The store after an operation. -/
def after (store : Store) : Operation → Store
  | .write write => (store.perform write).2
  | .arrive fetch now state call arrival => (fetch.resume now state store call arrival).2
  | .act node now repo call =>
    match { node with store := store }.perform now repo call with
    | .ok node => node.store
    | .error _ => store

/-- The store after several operations. -/
def afterAll (store : Store) (operations : List Operation) : Store := operations.foldl after store

/-- A store accepts a manifest and becomes another one. -/
def Accepts (store after : Store) : Prop :=
  ∃ now repo identity signed replaced,
    store.replace now repo identity signed = .ok (replaced, after)

variable {store : Store}

/-- An encoded manifest leaves the store as it was, unless it can be read and is accepted. -/
theorem applyEncoded_cases (store : Store) (now : Int64) (repo : RepoId) (identity : PeerId)
    (encoded : Bytes) : (store.applyEncoded now repo identity encoded).2 = store ∨
      ∃ signed replaced, SignedManifest.decode encoded = .ok signed ∧
        store.replace now repo identity signed =
          .ok (replaced, (store.applyEncoded now repo identity encoded).2) := by
  unfold applyEncoded
  cases SignedManifest.decode encoded with
  | error error => exact .inl rfl
  | ok signed =>
      dsimp only
      cases hreplace : store.replace now repo identity signed with
      | error error => exact .inl rfl
      | ok done => exact .inr ⟨signed, done.1, rfl, hreplace⟩

/-- The answer to the request for a manifest changes the store only if it brings one that can be
read and is accepted. -/
theorem apply_cases (store : Store) (answer : Answer) (now : Int64) (repo : RepoId)
    (identity : PeerId) : (answer.apply store now repo identity).2 = store ∨
      ∃ encoded signed replaced, answer = .replied (.ok (.manifest (some encoded))) ∧
        SignedManifest.decode encoded = .ok signed ∧
          store.replace now repo identity signed =
            .ok (replaced, (answer.apply store now repo identity).2) := by
  cases answer with
  | timedOut => exact .inl rfl
  | replied reply =>
      simp only [Answer.apply]
      cases hmanifest : reply.manifest with
      | error error => cases error <;> exact .inl rfl
      | ok found =>
          cases found with
          | none => exact .inl rfl
          | some encoded =>
              obtain rfl := Reply.eq_of_manifest hmanifest
              rcases store.applyEncoded_cases now repo identity encoded with hsame |
                ⟨signed, replaced, hdecode, hreplace⟩
              · exact .inl hsame
              · exact .inr ⟨encoded, signed, replaced, rfl, hdecode, hreplace⟩

/-- Whatever arrives in a fetch, the store stays as it was or accepts a manifest that arrives. -/
theorem resume_cases (store : Store) (fetch : Fetch) (now : Int64) (state : FetchState)
    (call : Call) (arrival : Arrival) :
    (fetch.resume now state store call arrival).2 = store ∨
      ∃ repo identity encoded signed replaced,
        arrival = .response (.manifest (some encoded)) ∧
          SignedManifest.decode encoded = .ok signed ∧
            store.replace now repo identity signed =
              .ok (replaced, (fetch.resume now state store call arrival).2) := by
  unfold Fetch.resume
  split
  · exact .inl rfl
  · exact .inl rfl
  · next waiting running outcomes identity =>
      split
      · rcases store.apply_cases (fetch.replyOf arrival) now fetch.repo identity with hsame |
          ⟨encoded, signed, replaced, hreply, hdecode, hreplace⟩
        · exact .inl hsame
        · have harrival : arrival = .response (.manifest (some encoded)) := by
            cases arrival with
            | response response =>
                cases hreply
                rfl
            | _ => cases hreply
          exact .inr ⟨fetch.repo, identity, encoded, signed, replaced, harrival, hdecode, hreplace⟩
      · exact .inl rfl
  · exact .inl rfl

/-- An operation leaves the store as it was, or the store accepts a manifest. -/
theorem after_cases (store : Store) (operation : Operation) :
    store.after operation = store ∨ Accepts store (store.after operation) := by
  cases operation with
  | write write =>
      rcases store.perform_cases write with hnone | ⟨now, repo, identity, signed, replaced, after,
        hreplace, hsome⟩
      · exact .inl (congrArg Prod.snd hnone)
      · refine .inr ⟨now, repo, identity, signed, replaced, ?_⟩
        rw [Store.after, hsome, hreplace]
  | arrive fetch now state call arrival =>
      rcases store.resume_cases fetch now state call arrival with hsame | ⟨repo, identity, -,
        signed, replaced, -, -, hreplace⟩
      · exact .inl hsame
      · exact .inr ⟨now, repo, identity, signed, replaced, hreplace⟩
  | act node now repo call =>
      rw [Store.after]
      split
      · next node' hperform =>
          obtain ⟨edit, written, hwrite⟩ := Node.perform_eq_ok hperform
          obtain ⟨-, signed, replaced, -, -, hreplace, -⟩ := Node.writeRefs_eq_ok hwrite
          exact .inr ⟨_, _, _, signed, replaced, hreplace⟩
      · exact .inl rfl

/-! ### The invariant -/

/-- Look-ups succeed, and find nothing but authentic namespaces. -/
def Authentic (store : Store) : Prop :=
  ∀ repo identity, ∃ found, store.load repo identity = .ok found ∧
    ∀ n, found = some n → n.Authentic repo identity

/-- What is accepted makes an authentic namespace. -/
theorem authentic_of_acceptable {repo : RepoId} {identity : PeerId} {signed : SignedManifest}
    {before : Option Namespace} {n : Namespace} (h : Acceptable repo identity signed before)
    (hsigned : n.signed = signed) : n.Authentic repo identity := by
  subst hsigned
  obtain ⟨hlisted, hsize⟩ := Manifest.validate_eq_ok_iff.mp h.valid
  obtain ⟨encoded, hencode, hrecord⟩ := bind_eq_ok_iff.mp n.record_eq
  have hrecord : n.record = ObjectId.digest encoded := (Except.ok.inj hrecord).symm
  exact ⟨h.repo_eq, h.identity_eq, h.valid, hsize, hlisted, h.signature, encoded, hencode, hrecord⟩

/-- What is accepted is authentic, so an authentic store stays so. -/
theorem Authentic.accept {after : Store} (h : store.Authentic) (haccepts : Accepts store after) :
    after.Authentic := by
  obtain ⟨now, repo, identity, signed, replaced, hreplace⟩ := haccepts
  obtain ⟨-, hacceptable, hsigned, -, -⟩ := replace_eq_ok_iff.mp hreplace
  intro repo' identity'
  rw [load_of_replace hreplace]
  by_cases hplace : repo' = repo ∧ identity' = identity
  · obtain ⟨rfl, rfl⟩ := hplace
    refine ⟨some replaced.current, if_pos ⟨rfl, rfl⟩, fun n hn => ?_⟩
    cases hn
    exact authentic_of_acceptable hacceptable hsigned
  · rw [if_neg hplace]
    exact h repo' identity'

/-- Every operation keeps what the store holds authentic. -/
theorem Authentic.after (h : store.Authentic) (operation : Operation) :
    (store.after operation).Authentic := by
  rcases store.after_cases operation with hsame | haccepts
  · rwa [hsame]
  · exact h.accept haccepts

/-- A run keeps a store authentic. -/
theorem Authentic.afterAll (h : store.Authentic) (operations : List Operation) :
    (store.afterAll operations).Authentic := by
  induction operations generalizing store with
  | nil => exact h
  | cons operation operations ih => exact ih (h.after operation)

/-- A new store is authentic. -/
theorem authentic_newStore (backend : Backend) : backend.newStore.Authentic :=
  fun repo identity => ⟨none, backend.load_newStore repo identity, fun _ hn => by cases hn⟩

/-- After any run from a new store, look-ups and snapshots find nothing but authentic namespaces:
each is for the repository and the identity under which it is found, follows the rules, is signed by
that identity, and is named by its digest. So no manifest is found in two places. -/
theorem authentic_of_run (backend : Backend) (operations : List Operation) :
    let store := backend.newStore.afterAll operations
    (∀ repo identity, ∃ found, store.load repo identity = .ok found ∧
      ∀ n, found = some n → n.Authentic repo identity) ∧
    (∀ repo s, store.snapshot repo = .ok s →
      ∀ identity n, s.get? identity = some n → n.Authentic repo identity) ∧
    ∀ repo identity repo' identity' n n', store.load repo identity = .ok (some n) →
      store.load repo' identity' = .ok (some n') → n.manifest = n'.manifest →
        repo = repo' ∧ identity = identity' := by
  intro store
  have hauthentic : store.Authentic := (authentic_newStore backend).afterAll operations
  have hfound : ∀ {repo identity n}, store.load repo identity = .ok (some n) →
      n.Authentic repo identity := fun {repo identity n} hload => by
    obtain ⟨found, hfound, hall⟩ := hauthentic repo identity
    rw [hload] at hfound
    exact hall n (Except.ok.inj hfound).symm
  refine ⟨hauthentic, fun repo s hs identity n hn => hfound ?_,
    fun repo identity repo' identity' n n' hn hn' heq => ?_⟩
  · rw [load_of_snapshot hs, hn]
  · rw [← (hfound hn).repo_eq, ← (hfound hn).identity_eq, ← (hfound hn').repo_eq,
      ← (hfound hn').identity_eq, heq]
    exact ⟨rfl, rfl⟩

end Store

namespace Forked

/-- Bob's namespace is put into a new database, and then once more. -/
def puts : List Operation :=
  let signed := manifest bob 1 byBob
    0x59f6fedf7cccedc49d445f15ff01d74142e5170407c0c8ff23289fb3e36361d8643942027fba25a22fb65d5ab0c147738e6bae2f0ebf2de7a9c76b76f47f7e0b
  [.write (.put 1700000000000 repo signed), .write (.put 1700000000001 repo signed)]

set_option maxRecDepth 100000 in
/-- What is put is found, and is authentic. -/
theorem found_after_puts : ∃ n,
    (Backend.database.newStore.afterAll puts).load repo bob = .ok (some n) ∧
      n.receivedAt = 1700000000000 ∧ n.Authentic repo bob := by
  have hreceived : ((Backend.database.newStore.afterAll puts).load repo bob).toOption.join.map
      Namespace.receivedAt = some 1700000000000 := by decide +kernel
  obtain ⟨hfound, -, -⟩ := Store.authentic_of_run .database puts
  obtain ⟨found, hload, hauthentic⟩ := hfound repo bob
  obtain ⟨n, hn, htime⟩ := Option.map_eq_some_iff.mp hreceived
  have hload' := toOption_eq_some_iff.mp (Option.join_eq_some_iff.mp hn)
  rw [hload] at hload'
  cases hload'
  exact ⟨n, hload, htime, hauthentic n rfl⟩

end Forked

end SignedRefs
