import SignedRefs.Proofs.Sync.Fetching

/-!
# What a Fetch May Touch

A peer may list whom it likes and answer with any manifest. Whom a fetch asks for is decided by the
tracking decisions, though, and an answer counts only for the identity that was asked for, so
nothing else is written. What becomes of an identity is what its own answer would have led to alone
(`Fetch.receiveAll_of_mem`); the order in which answers come is thereby without influence.

## Main results

* `Fetch.mem_asked_iff`: who is asked for.
* `Fetch.receiveAll_of_mem`, `Fetch.load_receiveAll_of_not_mem`: what becomes of an identity.
* `Fetch.run_of_arrival`: in which order and when answers come makes no difference.
* `Fetch.admission_of_run`: whom a report is about, and what a fetch leaves alone.
-/

namespace SignedRefs

/-- The peer lists an identity. -/
def Behaviour.Advertises (b : Behaviour) (id : PeerId) : Prop :=
  ∃ listed, b.arrival .list = .response (.namespaces listed) ∧ id ∈ listed

namespace Fetch

variable {f : Fetch} {b b' : Behaviour} {store : Store} {ids : List PeerId} {id : PeerId}
  {repo : RepoId}

/-! ### Who is asked for -/

/-- A fetch may touch the namespace of an identity: it is not the local one, and it is tracked or,
if the scope is `all`, advertised and neither blocked nor untracked. With scope `none` there is no
such identity. -/
def Admits (f : Fetch) (b : Behaviour) (id : PeerId) : Prop :=
  id ≠ f.self ∧ (f.scope ≠ .none ∧ f.registry.isTracked id = true ∨
    f.scope = .all ∧ b.Advertises id ∧ f.registry.isBlocked id = false ∧
      f.registry.isUntracked id = false)

/-- A fetch asks for the identities that it may touch. -/
theorem mem_asked_iff (h : f.asked b = .ok ids) : id ∈ ids ↔ f.Admits b id := by
  obtain ⟨-, -, hwanted⟩ := bind_eq_ok_iff.mp h
  unfold wanted at hwanted
  split at hwanted
  · next hscope =>
      obtain ⟨listed, hlisted, rfl⟩ := map_eq_ok_iff.mp hwanted
      have hadvertised : b.Advertises id ↔ id ∈ listed := by
        rw [Behaviour.Advertises, (listed_eq_ok_iff.mp hlisted).1]
        simp
      rw [SortedSet.toList, SortedMap.mem_keys_iff, Registry.contains_candidates_iff, Admits,
        hscope, hadvertised]
  · next hscope =>
      cases hwanted
      have hnotAll : f.scope ≠ .all := hscope
      rw [SortedSet.toList, SortedMap.mem_keys_iff, Registry.contains_candidates_iff, Admits]
      simp [hnotAll]

/-- Nobody is asked for twice. -/
theorem nodup_of_asked (h : f.asked b = .ok ids) : ids.Nodup := by
  obtain ⟨-, -, hwanted⟩ := bind_eq_ok_iff.mp h
  unfold wanted at hwanted
  split at hwanted
  · obtain ⟨listed, -, rfl⟩ := map_eq_ok_iff.mp hwanted
    exact SortedMap.nodup_keys _
  · cases hwanted
    exact SortedMap.nodup_keys _

/-- The local identity and the blocked and the untracked ones are not touched. -/
theorem not_admits (h : id = f.self ∨ f.registry.isBlocked id = true ∨
    f.registry.Reached ∧ f.registry.isUntracked id = true) : ¬f.Admits b id := by
  rintro ⟨hself, ⟨-, htracked⟩ | ⟨-, -, hblocked, huntracked⟩⟩
  · rcases h with h | h | ⟨hreached, h⟩
    · exact hself h
    · rw [Registry.isTracked_of_blocked h] at htracked
      cases htracked
    · rw [hreached.isTracked_of_untracked h] at htracked
      cases htracked
  · rcases h with h | h | ⟨-, h⟩
    · exact hself h
    · rw [h] at hblocked
      cases hblocked
    · rw [h] at huntracked
      cases huntracked

/-! ### What becomes of an identity -/

/-- What an answer to the request for an identity leads to, if no other has come before. -/
def alone (f : Fetch) (b : Behaviour) (store : Store) (id : PeerId) : Outcome × Store :=
  (f.replyOf (b.arrival (.request id))).apply store (b.clock (.request id)) f.repo id

/-- Answers for other identities leave an outcome alone. -/
theorem get?_foldl_receive (s : SortedMap PeerId Outcome × Store) (h : id ∉ ids) :
    (ids.foldl (f.receive b) s).1.get? id = s.1.get? id := by
  induction ids generalizing s with
  | nil => rfl
  | cons next ids ih =>
      refine (ih (f.receive b s next) (List.not_mem_of_not_mem_cons h)).trans ?_
      exact SortedMap.get?_insert_of_ne _ (List.ne_of_not_mem_cons h) _

/-- They leave every namespace alone that is not theirs. -/
theorem load_foldl_receive (s : SortedMap PeerId Outcome × Store)
    (h : ¬(repo = f.repo ∧ id ∈ ids)) :
    (ids.foldl (f.receive b) s).2.load repo id = s.2.load repo id := by
  induction ids generalizing s with
  | nil => rfl
  | cons next ids ih =>
      refine (ih (f.receive b s next) fun hrest => h ?_).trans ?_
      · exact ⟨hrest.1, List.mem_cons_of_mem _ hrest.2⟩
      · refine Answer.load_apply_of_ne _ _ _ fun hnext => h ⟨hnext.1, ?_⟩
        rw [hnext.2]
        exact List.mem_cons_self

/-- Nothing changes outside the places that a fetch asks for. -/
theorem load_receiveAll_of_not_mem (h : ¬(repo = f.repo ∧ id ∈ ids)) :
    (f.receiveAll b store ids).2.load repo id = store.load repo id :=
  load_foldl_receive (.empty, store) h

/-- What becomes of an identity is what its own answer would have led to alone, since this may as
well come first. -/
theorem receiveAll_of_mem (hnodup : ids.Nodup) (hid : id ∈ ids) :
    (f.receiveAll b store ids).1.get? id = some (f.alone b store id).1 ∧
      (f.receiveAll b store ids).2.load f.repo id = (f.alone b store id).2.load f.repo id := by
  have hrest : id ∉ ids.erase id := hnodup.not_mem_erase
  rw [receiveAll_perm (List.perm_cons_erase hid), receiveAll, List.foldl_cons]
  refine ⟨(get?_foldl_receive _ hrest).trans (SortedMap.get?_insert_self _ _ _), ?_⟩
  exact load_foldl_receive _ fun h => hrest h.2

/-- There is an outcome for each identity that is asked for, and for no other. -/
theorem contains_receiveAll :
    (f.receiveAll b store ids).1.contains id = true ↔ id ∈ ids := by
  induction ids using List.reverseRecOn with
  | nil => exact iff_of_false (fun h => by cases h) List.not_mem_nil
  | append_singleton ids last ih =>
      rw [receiveAll_append, receive, SortedMap.contains_insert, ih, List.mem_append,
        List.mem_singleton, or_comm]

/-- No number goes down. -/
theorem notBehind_receiveAll : store.NotBehind (f.receiveAll b store ids).2 := by
  induction ids using List.reverseRecOn with
  | nil => exact .refl store
  | append_singleton ids last ih =>
      rw [receiveAll_append]
      refine ih.trans ?_
      rcases Store.apply_cases (f.receiveAll b store ids).2 (f.replyOf (b.arrival (.request last)))
        (b.clock (.request last)) f.repo last with hsame | ⟨-, signed, replaced, -, -, hreplace⟩
      · rw [receive, hsame]
        exact .refl _
      · exact .of_accepts ⟨_, _, _, signed, replaced, hreplace⟩

/-! ### Time -/

/-- For whom a fetch asks depends on what arrives, not on when. -/
theorem asked_of_arrival (f : Fetch) (h : b'.arrival = b.arrival) : f.asked b' = f.asked b := by
  simp only [asked, wanted, h]

/-- The same answers at other times lead to the same outcomes, and the same is held. -/
theorem receiveAll_of_arrival (f : Fetch) (store : Store) (h : b'.arrival = b.arrival)
    (hnodup : ids.Nodup) :
    (f.receiveAll b' store ids).1 = (f.receiveAll b store ids).1 ∧
      ∀ repo id, (f.receiveAll b' store ids).2.held repo id =
        (f.receiveAll b store ids).2.held repo id := by
  have halone (id : PeerId) : (f.alone b' store id).1 = (f.alone b store id).1 ∧
      ∀ repo id', (f.alone b' store id).2.held repo id' = (f.alone b store id).2.held repo id' := by
    simp only [alone, h]
    exact Answer.apply_now _ _ _ _ _ _
  refine ⟨SortedMap.ext fun id => ?_, fun repo id => ?_⟩
  · by_cases hid : id ∈ ids
    · rw [(receiveAll_of_mem hnodup hid).1, (receiveAll_of_mem hnodup hid).1, (halone id).1]
    · rw [receiveAll, get?_foldl_receive _ hid, receiveAll, get?_foldl_receive _ hid]
  · by_cases hplace : repo = f.repo ∧ id ∈ ids
    · obtain ⟨rfl, hid⟩ := hplace
      have hheld := (halone id).2 f.repo id
      rwa [Store.held, Store.held, ← (receiveAll_of_mem hnodup hid).2,
        ← (receiveAll_of_mem hnodup hid).2] at hheld
    · rw [Store.held, Store.held, load_receiveAll_of_not_mem hplace,
        load_receiveAll_of_not_mem hplace]

/-- What comes of a fetch depends on what arrives, not on when, but for the times of receipt. -/
theorem inTurn_of_arrival (f : Fetch) (store : Store) (h : b'.arrival = b.arrival) :
    (f.inTurn b' store).1 = (f.inTurn b store).1 ∧
      ∀ repo id, (f.inTurn b' store).2.held repo id = (f.inTurn b store).2.held repo id := by
  have hasked := f.asked_of_arrival h
  cases hresult : f.asked b with
  | error error =>
      rw [inTurn_of_error hresult, inTurn_of_error (hasked.trans hresult)]
      exact ⟨rfl, fun _ _ => rfl⟩
  | ok ids =>
      rw [inTurn_of_ok hresult, inTurn_of_ok (hasked.trans hresult)]
      obtain ⟨houtcomes, hheld⟩ := f.receiveAll_of_arrival store h (nodup_of_asked hresult)
      exact ⟨congrArg Except.ok houtcomes, hheld⟩

/-! ### The whole fetch -/

/-- If the same comes for the calls in another order and at other times, a fetch ends in the same
way, and the same is held; the stores are equal if the times are. -/
theorem run_of_arrival {order order' : List Call} {result result' : FetchResult}
    (harrival : b'.arrival = b.arrival) (h : (f.run b store order).1 = .finished result)
    (h' : (f.run b' store order').1 = .finished result') :
    result' = result ∧
      (∀ repo id, (f.run b' store order').2.held repo id = (f.run b store order).2.held repo id) ∧
        (b'.clock = b.clock → (f.run b' store order').2 = (f.run b store order).2) := by
  have hinTurn := inTurn_of_run h
  have hinTurn' := inTurn_of_run h'
  obtain ⟨hresult, hheld⟩ := f.inTurn_of_arrival store harrival
  rw [hinTurn, hinTurn'] at hresult hheld
  refine ⟨hresult, hheld, fun hclock => ?_⟩
  obtain rfl : b' = b := by
    cases b
    cases b'
    exact congr (congrArg Behaviour.mk harrival) hclock
  rw [hinTurn] at hinTurn'
  exact (congrArg Prod.snd hinTurn').symm

/-- A fetch that is over reports on exactly the identities that it may touch, whatever the peer did.
It leaves every other place alone, among them those of the local, the blocked and the untracked
identities, and lets no number go down; if it failed, the store is the same. If the same comes for
the calls in another order and at other times, the report is the same, and so are the signed
manifests that are held; the stores are equal if the times are. -/
theorem admission_of_run (f : Fetch) (b : Behaviour) (store : Store) (order : List Call)
    (result : FetchResult) (h : (f.run b store order).1 = .finished result) :
    let after := (f.run b store order).2
    (∀ outcomes, result = .ok outcomes →
      (∀ id, outcomes.contains id = true ↔ f.Admits b id) ∧
      ∀ repo id, ¬(repo = f.repo ∧ outcomes.contains id = true) →
        after.load repo id = store.load repo id) ∧
    (∀ error, result = .error error → after = store) ∧
    (∀ repo id, (id = f.self ∨ f.registry.isBlocked id = true ∨
        f.registry.Reached ∧ f.registry.isUntracked id = true) →
      after.load repo id = store.load repo id) ∧
    store.NotBehind after ∧
    ∀ b' order' result', b'.arrival = b.arrival →
      (f.run b' store order').1 = .finished result' →
        result' = result ∧
        (∀ repo id, (f.run b' store order').2.held repo id = after.held repo id) ∧
        (b'.clock = b.clock → (f.run b' store order').2 = after) := by
  intro after
  have hinTurn : f.inTurn b store = (result, after) := inTurn_of_run h
  have hsame : ∀ b' order' result', b'.arrival = b.arrival →
      (f.run b' store order').1 = .finished result' → result' = result ∧
        (∀ repo id, (f.run b' store order').2.held repo id = after.held repo id) ∧
          (b'.clock = b.clock → (f.run b' store order').2 = after) :=
    fun _ _ _ harrival h' => run_of_arrival harrival h h'
  cases hasked : f.asked b with
  | error error =>
      rw [inTurn_of_error hasked] at hinTurn
      obtain ⟨rfl, hafter⟩ := Prod.mk.inj hinTurn
      rw [← hafter] at hsame ⊢
      exact ⟨fun _ h => (nomatch h), fun _ _ => rfl, fun _ _ _ => rfl, .refl store, hsame⟩
  | ok ids =>
      rw [inTurn_of_ok hasked] at hinTurn
      obtain ⟨rfl, hafter⟩ := Prod.mk.inj hinTurn
      rw [← hafter] at hsame ⊢
      refine ⟨?_, fun _ h => (nomatch h), fun repo id hid => ?_, notBehind_receiveAll, hsame⟩
      · rintro _ ⟨⟩
        refine ⟨fun id => contains_receiveAll.trans (mem_asked_iff hasked),
          fun repo id hplace => ?_⟩
        rw [contains_receiveAll] at hplace
        exact load_receiveAll_of_not_mem hplace
      · refine load_receiveAll_of_not_mem fun hplace => ?_
        exact not_admits hid ((mem_asked_iff hasked).mp hplace.2)

end Fetch

namespace Crowded

open OutOfOrder (repo alice first)

/-- The local identity. -/
def self : PeerId := ⟨.replicate 32 1⟩

/-- Someone who is blocked. -/
def blocked : PeerId := ⟨.replicate 32 2⟩

/-- Someone who was untracked. -/
def untracked : PeerId := ⟨.replicate 32 3⟩

/-- The decisions. -/
def registry : Registry :=
  ((Registry.empty.track blocked none .none).track untracked none .trusted).untrack untracked

/-- Everything is fetched that may be. -/
def fetch : Fetch := ⟨self, registry, .standard, repo, "seed", .all⟩

/-- The peer lists all of them and Alice, and sends her manifest for everyone. -/
def behaviour : Behaviour where
  arrival
    | .connect => .connected
    | .list => .response (.namespaces [self, blocked, untracked, alice])
    | .request _ => .response (.manifest first.encode.toOption)
  clock _ := 1700000000000

/-- The calls that are answered, with one among them that was not made. -/
def order : List Call := [.connect, .list, .request blocked, .request alice]

/-- The identities that a report is about. -/
def reported? : FetchState → Option (List PeerId)
  | .finished (.ok outcomes) => some outcomes.keys
  | _ => none

/-- Decisions lead to the registry. -/
theorem reached : registry.Reached := ((Registry.Reached.empty.track _ _ _).track _ _ _).untrack _

/-- Only Alice's namespace is fetched. -/
theorem only_alice_fetched : let last := fetch.run behaviour .inDatabase order
    (∃ outcomes, last.1 = .finished (.ok outcomes) ∧ outcomes.keys = [alice]) ∧
      last.2.held repo alice = .ok (some first) ∧
        ∀ id ∈ [self, blocked, untracked], last.2.load repo id = .ok none := by
  intro last
  have hreported : reported? last.1 = some [alice] := by decide +kernel
  have hheld : last.2.held repo alice = .ok (some first) := by decide +kernel
  have hforbidden : ∀ id ∈ [self, blocked, untracked], id = fetch.self ∨
      fetch.registry.isBlocked id = true ∨ fetch.registry.isUntracked id = true := by
    decide +kernel
  obtain ⟨outcomes, hlast⟩ : ∃ outcomes, last.1 = .finished (.ok outcomes) := by
    cases hstate : last.1 with
    | finished result =>
        cases result with
        | ok outcomes => exact ⟨outcomes, rfl⟩
        | error error =>
            rw [hstate] at hreported
            cases hreported
    | _ =>
        rw [hstate] at hreported
        cases hreported
  rw [hlast] at hreported
  obtain ⟨-, -, hleft, -, -⟩ :=
    Fetch.admission_of_run fetch behaviour .inDatabase order (.ok outcomes) hlast
  refine ⟨⟨outcomes, hlast, Option.some.inj hreported⟩, hheld, fun id hid => ?_⟩
  refine (hleft repo id ?_).trans (Backend.database.load_newStore repo id)
  exact (hforbidden id hid).imp_right (Or.imp_right fun h => ⟨reached, h⟩)

end Crowded

end SignedRefs
