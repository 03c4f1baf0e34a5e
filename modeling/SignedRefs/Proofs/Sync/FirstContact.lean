import SignedRefs.Proofs.Sync.Admission

/-!
# After the First Contact

Once a fetch is connected, what goes wrong with a request is the outcome of one identity: the fetch
goes on and reports on all of them. The list of identities is the exception. A fetch with scope
`all` that does not get a proper list in time fails as a whole, and then none of the tracked
identities is asked for, although they are known without the list.

## Main results

* `Fetch.result_of_connected`: every connected fetch comes to an end, and when it succeeds.
* `Withheld.tracked_not_reported`: without a list there is no report on those who are tracked.
-/

namespace SignedRefs

namespace Fetch

variable {f : Fetch} {b : Behaviour} {store : Store}

/-- Given a connection, those are asked for who are wanted. -/
theorem asked_of_connected (h : b.arrival .connect = .connected) : f.asked b = f.wanted b := by
  rw [asked, h]
  rfl

/-- It is known for whom to ask if no list is needed, or if the list came and keeps the limit. -/
theorem exists_wanted_iff : (∃ ids, f.wanted b = .ok ids) ↔ (f.scope = .all →
    ∃ listed, b.arrival .list = .response (.namespaces listed) ∧
      listed.length ≤ Limit.identities) := by
  unfold wanted
  split
  · next hscope =>
      simp only [map_eq_ok_iff, listed_eq_ok_iff, hscope, forall_const]
      constructor
      · rintro ⟨_, listed, hlisted, -⟩
        exact ⟨listed, hlisted⟩
      · rintro ⟨listed, hlisted⟩
        exact ⟨_, listed, hlisted, rfl⟩
  · next hscope => exact iff_of_true ⟨_, rfl⟩ fun hall => absurd hall hscope

/-- If it is not known for whom to ask, the list is to blame. -/
theorem listed_of_wanted_error {error : SyncError} (h : f.wanted b = .error error) :
    f.listed (b.arrival .list) = .error error := by
  unfold wanted at h
  split at h
  · cases hlisted : f.listed (b.arrival .list) with
    | error error' =>
        rw [hlisted] at h
        cases h
        rfl
    | ok listed =>
        rw [hlisted] at h
        cases h
  · cases h

/-- A connected fetch makes a limited number of calls, and when nothing is under way any more it is
over. It then succeeded, unless it needed a list of identities and did not get one that keeps the
limit. If it succeeded there is an outcome for every tracked identity but the local one; if it
failed, then with the error of the list, and nothing was stored. -/
theorem result_of_connected (f : Fetch) (b : Behaviour) (store : Store)
    (hconnected : b.arrival .connect = .connected) :
    (∀ order, f.Orderly b store order → order.length ≤ f.maxCalls) ∧
    ∀ order, (f.run b store order).1.pending = [] →
      ∃ result, (f.run b store order).1 = .finished result ∧
        ((∃ outcomes, result = .ok outcomes) ↔ (f.scope = .all →
          ∃ listed, b.arrival .list = .response (.namespaces listed) ∧
            listed.length ≤ Limit.identities)) ∧
        (∀ outcomes, result = .ok outcomes → f.scope ≠ .none →
          ∀ id, f.registry.isTracked id = true → id ≠ f.self → outcomes.contains id = true) ∧
        ∀ error, result = .error error →
          f.listed (b.arrival .list) = .error error ∧ (f.run b store order).2 = store := by
  refine ⟨fun order h => (Nat.le_add_right _ _).trans (length_le_of_orderly h), fun order h => ?_⟩
  obtain ⟨result, hresult⟩ := exists_finished h
  have hinTurn := inTurn_of_run hresult
  have hasked : f.asked b = f.wanted b := asked_of_connected hconnected
  refine ⟨result, hresult, ?_⟩
  rw [← exists_wanted_iff, ← hasked]
  cases hcandidates : f.asked b with
  | error error =>
      rw [inTurn_of_error hcandidates] at hinTurn
      obtain ⟨rfl, hafter⟩ := Prod.mk.inj hinTurn
      have hlisted := listed_of_wanted_error (hasked.symm.trans hcandidates)
      refine ⟨by simp, fun _ h => (nomatch h), ?_⟩
      rintro _ ⟨⟩
      exact ⟨hlisted, hafter.symm⟩
  | ok ids =>
      rw [inTurn_of_ok hcandidates] at hinTurn
      obtain ⟨rfl, -⟩ := Prod.mk.inj hinTurn
      refine ⟨iff_of_true ⟨_, rfl⟩ ⟨ids, rfl⟩, ?_, fun _ h => (nomatch h)⟩
      rintro _ ⟨⟩ hscope id htracked hself
      rw [contains_receiveAll, mem_asked_iff hcandidates]
      exact ⟨hself, .inl ⟨hscope, htracked⟩⟩

end Fetch

namespace Withheld

/-- The local identity. -/
def alice : PeerId := ⟨.replicate 32 1⟩

/-- Someone who is tracked. -/
def bob : PeerId := ⟨.replicate 32 2⟩

/-- Bob is tracked. -/
def registry : Registry := Registry.empty.track bob none .trusted

/-- A fetch with a scope. -/
def fetch (scope : Scope) : Fetch := ⟨alice, registry, .standard, ⟨.replicate 32 9⟩, "seed", scope⟩

/-- The peer accepts connections and refuses everything else. -/
def behaviour : Behaviour where
  arrival
    | .connect => .connected
    | _ => .response (.error .internal "refused")
  clock _ := 1700000000000

/-- With scope `trusted`, the refusal is Bob's outcome. -/
theorem refusal_reported : ∃ outcomes,
    ((fetch .trusted).run behaviour .inMemory [.connect, .request bob]).1 =
      .finished (.ok outcomes) ∧ outcomes.contains bob = true := by
  obtain ⟨-, hend⟩ := Fetch.result_of_connected (fetch .trusted) behaviour .inMemory rfl
  obtain ⟨result, hresult, hok, htracked, -⟩ := hend [.connect, .request bob] (by decide)
  obtain ⟨outcomes, rfl⟩ := hok.mpr fun hscope => (nomatch hscope)
  exact ⟨outcomes, hresult, htracked outcomes rfl (by decide) bob (by decide) (by decide)⟩

/-- With scope `all` the peer is asked for a list first. It refuses that, and the connected fetch
fails as a whole, with Bob tracked and never asked for. -/
theorem tracked_not_reported :
    behaviour.arrival .connect = .connected ∧
      (fetch .all).registry.isTracked bob = true ∧ bob ≠ (fetch .all).self ∧
      ((fetch .all).run behaviour .inMemory [.connect, .list]).1 =
        .finished (.error (.rejected .internal "refused")) := by
  refine ⟨rfl, by decide, by decide, ?_⟩
  rfl

end Withheld

end SignedRefs
