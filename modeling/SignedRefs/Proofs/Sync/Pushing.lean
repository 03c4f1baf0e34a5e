import SignedRefs.Proofs.Store.Independence
import SignedRefs.Proofs.Sync.Limits
import SignedRefs.Sync.Announce

/-!
# Pushing a Manifest

What became of an announcement at a seed is inferred from answers and timeouts, perhaps after many
attempts. It is true nevertheless (`AnnounceOutcome.Truthful`). A store answers that something is
stale only if it holds a manifest that is not older, and it is changed only by the attempt whose
answer says so, which is the last one. Nothing depends on when the attempts are made and on how they
get lost, as long as each one is lost before the store has handled it or brings the answer
(`Attempted`).

## Main results

* `Store.respond_push_cases`: what a store makes of a pushed manifest.
* `Attempted.cases`: what an attempt means for the store.
* `Push.ends_or_fails`: one attempt ends the push, or it leaves the store as it was.
* `Push.exists_truthful`: the outcome of a push is true, whatever the attempts come to.
-/

namespace SignedRefs

/-! ### The answer of a store -/

namespace Store

variable {store : Store} {now : Int64} {repo : RepoId} {identity : PeerId}
  {signed : SignedManifest} {error : StoreError} {encoded : Bytes}

/-- The checks that do not look at what is stored find nothing stale. -/
theorem code_of_check (h : check now repo identity signed = .error error) :
    error.code ≠ .stale := by
  rcases error_of_check h with rfl | rfl | ⟨cause, rfl⟩ <;> simp [StoreError.code]

/-- A row that cannot be read is not stale. -/
theorem code_of_readRow {row : Row} (h : Database.readRow row = .error error) :
    error.code ≠ .stale := by
  unfold Database.readRow at h
  split at h
  · cases h
    simp [StoreError.code]
  · split at h
    · cases h
      simp [StoreError.code]
    · cases h

/-- A look-up finds nothing stale. -/
theorem code_of_load (h : store.load repo identity = .error error) : error.code ≠ .stale := by
  cases store with
  | memory namespaces => cases h
  | database db =>
      cases htable : db.table with
      | none =>
          rw [load, Database.load, Database.rows, htable] at h
          cases h
          simp [StoreError.code]
      | some rows =>
          rw [load, Database.load_eq htable] at h
          split at h
          · next row _ =>
              cases hread : Database.readRow row with
              | error cause =>
                  rw [hread] at h
                  cases h
                  exact code_of_readRow hread
              | ok found =>
                  rw [hread] at h
                  cases h
          · cases h

/-- What is refused as stale is not newer than what is stored. -/
theorem load_of_stale (h : store.replace now repo identity signed = .error error)
    (hcode : error.code = .stale) : ∃ stored, store.load repo identity = .ok (some stored) ∧
      signed.manifest.sequence ≤ stored.sequence := by
  cases hcheck : check now repo identity signed with
  | error cause =>
      rw [replace_of_check_error hcheck] at h
      cases h
      exact absurd hcode (code_of_check hcheck)
  | ok new =>
      cases hload : store.load repo identity with
      | error cause =>
          rw [replace_of_load_error hcheck hload] at h
          cases h
          exact absurd hcode (code_of_load hload)
      | ok found =>
          have hrefused : ¬Acceptable repo identity signed found := fun haccept => by
            obtain ⟨done, hdone⟩ := exists_replace hload haccept now
            rw [h] at hdone
            cases hdone
          obtain ⟨stored, rfl, hle⟩ := exists_stored_of_not_acceptable hcheck hrefused
          rw [Namespace.sequence_of_signed (check_eq_ok_iff.mp hcheck).2.2.2.1] at hle
          exact ⟨stored, rfl, hle⟩

/-- A store replaces its copy by a manifest that is pushed, or has one that is not older, or refuses
it for another reason. -/
theorem respond_push_cases (store : Store) (now : Int64) (repo : RepoId) (identity : PeerId)
    (hdecode : SignedManifest.decode encoded = .ok signed) :
    (∃ replaced after, store.replace now repo identity signed = .ok (replaced, after) ∧
        store.respond now (.push repo identity encoded) =
          (.accepted signed.manifest.sequence, after)) ∨
      ∃ code text, store.respond now (.push repo identity encoded) = (.failure code text, store) ∧
        (code = .stale → ∃ stored, store.load repo identity = .ok (some stored) ∧
          signed.manifest.sequence ≤ stored.sequence) := by
  unfold respond
  split
  · next fault _ => exact .inr ⟨.limitExceeded, fault.message, rfl, nofun⟩
  · dsimp only
    unfold respondPush
    simp only [hdecode]
    cases hreplace : store.replace now repo identity signed with
    | error error => exact .inr ⟨error.code, error.message, rfl, load_of_stale hreplace⟩
    | ok done =>
        obtain ⟨replaced, after⟩ := done
        have hsigned := (replace_eq_ok_iff.mp hreplace).2.2.1
        rw [← Namespace.sequence_of_signed hsigned]
        exact .inl ⟨replaced, after, rfl, rfl⟩

end Store

/-- A failure is understood as a rejection of its kind. -/
theorem Reply.accepted_failure (code : ErrorCode) (text : String) :
    ∃ cut, Reply.accepted (.ok (.failure code text)) = .error (.rejected code cut) := by
  have hvalid := Response.validate_failure code text
  rw [Response.failure] at hvalid ⊢
  exact ⟨_, by rw [accepted, checked, hvalid]⟩

/-! ### Attempts -/

/-- What an attempt to send a request to a store can come to, and the store afterwards. -/
inductive Attempted (request : Request) (before : Store) :
    Except AttemptFault UInt64 → Store → Prop
  /-- It ends before the store has handled the request. -/
  | lost {fault : AttemptFault} (h : ∀ code text, fault ≠ .failed (.rejected code text)) :
    Attempted request before (.error fault) before
  /-- It brings the answer of the store. -/
  | answered (now : Int64) :
    Attempted request before
      ((Reply.accepted (.ok (before.respond now request).1)).mapError .failed)
      (before.respond now request).2

/-- What an outcome says about a store before and after the announcement of a manifest. -/
def AnnounceOutcome.Truthful (signed : SignedManifest) (repo : RepoId) (identity : PeerId)
    (before after : Store) : AnnounceOutcome → Prop
  | .delivered _ sequence => sequence = signed.manifest.sequence ∧
    ∃ now replaced, before.replace now repo identity signed = .ok (replaced, after) ∧
      replaced.current.signed = signed ∧ after.load repo identity = .ok (some replaced.current)
  | .upToDate _ => after = before ∧ ∃ stored, before.load repo identity = .ok (some stored) ∧
    signed.manifest.sequence ≤ stored.sequence
  | .rejected _ _ => after = before
  | .unreachable _ _ => after = before

section

variable {repo : RepoId} {identity : PeerId} {encoded : Bytes} {signed : SignedManifest}
  {before after : Store} {result : Except AttemptFault UInt64}

/-- After an attempt the store has replaced its copy and said so, or it is the same. -/
theorem Attempted.cases (hdecode : SignedManifest.decode encoded = .ok signed)
    (h : Attempted (.push repo identity encoded) before result after) :
    (result = .ok signed.manifest.sequence ∧
        ∃ now replaced, before.replace now repo identity signed = .ok (replaced, after)) ∨
      ∃ fault, result = .error fault ∧ after = before ∧
        ∀ text, fault = .failed (.rejected .stale text) →
          ∃ stored, before.load repo identity = .ok (some stored) ∧
            signed.manifest.sequence ≤ stored.sequence := by
  cases h with
  | @lost fault hfault => exact .inr ⟨fault, rfl, rfl, fun text heq => absurd heq (hfault _ _)⟩
  | answered now =>
      rcases before.respond_push_cases now repo identity hdecode with
        ⟨replaced, after, hreplace, hrespond⟩ | ⟨code, text, hrespond, hstale⟩
      · rw [hrespond]
        exact .inl ⟨rfl, now, replaced, hreplace⟩
      · obtain ⟨cut, haccepted⟩ := Reply.accepted_failure code text
        rw [hrespond, haccepted]
        refine .inr ⟨_, rfl, rfl, fun text heq => hstale ?_⟩
        cases heq
        rfl

namespace AnnounceOutcome

/-- No namespace changes but the one that is announced. -/
theorem Truthful.load_of_ne {outcome : AnnounceOutcome}
    (h : outcome.Truthful signed repo identity before after) {repo' : RepoId} {identity' : PeerId}
    (hne : ¬(repo' = repo ∧ identity' = identity)) :
    after.load repo' identity' = before.load repo' identity' := by
  cases outcome with
  | delivered number sequence =>
      obtain ⟨-, now, replaced, hreplace, -, -⟩ := h
      rw [Store.load_of_replace hreplace, if_neg hne]
  | upToDate number => rw [h.1]
  | rejected code text => rw [show after = before from h]
  | unreachable number fault => rw [show after = before from h]

/-- A replacement is a delivery. -/
theorem Truthful.delivered {now : Int64} {replaced : Store.Replaced}
    (h : before.replace now repo identity signed = .ok (replaced, after)) (number : Nat) :
    (AnnounceOutcome.delivered number signed.manifest.sequence).Truthful signed repo identity
      before after := by
  refine ⟨rfl, now, replaced, h, (Store.replace_eq_ok_iff.mp h).2.2.1, ?_⟩
  rw [Store.load_of_replace h, if_pos ⟨rfl, rfl⟩]

/-- A failure that settles a push is reported truly. -/
theorem Truthful.settled {number : Nat} {fault : AttemptFault} {outcome : AnnounceOutcome}
    (h : Push.settled? number fault = some outcome)
    (hstale : ∀ text, fault = .failed (.rejected .stale text) →
      ∃ stored, before.load repo identity = .ok (some stored) ∧
        signed.manifest.sequence ≤ stored.sequence) :
    outcome.Truthful signed repo identity before before := by
  unfold Push.settled? at h
  split at h
  · cases h
    exact ⟨rfl, hstale _ rfl⟩
  · split at h
    · cases h
      rfl
    · cases h
  · cases h

end AnnounceOutcome

namespace Push

variable {σ : Type} {serves : σ → Store → Prop} {attempt : σ → Except AttemptFault UInt64 × σ}
  {pause : Nat → σ → σ} {s : σ}

/-- A push ends with the attempt that delivers it. -/
theorem loop_of_ok {sequence : UInt64} {state : σ} (h : attempt s = (.ok sequence, state))
    {number : Nat} (backoff : Backoff) (more delay : Nat) :
    loop attempt pause backoff more number delay s = (.delivered number sequence, state) := by
  cases more <;> rw [loop, h]

/-- A push ends with the attempt that settles it. -/
theorem loop_of_settled {fault : AttemptFault} {outcome : AnnounceOutcome} {number : Nat}
    {state : σ} (h : attempt s = (.error fault, state))
    (hsettled : settled? number fault = some outcome) (backoff : Backoff) (more delay : Nat) :
    loop attempt pause backoff more number delay s = (outcome, state) := by
  cases more <;> rw [loop, h] <;> simp only [hsettled]

/-- One attempt ends a push with a true outcome, or it fails and leaves the store as it was. -/
theorem ends_or_fails (pause : Nat → σ → σ) (hdecode : SignedManifest.decode encoded = .ok signed)
    (hattempted : ∃ after, serves (attempt s).2 after ∧
      Attempted (.push repo identity encoded) before (attempt s).1 after) (number : Nat) :
    (∃ outcome after, serves (attempt s).2 after ∧
        outcome.Truthful signed repo identity before after ∧ ∀ backoff more delay,
          loop attempt pause backoff more number delay s = (outcome, (attempt s).2)) ∨
      ∃ fault, attempt s = (.error fault, (attempt s).2) ∧ settled? number fault = none ∧
        serves (attempt s).2 before := by
  obtain ⟨after, hafter, hattempted⟩ := hattempted
  cases hresult : attempt s with
  | mk result state =>
      rw [hresult] at hafter hattempted
      rcases hattempted.cases hdecode with ⟨rfl, now, replaced, hreplace⟩ |
        ⟨fault, rfl, rfl, hstale⟩
      · exact .inl ⟨_, after, hafter, .delivered hreplace number, loop_of_ok hresult⟩
      · cases hsettled : settled? number fault with
        | some outcome =>
            exact .inl ⟨outcome, _, hafter, .settled hsettled hstale,
              loop_of_settled hresult hsettled⟩
        | none => exact .inr ⟨fault, rfl, hsettled, hafter⟩

/-- The outcome of a push is true, whatever the attempts come to: `serves` says which store the seed
has when the push stands somewhere. Every attempt but the last one leaves the store as it was, so
the last one finds it so. -/
theorem exists_truthful (serves : σ → Store → Prop)
    (hdecode : SignedManifest.decode encoded = .ok signed)
    (hattempt : ∀ s store, serves s store → ∃ after, serves (attempt s).2 after ∧
      Attempted (.push repo identity encoded) store (attempt s).1 after)
    (hpause : ∀ delay s store, serves s store → serves (pause delay s) store)
    (backoff : Backoff) (more number delay : Nat) (hserves : serves s before) :
    ∃ after, serves (loop attempt pause backoff more number delay s).2 after ∧
      (loop attempt pause backoff more number delay s).1.Truthful signed repo identity
        before after := by
  induction more generalizing number delay s with
  | zero =>
      rcases ends_or_fails pause hdecode (hattempt s before hserves) number with
        ⟨outcome, after, hafter, htruthful, hloop⟩ | ⟨fault, hresult, hsettled, hafter⟩
      · rw [hloop]
        exact ⟨after, hafter, htruthful⟩
      · rw [loop, hresult]
        simp only [hsettled]
        exact ⟨before, hafter, rfl⟩
  | succ more ih =>
      rcases ends_or_fails pause hdecode (hattempt s before hserves) number with
        ⟨outcome, after, hafter, htruthful, hloop⟩ | ⟨fault, hresult, hsettled, hafter⟩
      · rw [hloop]
        exact ⟨after, hafter, htruthful⟩
      · rw [loop, hresult]
        simp only [hsettled]
        exact ih _ _ (hpause _ _ _ hafter)

end Push

end

end SignedRefs
