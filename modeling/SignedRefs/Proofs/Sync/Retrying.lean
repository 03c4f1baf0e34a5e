import SignedRefs.Proofs.Sync.Pushing

/-!
# Trying Again

A push is tried until an attempt settles it (`Push.Settles`) or as often as it may be. The loop
carries the length of the next pause along and doubles it up to a limit; the invariant is that it is
what `Backoff.delay` says it is for the attempts so far, so nothing is lost in the doubling.

The loop does not know what an attempt and a pause are, so where it ends is said first for all of
them (`Push.exists_loop_eq`): `Push.standing` is where a push stands after some failed attempts.
Attempts whose results are given, and pauses that are only noted, then show what happens in a push
and in which order (`Push.run_of_results`).

## Main results

* `Backoff.next_delay`: the pauses have a closed form.
* `Push.exists_loop_eq`: the attempt with which a push ends.
* `Push.run_of_results`: the attempts, the pauses between them, and the outcome.
-/

namespace SignedRefs

/-! ### Pauses -/

namespace Backoff

/-- The pause after an attempt, when there were some before. -/
def delay (b : Backoff) (earlier : Nat) : Nat := min (b.base * 2 ^ earlier) b.max

/-- The first pause is the one after the first attempt. -/
theorem first_eq (b : Backoff) : b.first = b.delay 0 := by
  rw [first, delay, Nat.pow_zero, Nat.mul_one]

/-- A pause that cannot be doubled would be longer than the limit, so the limit takes its place. -/
theorem next_eq {b : Backoff} (h : b.max < tooLong) (pause : Nat) :
    b.next pause = min (2 * pause) b.max := by
  unfold next double?
  split
  · rfl
  · rw [Option.getD_none]
    omega

/-- Doubling a pause up to the limit is the same as doubling it without one and cutting it then. -/
theorem next_delay {b : Backoff} (h : b.max < tooLong) (earlier : Nat) :
    b.next (b.delay earlier) = b.delay (earlier + 1) := by
  have hdouble : b.base * 2 ^ (earlier + 1) = 2 * (b.base * 2 ^ earlier) := by
    rw [Nat.pow_succ, ← Nat.mul_assoc, Nat.mul_comm]
  rw [next_eq h, delay, delay, hdouble]
  omega

end Backoff

/-- Limits that are configured are durations. -/
theorem AnnounceConfig.max_backoff_lt (c : AnnounceConfig) : c.backoff.max < Backoff.tooLong := by
  have h := c.backoffMax.toNat_lt
  simp only [backoff, Backoff.tooLong, UInt64.size]
  omega

namespace Push

/-! ### Results that settle a push -/

/-- A result of an attempt after which there is no other one. -/
inductive Settles : Except AttemptFault UInt64 → Prop
  /-- The seed took the manifest over. -/
  | accepted (sequence : UInt64) : Settles (.ok sequence)
  /-- The seed has it already, or a newer one. -/
  | stale (text : String) : Settles (.error (.failed (.rejected .stale text)))
  /-- The seed refused it for good. -/
  | permanent {code : ErrorCode} (h : code.isPermanent = true) (text : String) :
    Settles (.error (.failed (.rejected code text)))

/-- The outcome of a push that ends with an attempt. -/
def outcomeOf (number : Nat) : Except AttemptFault UInt64 → AnnounceOutcome
  | .ok sequence => .delivered number sequence
  | .error fault => (settled? number fault).getD (.unreachable number fault)

/-- A failure settles a push if another attempt would fail as well. -/
theorem settles_error_iff {fault : AttemptFault} (number : Nat) :
    Settles (.error fault) ↔ ∃ outcome, settled? number fault = some outcome := by
  constructor
  · intro h
    cases h with
    | stale text => exact ⟨_, rfl⟩
    | @permanent code h text =>
        by_cases hstale : code = .stale
        · exact ⟨.upToDate number, by rw [hstale]; rfl⟩
        · exact ⟨.rejected code text, by simp [settled?, h]⟩
  · rintro ⟨outcome, h⟩
    unfold settled? at h
    split at h
    · exact .stale _
    · split at h
      · next hpermanent => exact .permanent hpermanent _
      · cases h
    · cases h

/-- A fault settles nothing exactly if the push goes on after it. -/
theorem not_settles_error_iff {fault : AttemptFault} (number : Nat) :
    ¬Settles (.error fault) ↔ settled? number fault = none := by
  rw [settles_error_iff number, not_exists, Option.eq_none_iff_forall_ne_some]

section

variable {σ : Type} {attempt : σ → Except AttemptFault UInt64 × σ} {pause : Nat → σ → σ} {s : σ}

/-! ### One attempt -/

/-- An attempt ends the push if it settles it or if it was the last one. -/
theorem loop_of_end {more : Nat} (h : Settles (attempt s).1 ∨ more = 0) (backoff : Backoff)
    (number delay : Nat) : loop attempt pause backoff more number delay s =
      (outcomeOf number (attempt s).1, (attempt s).2) := by
  cases hresult : attempt s with
  | mk result state =>
      rw [hresult] at h
      cases result with
      | ok sequence => exact loop_of_ok hresult backoff more delay
      | error fault =>
          cases hsettled : settled? number fault with
          | some outcome =>
              rw [loop_of_settled hresult hsettled, outcomeOf, hsettled]
              rfl
          | none =>
              obtain rfl := h.resolve_left ((not_settles_error_iff number).mpr hsettled)
              simp only [loop, hresult, outcomeOf, hsettled, Option.getD_none]

/-- After an attempt that does not settle the push there is a pause, and then the next one. -/
theorem loop_of_not_settles (h : ¬Settles (attempt s).1) (backoff : Backoff)
    (more number delay : Nat) : loop attempt pause backoff (more + 1) number delay s =
      loop attempt pause backoff more (number + 1) (backoff.next delay)
        (pause delay (attempt s).2) := by
  cases hresult : attempt s with
  | mk result state =>
      rw [hresult] at h
      cases result with
      | ok sequence => exact absurd (.accepted sequence) h
      | error fault =>
          rw [not_settles_error_iff number] at h
          rw [loop]
          simp only [hresult, h]

/-! ### All attempts -/

/-- Where a push stands after some attempts that did not settle it, and the pauses behind them. -/
def standing (attempt : σ → Except AttemptFault UInt64 × σ) (pause : Nat → σ → σ)
    (backoff : Backoff) (s : σ) : (failed : Nat) → σ
  | 0 => s
  | failed + 1 => pause (backoff.delay failed) (attempt (standing attempt pause backoff s failed)).2

/-- A push ends with the first attempt that settles it, or with the last one. -/
theorem exists_loop_eq (attempt : σ → Except AttemptFault UInt64 × σ) (pause : Nat → σ → σ)
    {backoff : Backoff} (h : backoff.max < Backoff.tooLong) (s : σ) (more failed : Nat) :
    let result (j : Nat) := (attempt (standing attempt pause backoff s j)).1
    ∃ k, failed ≤ k ∧ k ≤ failed + more ∧ (∀ j, failed ≤ j → j < k → ¬Settles (result j)) ∧
      (k < failed + more → Settles (result k)) ∧
        loop attempt pause backoff more (failed + 1) (backoff.delay failed)
            (standing attempt pause backoff s failed) =
          (outcomeOf (k + 1) (result k), (attempt (standing attempt pause backoff s k)).2) := by
  intro result
  induction more generalizing failed with
  | zero =>
      refine ⟨failed, Nat.le_refl _, Nat.le_refl _, fun j hle hlt => by omega,
        fun hlt => by omega, ?_⟩
      exact loop_of_end (.inr rfl) backoff _ _
  | succ more ih =>
      by_cases hsettles : Settles (result failed)
      · refine ⟨failed, Nat.le_refl _, Nat.le_add_right _ _, fun j hle hlt => by omega,
          fun _ => hsettles, ?_⟩
        exact loop_of_end (.inl hsettles) backoff _ _
      · obtain ⟨k, hle, hmost, hearlier, hlast, hloop⟩ := ih (failed + 1)
        refine ⟨k, by omega, by omega, fun j hfailed hlt => ?_, fun hlt => hlast (by omega), ?_⟩
        · rcases Nat.eq_or_lt_of_le hfailed with rfl | hlater
          · exact hsettles
          · exact hearlier j hlater hlt
        · rw [loop_of_not_settles hsettles, Backoff.next_delay h]
          exact hloop

end

/-! ### Attempts with given results -/

/-- What happens in a push. -/
inductive Move
  /-- An attempt. -/
  | attempt
  /-- A pause. -/
  | pause (delay : Nat)
deriving DecidableEq

/-- An attempt that has the result of its number. -/
def tried (results : Nat → Except AttemptFault UInt64) (log : List Move) :
    Except AttemptFault UInt64 × List Move :=
  (results (log.count .attempt + 1), log ++ [.attempt])

/-- A pause that is noted. -/
def paused (delay : Nat) (log : List Move) : List Move := log ++ [.pause delay]

/-- Some attempts with the pauses behind them. -/
def moves (backoff : Backoff) (failed : Nat) : List Move :=
  (List.range failed).flatMap fun j => [.attempt, .pause (backoff.delay j)]

/-- One more attempt comes last, with the pause behind it. -/
theorem moves_succ (backoff : Backoff) (failed : Nat) :
    moves backoff (failed + 1) =
      moves backoff failed ++ [.attempt, .pause (backoff.delay failed)] := by
  rw [moves, List.range_succ, List.flatMap_append, List.flatMap_singleton]
  rfl

/-- Each attempt is noted once. -/
theorem count_attempt_moves (backoff : Backoff) (failed : Nat) :
    (moves backoff failed).count .attempt = failed := by
  induction failed with
  | zero => rfl
  | succ failed ih =>
      rw [moves_succ, List.count_append, ih]
      rfl

/-- What is noted are the attempts with the pauses behind them. -/
theorem standing_eq_moves (results : Nat → Except AttemptFault UInt64) (backoff : Backoff)
    (failed : Nat) : standing (tried results) paused backoff [] failed = moves backoff failed := by
  induction failed with
  | zero => rfl
  | succ failed ih =>
      rw [standing, ih, moves_succ]
      simp [tried, paused]

/-- A push of which the results of the attempts are given makes attempts up to the first one with a
result that settles it, or as many as it may. Between two attempts there is a pause, the first time
as long as the base and then each time twice as long, but never longer than the limit. There is none
behind the last attempt. The outcome is that of the last attempt, and tells its number. -/
theorem run_of_results (config : AnnounceConfig) (results : Nat → Except AttemptFault UInt64) :
    let most := max 1 config.maxAttempts.toNat
    let (outcome, log) := run (tried results) paused config []
    ∃ k, 1 ≤ k ∧ k ≤ most ∧ (∀ j, 1 ≤ j → j < k → ¬Settles (results j)) ∧
      (k < most → Settles (results k)) ∧
      log = ((List.range (k - 1)).flatMap fun j => [.attempt,
        .pause (min (config.backoffBase.toNat * 2 ^ j) config.backoffMax.toNat)]) ++ [.attempt] ∧
      (∀ sequence, results k = .ok sequence → outcome = .delivered k sequence) ∧
      (∀ text, results k = .error (.failed (.rejected .stale text)) → outcome = .upToDate k) ∧
      (∀ code text, code ≠ .stale → code.isPermanent = true →
        results k = .error (.failed (.rejected code text)) → outcome = .rejected code text) ∧
      ∀ fault, results k = .error fault → ¬Settles (results k) →
        k = most ∧ outcome = .unreachable most fault := by
  intro most
  obtain ⟨k, -, hmost, hearlier, hlast, hloop⟩ :=
    exists_loop_eq (tried results) paused config.max_backoff_lt [] (config.attempts - 1) 0
  have hresult (j : Nat) : (tried results (standing (tried results) paused config.backoff [] j)).1 =
      results (j + 1) := by
    rw [standing_eq_moves, tried, count_attempt_moves]
  have hpos : 1 ≤ config.attempts := Nat.le_max_left _ _
  simp only [hresult] at hearlier hlast hloop
  have hrun : run (tried results) paused config [] = (outcomeOf (k + 1) (results (k + 1)),
      moves config.backoff k ++ [.attempt]) := by
    rw [run, Backoff.first_eq]
    exact hloop.trans (by rw [standing_eq_moves]; rfl)
  rw [hrun]
  have hmost' : config.attempts = most := rfl
  refine ⟨k + 1, by omega, by omega, fun j hj hlt => ?_, fun hlt => hlast (by omega), rfl, ?_, ?_,
    ?_, ?_⟩
  · have hj' := hearlier (j - 1) (by omega) (by omega)
    rwa [Nat.sub_add_cancel hj] at hj'
  · intro sequence h
    rw [h]
    rfl
  · intro text h
    rw [h]
    rfl
  · intro code text hstale hpermanent h
    rw [h]
    simp [outcomeOf, settled?, hpermanent]
  · intro fault h hnot
    have hk : k + 1 = most := by
      by_contra hk
      exact hnot (hlast (by omega))
    rw [h, not_settles_error_iff (k + 1)] at hnot
    refine ⟨hk, ?_⟩
    rw [h, outcomeOf, hnot, hk, Option.getD_none]

end Push

end SignedRefs
