import SignedRefs.Sync.Config
import SignedRefs.Sync.Exchange

/-!
# Announcing

The local namespace is pushed to each seed until the seed answers for good. Between two attempts
there is a pause, which doubles each time up to a limit. The loop is generic in what an attempt and
a pause do (`Push.run`), so that the same definition runs against a network and against a list of
results.
-/

namespace SignedRefs

/-- Why an attempt failed. -/
inductive AttemptFault
  /-- It took too long. -/
  | timedOut
  /-- Something went wrong. -/
  | failed (error : SyncError)
deriving DecidableEq

/-- The text of a fault. -/
def AttemptFault.message : AttemptFault → String
  | .timedOut => "attempt timed out"
  | .failed error => error.message

/-- What became of the announcement at a seed. -/
inductive AnnounceOutcome
  /-- The seed took the manifest over. -/
  | delivered (attempts : Nat) (sequence : UInt64)
  /-- The seed has it already, or a newer one. -/
  | upToDate (attempts : Nat)
  /-- The seed refused it for good. -/
  | rejected (code : ErrorCode) (text : String)
  /-- Every attempt failed; this is how the last one did. -/
  | unreachable (attempts : Nat) (fault : AttemptFault)
deriving DecidableEq

/-- Whether the seed now has the manifest or a newer one. -/
def AnnounceOutcome.isDelivered : AnnounceOutcome → Bool
  | .delivered _ _ | .upToDate _ => true
  | _ => false

/-- How long to pause between attempts, in milliseconds. -/
structure Backoff where
  /-- The pause after the first attempt. -/
  base : Nat
  /-- The longest pause. -/
  max : Nat

namespace Backoff

/-- The pause after the first attempt, within the limit. -/
def first (b : Backoff) : Nat := min b.base b.max

/-- Durations are shorter than this: their seconds are counted in 64 bits. -/
def tooLong : Nat := UInt64.size * 1000

/-- Twice a duration, if that is one too. -/
def double? (duration : Nat) : Option Nat :=
  if 2 * duration < tooLong then some (2 * duration) else none

/-- The pause after a pause, within the limit. -/
def next (b : Backoff) (pause : Nat) : Nat := min ((double? pause).getD b.max) b.max

end Backoff

namespace AnnounceConfig

/-- The pauses between attempts. -/
def backoff (c : AnnounceConfig) : Backoff := ⟨c.backoffBase.toNat, c.backoffMax.toNat⟩

/-- How many attempts there are at most. -/
def attempts (c : AnnounceConfig) : Nat := max 1 c.maxAttempts.toNat

end AnnounceConfig

namespace Push

/-- The outcome after a failed attempt that need not be repeated. -/
def settled? (attempt : Nat) : AttemptFault → Option AnnounceOutcome
  | .failed (.rejected .stale _) => some (.upToDate attempt)
  | .failed (.rejected code text) => if code.isPermanent then some (.rejected code text) else none
  | _ => none

/-- Makes an attempt, the last one if `more` is zero, and else goes on after a pause. -/
def loop {σ : Type} (attempt : σ → Except AttemptFault UInt64 × σ) (pause : Nat → σ → σ)
    (backoff : Backoff) : (more number delay : Nat) → σ → AnnounceOutcome × σ
  | more, number, delay, state =>
    match attempt state with
    | (.ok sequence, state) => (.delivered number sequence, state)
    | (.error fault, state) =>
      match settled? number fault with
      | some outcome => (outcome, state)
      | none =>
        match more with
        | 0 => (.unreachable number fault, state)
        | more + 1 =>
          loop attempt pause backoff more (number + 1) (backoff.next delay) (pause delay state)

/-- Tries until the seed answers for good or all attempts are used up. -/
def run {σ : Type} (attempt : σ → Except AttemptFault UInt64 × σ) (pause : Nat → σ → σ)
    (config : AnnounceConfig) : σ → AnnounceOutcome × σ :=
  loop attempt pause config.backoff (config.attempts - 1) 1 config.backoff.first

end Push

/-- What an announcement did. -/
structure AnnounceReport where
  /-- The number of the announced manifest. -/
  sequence : UInt64
  /-- What became of it at each seed. -/
  outcomes : SortedMap Address AnnounceOutcome

namespace AnnounceReport

/-- The seeds that now have the manifest or a newer one. -/
def delivered (r : AnnounceReport) : List Address :=
  (r.outcomes.filter fun _ outcome => outcome.isDelivered).keys

end AnnounceReport

end SignedRefs
