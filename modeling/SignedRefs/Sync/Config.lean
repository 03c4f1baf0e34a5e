import SignedRefs.Json.Reader
import SignedRefs.Json.Writer
import SignedRefs.Sync.Address

/-!
# Configuration of Synchronisation

How long to wait for other peers, how much to do at a time and how often to try again. Times are in
milliseconds. In JSON every setting may be left out and then has its standard value.
-/

namespace SignedRefs

open Json

/-- A 64-bit number. -/
def readWord64 (value : Value) : Option UInt64 := (value.nat? UInt64.size).map UInt64.ofNat

/-- A 32-bit number. -/
def readWord32 (value : Value) : Option UInt32 := (value.nat? UInt32.size).map UInt32.ofNat

/-! ### Fetching -/

/-- How namespaces are fetched. -/
structure SyncConfig where
  /-- How long to wait for a connection. -/
  connectTimeout : UInt64
  /-- How long to wait for the answer to a request. -/
  requestTimeout : UInt64
  /-- How many requests of one fetch run at a time. -/
  maxRequests : UInt64
  /-- How many fetches run at a time. -/
  maxFetches : UInt64
deriving DecidableEq

namespace SyncConfig

/-- The standard settings. -/
def standard : SyncConfig := ⟨10000, 30000, 8, 4⟩

/-- The settings in a value. -/
def ofJson? (value : Value) : Option SyncConfig := do
  let fields ← Record.ofValue? ["connect_timeout_ms", "request_timeout_ms",
    "max_concurrent_requests", "max_concurrent_fetches"] value
  return {
    connectTimeout := ← fields.getD "connect_timeout_ms" readWord64 standard.connectTimeout
    requestTimeout := ← fields.getD "request_timeout_ms" readWord64 standard.requestTimeout
    maxRequests := ← fields.getD "max_concurrent_requests" readWord64 standard.maxRequests
    maxFetches := ← fields.getD "max_concurrent_fetches" readWord64 standard.maxFetches }

/-- The settings as a value. -/
def toJson (c : SyncConfig) : Value :=
  .ofFields [("connect_timeout_ms", .ofNat c.connectTimeout.toNat),
    ("request_timeout_ms", .ofNat c.requestTimeout.toNat),
    ("max_concurrent_requests", .ofNat c.maxRequests.toNat),
    ("max_concurrent_fetches", .ofNat c.maxFetches.toNat)]

end SyncConfig

/-! ### Announcing -/

/-- How the local namespace is announced. -/
structure AnnounceConfig where
  /-- Where it is announced. -/
  seeds : List Address
  /-- How often a seed is tried. There is always one attempt. -/
  maxAttempts : UInt32
  /-- How long an attempt may take. -/
  attemptTimeout : UInt64
  /-- How long to wait after the first attempt. -/
  backoffBase : UInt64
  /-- How long to wait at most between attempts. -/
  backoffMax : UInt64
deriving DecidableEq

namespace AnnounceConfig

/-- The standard settings. -/
def standard : AnnounceConfig := ⟨[], 5, 5000, 250, 5000⟩

/-- A list of addresses. -/
def readSeeds (value : Value) : Option (List Address) := do
  (← value.items?).mapM Value.text?

/-- The settings in a value. -/
def ofJson? (value : Value) : Option AnnounceConfig := do
  let fields ← Record.ofValue? ["seeds", "max_attempts", "attempt_timeout_ms", "backoff_base_ms",
    "backoff_max_ms"] value
  return {
    seeds := ← fields.getD "seeds" readSeeds standard.seeds
    maxAttempts := ← fields.getD "max_attempts" readWord32 standard.maxAttempts
    attemptTimeout := ← fields.getD "attempt_timeout_ms" readWord64 standard.attemptTimeout
    backoffBase := ← fields.getD "backoff_base_ms" readWord64 standard.backoffBase
    backoffMax := ← fields.getD "backoff_max_ms" readWord64 standard.backoffMax }

/-- The settings as a value. -/
def toJson (c : AnnounceConfig) : Value :=
  .ofFields [("seeds", .array (c.seeds.map Value.ofText)),
    ("max_attempts", .ofNat c.maxAttempts.toNat),
    ("attempt_timeout_ms", .ofNat c.attemptTimeout.toNat),
    ("backoff_base_ms", .ofNat c.backoffBase.toNat),
    ("backoff_max_ms", .ofNat c.backoffMax.toNat)]

end AnnounceConfig

end SignedRefs
