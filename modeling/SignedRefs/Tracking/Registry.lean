import SignedRefs.SortedMap
import SignedRefs.Tracking.Scope

/-!
# The Registry of Tracking Decisions

The registry holds, for every identity that was tracked, a scope and possibly an alias, and
remembers the identities that were untracked since. The last decision about an identity counts. An
alias names one identity at a time: given to another one, it leaves its holder.
-/

namespace SignedRefs

/-- The decision about an identity. -/
structure Policy where
  /-- Whether the identity is fetched. -/
  scope : Scope
  /-- Its local name. -/
  name : Option Alias
deriving DecidableEq

/-- All tracking decisions. -/
structure Registry where
  /-- The policies of the tracked identities. -/
  policies : SortedMap PeerId Policy
  /-- The identities that the aliases name. -/
  holders : SortedMap Alias PeerId
  /-- The identities that were untracked and not tracked since. -/
  untracked : SortedSet PeerId

namespace Registry

/-- The registry without decisions. -/
def empty : Registry := ⟨.empty, .empty, .empty⟩

/-- The policy of an identity. -/
def policy? (r : Registry) (id : PeerId) : Option Policy := r.policies.get? id

/-- The alias of an identity. -/
def aliasOf? (r : Registry) (id : PeerId) : Option Alias := (r.policy? id).bind Policy.name

/-! ### Decisions -/

/-- The holders of aliases when an identity has given up its own. -/
def holdersWithout (r : Registry) (id : PeerId) : SortedMap Alias PeerId :=
  match r.aliasOf? id with
  | some held => r.holders.erase held
  | none => r.holders

/-- The policies when an identity has taken an alias from the one that holds it. -/
def policiesAfterTaking (policies : SortedMap PeerId Policy) (id : PeerId) :
    (holder : Option PeerId) → SortedMap PeerId Policy
  | none => policies
  | some holder =>
    if holder = id then policies
    else
      match policies.get? holder with
      | some policy => policies.insert holder { policy with name := none }
      | none => policies

/-- Tracks an identity under a policy, in place of an earlier one. -/
def track (r : Registry) (id : PeerId) (name : Option Alias) (scope : Scope) : Registry :=
  let holders := r.holdersWithout id
  let holder := name.bind holders.get?
  { policies := (policiesAfterTaking r.policies id holder).insert id ⟨scope, name⟩
    holders :=
      match name with
      | some name => holders.insert name id
      | none => holders
    untracked := r.untracked.erase id }

/-- Tracks the identity that a text names, under the alias that a text names. -/
def trackText (r : Registry) (identity : String) (name : Option String) (scope : Scope) :
    Except TrackingError (PeerId × Registry) := do
  let id ← (PeerId.ofText identity).mapError .invalidIdentity
  let name ← name.mapM fun text => (Alias.ofText text).mapError (.invalidAlias text)
  return (id, r.track id name scope)

/-- Stops tracking an identity and says whether it had a policy. -/
def stopTracking (r : Registry) (id : PeerId) : Bool × Registry :=
  ((r.policy? id).isSome,
    { policies := r.policies.erase id
      holders := r.holdersWithout id
      untracked := r.untracked.insert id })

/-- The registry when an identity is no longer tracked. -/
def untrack (r : Registry) (id : PeerId) : Registry := (r.stopTracking id).2

/-! ### Questions -/

/-- The identity with an alias. A text that is no alias is nobody's. -/
def resolve (r : Registry) (text : String) : Except TrackingError PeerId :=
  match Alias.ofText text with
  | .error _ => .error (.unknownAlias text)
  | .ok name =>
    match r.holders.get? name with
    | some id => .ok id
    | none => .error (.unknownAlias text)

/-- Whether an identity has a policy under which it is fetched. -/
def isTracked (r : Registry) (id : PeerId) : Bool :=
  match r.policy? id with
  | some policy => policy.scope.isTracked
  | none => false

/-- Whether an identity has a policy under which it is not fetched. -/
def isBlocked (r : Registry) (id : PeerId) : Bool :=
  match r.policy? id with
  | some policy => policy.scope == .none
  | none => false

/-- Whether an identity was untracked and not tracked since. -/
def isUntracked (r : Registry) (id : PeerId) : Bool := r.untracked.contains id

/-- Whether an identity may be fetched only because another peer offers it. -/
def admits (r : Registry) (id : PeerId) : Bool := !r.isUntracked id && !r.isBlocked id

/-- The identities that are fetched, ascending. -/
def tracked (r : Registry) : List PeerId :=
  (r.policies.entries.filter fun e => e.2.scope.isTracked).map Prod.fst

end Registry

end SignedRefs
