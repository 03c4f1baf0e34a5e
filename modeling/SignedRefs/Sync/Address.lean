/-!
# Addresses

Where a peer or a seed is reached. What an address looks like is up to the network; here it is a
text.
-/

namespace SignedRefs

/-- Where a peer is reached. -/
abbrev Address := String

end SignedRefs
