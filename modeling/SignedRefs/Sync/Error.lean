import SignedRefs.Store.Error
import SignedRefs.Sync.Address
import SignedRefs.Sync.Message

/-!
# Errors of Synchronisation

What can go wrong between two peers, as causes. The wording is in `SyncError.message`.
-/

namespace SignedRefs

/-- Why there is no connection. -/
inductive ConnectionFault
  /-- It took too long. -/
  | timedOut
  /-- There is nobody to connect to. -/
  | unreachable
deriving DecidableEq

/-- Why a request is not delivered. -/
inductive DeliveryFault
  /-- The peer is no longer there. -/
  | wentAway (peer : Address)
  /-- Something else, in the words of the network. -/
  | other (text : String)
deriving DecidableEq

/-- The kinds of responses that are waited for. -/
inductive Expected
  /-- A list of identities. -/
  | namespaces
  /-- A manifest. -/
  | manifest
  /-- That a manifest was taken over. -/
  | accepted
deriving DecidableEq

/-- What is wrong with a response. -/
inductive ResponseFault
  /-- It breaks a limit. -/
  | limit (fault : LimitFault)
  /-- It is of another kind, given by its position. -/
  | unexpected (expected : Expected) (position : Nat)
deriving DecidableEq

/-- What can go wrong between two peers. -/
inductive SyncError
  /-- There is no connection. -/
  | connection (peer : Address) (fault : ConnectionFault)
  /-- A request is not delivered. -/
  | delivery (fault : DeliveryFault)
  /-- The identities of a peer are not listed in time. -/
  | listingTimeout (peer : Address)
  /-- A response is not what it should be. -/
  | response (fault : ResponseFault)
  /-- The peer reports an error. -/
  | rejected (code : ErrorCode) (text : String)
  /-- The local store has a problem. -/
  | store (error : StoreError)
  /-- A local record is wrong. -/
  | record (error : RecordError)
deriving DecidableEq

/-- The words for a fault. -/
def ConnectionFault.message : ConnectionFault → String
  | .timedOut => "connect timed out"
  | .unreachable => "peer not reachable"

/-- The words for a fault. -/
def DeliveryFault.message : DeliveryFault → String
  | .wentAway peer => peer ++ " went away"
  | .other text => text

/-- The word for a kind of response. -/
def Expected.text : Expected → String
  | .namespaces => "Namespaces"
  | .manifest => "Manifest"
  | .accepted => "Accepted"

/-- The words for a fault. -/
def ResponseFault.message : ResponseFault → String
  | .limit fault => fault.message
  | .unexpected expected position =>
    "expected " ++ expected.text ++ ", got Discriminant(" ++ toString position ++ ")"

/-- The text of an error. -/
def SyncError.message : SyncError → String
  | .connection peer fault => "connection to " ++ peer ++ " failed: " ++ fault.message
  | .delivery fault => "transport error: " ++ fault.message
  | .listingTimeout peer => "timeout: listing namespaces from " ++ peer
  | .response fault => "invalid message: " ++ fault.message
  | .rejected code text => "peer error (" ++ code.text ++ "): " ++ text
  | .store error => "store error: " ++ error.message
  | .record error => "core error: " ++ error.message

end SignedRefs
