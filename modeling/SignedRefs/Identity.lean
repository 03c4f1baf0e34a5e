import SignedRefs.Ed25519.Signature
import SignedRefs.Hex

/-!
# Identities

A peer *is* its public key. `PeerId` is the 32 bytes of such a key, `Keypair` the seed behind it
and `Signature` what the seed makes of a message. Any 32 bytes can be carried around as a `PeerId`;
only those that name a point of the curve can be read from text (`PeerId.ofText`) or verify
anything (`PeerId.accepts`).
-/

namespace SignedRefs

/-! ### Peers -/

/-- The public key that identifies a peer. -/
structure PeerId where
  /-- The 32 bytes of the key. -/
  key : FixedBytes 32
deriving DecidableEq

namespace PeerId

/-- Peers are ordered by the bytes of their keys. -/
instance : Ord PeerId := ⟨compareOn key⟩

instance : Std.TransOrd PeerId := inferInstanceAs (Std.TransCmp (compareOn key))

instance : Std.LawfulEqOrd PeerId where
  eq_of_compare {a b} h := by
    cases a; cases b
    exact congrArg PeerId.mk (Std.LawfulEqOrd.eq_of_compare (α := FixedBytes 32) h)

/-- The bytes of the key. -/
def bytes (id : PeerId) : Bytes := id.key.bytes

/-- The key in hexadecimal. -/
def hex (id : PeerId) : String := Hex.encode id.bytes

/-- The first eight digits of the key. -/
def short (id : PeerId) : String := Hex.encode (id.bytes.take 4)

/-- The key as it appears in diagnostics. -/
def label (id : PeerId) : String := "PeerId(" ++ Hex.encode (id.bytes.take 8) ++ ")"

/-- Why a text is not a peer's key. -/
inductive Fault
  /-- The text is not hexadecimal. -/
  | notHex (text : String) (fault : Hex.Fault)
  /-- The text names this many bytes. -/
  | wrongLength (count : Nat)
  /-- The bytes name no point of the curve. -/
  | notPublicKey (text : String)
deriving DecidableEq

/-- The text of a fault. -/
def Fault.message : Fault → String
  | .notHex text fault => Text.quoted text ++ ": " ++ fault.message
  | .wrongLength count => "expected 32 bytes, got " ++ toString count
  | .notPublicKey text => Text.quoted text ++ ": not a valid public key"

/-- Whether the bytes name a point of the curve. -/
def isPublicKey (id : PeerId) : Bool := Ed25519.isPublicKey id.bytes

/-- Reads 64 hexadecimal digits that name a public key. -/
def ofText (text : String) : Except Fault PeerId :=
  match Hex.decode text with
  | .error fault => .error (.notHex text fault)
  | .ok bytes =>
    match FixedBytes.ofBytes? bytes with
    | none => .error (.wrongLength bytes.length)
    | some key => if (PeerId.mk key).isPublicKey then .ok ⟨key⟩ else .error (.notPublicKey text)

end PeerId

/-! ### Signatures -/

/-- A signature of 64 bytes. -/
structure Signature where
  /-- The bytes. -/
  value : FixedBytes 64
deriving DecidableEq

namespace Signature

/-- The bytes of the signature. -/
def bytes (s : Signature) : Bytes := s.value.bytes

/-- The signature in hexadecimal. -/
def hex (s : Signature) : String := Hex.encode s.bytes

/-- The signature as it appears in diagnostics. -/
def label (s : Signature) : String := "Signature(" ++ Hex.encode (s.bytes.take 8) ++ "...)"

end Signature

/-- Whether the signature is one of the key's owner over the message. -/
def PeerId.accepts (id : PeerId) (message : Bytes) (signature : Signature) : Bool :=
  Ed25519.verify id.bytes message signature.bytes

/-! ### Keys -/

/-- The secret half of an identity. -/
structure Keypair where
  /-- The 32 bytes that everything else follows from. -/
  seed : FixedBytes 32
deriving DecidableEq

namespace Keypair

/-- The identity that the key stands for. -/
def peerId (keys : Keypair) : PeerId :=
  ⟨⟨Ed25519.publicKey keys.seed.bytes, Ed25519.length_publicKey _⟩⟩

/-- The key's signature of a message. -/
def sign (keys : Keypair) (message : Bytes) : Signature :=
  ⟨⟨Ed25519.sign keys.seed.bytes message, Ed25519.length_sign _ _⟩⟩

/-- The key as it appears in diagnostics, which show only the public half. -/
def label (keys : Keypair) : String := "Keypair(" ++ keys.peerId.label ++ ")"

end Keypair

end SignedRefs
