import SignedRefs.Hash.Sha512
import SignedRefs.Ed25519.Curve

/-!
# Ed25519 Signatures

A key is a seed of 32 bytes; its public half is a point of the curve in its 32-byte form. A
signature is 64 bytes: the form of a point `R`, then a scalar `s`, least significant byte first.
It is accepted when `s` is below the order of the base point and `s · B - k · A`, with `k` the hash
of `R`, the key and the message, has exactly the form `R`.
-/

namespace SignedRefs.Ed25519

/-- The scalar that a digest stands for. -/
def scalarOfDigest (digest : Bytes) : Nat := Bytes.littleEndian digest % order

/-- The secret scalar of a seed: the first half of its digest, with the three lowest bits and the
highest cleared and the next to highest set. -/
def secretScalar (seed : Bytes) : Nat :=
  let value := Bytes.littleEndian ((Sha512.hash seed).take 32)
  value % Nat.pow 2 254 / 8 * 8 + Nat.pow 2 254

/-- The public key of a seed. -/
def publicKey (seed : Bytes) : Bytes := (Point.multiple (secretScalar seed) basePoint).encode

/-- A public key takes 32 bytes. -/
@[simp] theorem length_publicKey (seed : Bytes) : (publicKey seed).length = 32 := by
  simp [publicKey]

/-- Whether 32 bytes are a public key: they are the form of a point. -/
def isPublicKey (key : Bytes) : Bool := (Point.decode? key).isSome

/-- The signature of a message under a seed. -/
def sign (seed message : Bytes) : Bytes :=
  let nonce := scalarOfDigest (Sha512.hash ((Sha512.hash seed).drop 32 ++ message))
  let point := (Point.multiple nonce basePoint).encode
  let challenge := scalarOfDigest (Sha512.hash (point ++ publicKey seed ++ message))
  let scalar := (nonce + challenge * secretScalar seed) % order
  point ++ Bytes.ofNatLittleEndian 32 scalar

/-- A signature takes 64 bytes. -/
@[simp] theorem length_sign (seed message : Bytes) : (sign seed message).length = 64 := by
  simp [sign]

/-- Whether a signature of 64 bytes is one of the key's owner over the message. -/
def verify (key message signature : Bytes) : Bool :=
  let point := signature.take 32
  let scalar := Bytes.littleEndian (signature.drop 32)
  match Point.decode? key with
  | none => false
  | some a =>
    let challenge := scalarOfDigest (Sha512.hash (point ++ key ++ message))
    scalar < order &&
      (Point.add (Point.multiple scalar basePoint) (Point.multiple challenge a.neg)).encode == point

end SignedRefs.Ed25519
