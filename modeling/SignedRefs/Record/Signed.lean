import SignedRefs.Record.Error

/-!
# Signed Bytes

A signed record is sent as the canonical form of its body with the signature of that form appended.
This module holds what all kinds of records share: how the two parts are put together and taken
apart, and when a signature counts.

## Main results

* `splitSignature?_append`, `append_of_splitSignature?`: the two parts and their whole determine
  each other, provided that the body is not empty.
-/

namespace SignedRefs

/-- How many bytes the signature takes. -/
def signatureLength : Nat := 64

/-- Takes the signature off the end, if something stands before it. -/
def splitSignature? (bytes : Bytes) : Option (Bytes × Signature) :=
  match FixedBytes.ofBytes? (bytes.drop (bytes.length - signatureLength)) with
  | none => none
  | some value =>
    if bytes.length ≤ signatureLength then none
    else some (bytes.take (bytes.length - signatureLength), ⟨value⟩)

/-- The parts of a body with a signature behind it. -/
theorem splitSignature?_append {body : Bytes} (h : body ≠ []) (signature : Signature) :
    splitSignature? (body ++ signature.bytes) = some (body, signature) := by
  obtain ⟨value⟩ := signature
  have hlen : value.bytes.length = signatureLength := value.length_eq
  have hsub : (body ++ value.bytes).length - signatureLength = body.length := by
    rw [List.length_append, hlen, Nat.add_sub_cancel]
  have hpos : 0 < body.length := List.length_pos_iff.mpr h
  have hlong : ¬(body ++ value.bytes).length ≤ signatureLength := by
    rw [List.length_append, hlen]
    omega
  unfold splitSignature?
  simp only [Signature.bytes, hsub, List.take_left, List.drop_left,
    FixedBytes.ofBytes?_eq_some_iff.mpr (rfl : value.bytes = value.bytes), if_neg hlong]

/-- Bytes with parts are the body with the signature behind it. -/
theorem append_of_splitSignature? {bytes body : Bytes} {signature : Signature}
    (h : splitSignature? bytes = some (body, signature)) :
    body ++ signature.bytes = bytes ∧ body ≠ [] := by
  unfold splitSignature? at h
  split at h
  · cases h
  · next value hv =>
    split at h
    · cases h
    · next hlong =>
      cases h
      constructor
      · rw [Signature.bytes, FixedBytes.ofBytes?_eq_some_iff.mp hv, List.take_append_drop]
      · intro hnil
        have hlen := congrArg List.length hnil
        rw [List.length_take, List.length_nil] at hlen
        omega

/-- Checks that a signature is the owner's. -/
def PeerId.verify (id : PeerId) (message : Bytes) (signature : Signature) :
    Except RecordError Unit :=
  if ¬id.isPublicKey then .error (.unusableKey id)
  else if id.accepts message signature then .ok ()
  else .error .signature

end SignedRefs
