import SignedRefs.Cbor.Decode
import SignedRefs.Proofs.Digits

/-!
# Heads of Items

The head of an item is written in its shortest form, and the reader takes it back off the front of
whatever it stands before. A number fits a head if it has 64 bits.

## Main results

* `readHead_writeHead`: a head that was written is read back.
-/

namespace SignedRefs

namespace Cbor

/-- The first bytes are found again in front of others. -/
theorem splitAt?_append (front rest : Bytes) :
    splitAt? front.length (front ++ rest) = some (front, rest) := by
  simp [splitAt?]

/-- A major type is read back from its code. -/
theorem Major.ofCode_code (major : Major) : Major.ofCode major.code = major := by
  cases major <;> rfl

/-- The codes of the major types take three bits. -/
theorem Major.code_le (major : Major) : major.code ≤ 7 := by cases major <;> decide

/-- The first byte of a head holds the code in its upper bits and the information in the others. -/
theorem toNat_initialByte (major : Major) {info : Nat} (h : info < 32) :
    (initialByte major info).toNat = 32 * major.code + info := by
  have hcode := major.code_le
  have hmod : (initialByte major info).toNat = (32 * major.code + info) % 256 := rfl
  rw [hmod, Nat.mod_eq_of_lt (by omega)]

/-- What a first byte says. -/
theorem readHead_initialByte (major : Major) {info : Nat} (h : info < 24) (rest : Bytes) :
    readHead (initialByte major info :: rest) = some (⟨major, info, info⟩, rest) := by
  have hmajor : (32 * major.code + info) / 32 = major.code := by omega
  have hinfo : (32 * major.code + info) % 32 = info := by omega
  simp only [readHead, toNat_initialByte major (show info < 32 by omega), hmajor, hinfo,
    Major.ofCode_code, h, if_true]

/-- What a first byte says that has digits behind it. -/
theorem readHead_digits (major : Major) {info : Nat} (hlow : 24 ≤ info) (hhigh : info < 28)
    {value : Nat} (hvalue : value < 256 ^ Nat.pow 2 (info - 24)) (rest : Bytes) :
    readHead (initialByte major info ::
        (Bytes.ofNatBigEndian (Nat.pow 2 (info - 24)) value ++ rest)) =
      some (⟨major, info, value⟩, rest) := by
  have hmajor : (32 * major.code + info) / 32 = major.code := by omega
  have hinfo : (32 * major.code + info) % 32 = info := by omega
  have hsplit := splitAt?_append (Bytes.ofNatBigEndian (Nat.pow 2 (info - 24)) value) rest
  rw [Bytes.length_ofNatBigEndian] at hsplit
  simp only [readHead, toNat_initialByte major (show info < 32 by omega), hmajor, hinfo,
    Major.ofCode_code, Nat.not_lt.mpr hlow, hhigh, if_true, if_false, hsplit,
    Bytes.bigEndian_ofNatBigEndian hvalue]

/-- A head in its shortest form is read back, whatever follows. It is never an open one. Each bound
on the number is the number of values that its digits can have. -/
theorem readHead_writeHead (major : Major) {value : Nat} (h : value < UInt64.size) (rest : Bytes) :
    ∃ info, info < 28 ∧
      readHead (writeHead major value ++ rest) = some (⟨major, info, value⟩, rest) := by
  rw [writeHead]
  split
  · next hsmall => exact ⟨value, by omega, readHead_initialByte major hsmall rest⟩
  · have hdigits : ∀ info, 24 ≤ info → info < 28 → value < 256 ^ Nat.pow 2 (info - 24) →
        ∃ info', info' < 28 ∧ readHead (initialByte major info ::
          (Bytes.ofNatBigEndian (Nat.pow 2 (info - 24)) value ++ rest)) =
            some (⟨major, info', value⟩, rest) :=
      fun info hlow hhigh hvalue => ⟨info, hhigh, readHead_digits major hlow hhigh hvalue rest⟩
    split
    · next hlt => exact hdigits 24 (by decide) (by decide) hlt
    · split
      · next hlt => exact hdigits 25 (by decide) (by decide) hlt
      · split
        · next hlt => exact hdigits 26 (by decide) (by decide) hlt
        · exact hdigits 27 (by decide) (by decide) h

end Cbor

end SignedRefs
