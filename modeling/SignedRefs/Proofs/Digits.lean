import Mathlib.Algebra.Group.Nat.Defs
import SignedRefs.Bytes

/-!
# Digits

The digits of a number to the base 256 stand for it again as long as there are enough of them. Names
and signatures are long byte strings, and are best given by a number.

## Main results

* `Bytes.bigEndian_ofNatBigEndian`: the digits of a number.
* `FixedBytes.ofNat_inj`: different numbers make different byte strings.
-/

namespace SignedRefs

namespace Bytes

/-- A number is that of its digits as long as there are enough of them. -/
theorem littleEndian_ofNatLittleEndian (width value : Nat) :
    littleEndian (ofNatLittleEndian width value) = value % 256 ^ width := by
  induction width generalizing value with
  | zero => simp [ofNatLittleEndian, littleEndian, Nat.mod_one]
  | succ width ih =>
      have hbyte : (UInt8.ofNat value).toNat = value % 256 := rfl
      rw [ofNatLittleEndian, littleEndian, List.foldr_cons]
      change (UInt8.ofNat value).toNat + 256 * littleEndian _ = _
      rw [ih, hbyte, Nat.pow_succ', Nat.mod_mul]

/-- Bytes in reverse order are read from the other end. -/
theorem bigEndian_reverse (bytes : Bytes) : bigEndian bytes.reverse = littleEndian bytes := by
  rw [bigEndian, littleEndian, List.foldl_reverse]
  refine congrArg (fun step => bytes.foldr step 0) ?_
  funext byte value
  exact Nat.add_comm _ _

/-- The same with the most significant digit first. -/
theorem bigEndian_ofNatBigEndian {width value : Nat} (h : value < 256 ^ width) :
    bigEndian (ofNatBigEndian width value) = value := by
  rw [ofNatBigEndian, bigEndian_reverse, littleEndian_ofNatLittleEndian, Nat.mod_eq_of_lt h]

end Bytes

/-- The byte string made of the last `n` digits of a number. -/
def FixedBytes.ofNat (n value : Nat) : FixedBytes n :=
  ⟨Bytes.ofNatBigEndian n value, Bytes.length_ofNatBigEndian n value⟩

/-- Numbers with no more digits than there is room for make different byte strings. -/
theorem FixedBytes.ofNat_inj {n a b : Nat} (ha : a < 256 ^ n) (hb : b < 256 ^ n) :
    ofNat n a = ofNat n b ↔ a = b := by
  constructor
  · intro h
    have hdigits := congrArg (fun value => Bytes.bigEndian value.bytes) h
    change Bytes.bigEndian (Bytes.ofNatBigEndian n a) = Bytes.bigEndian (Bytes.ofNatBigEndian n b)
      at hdigits
    rwa [Bytes.bigEndian_ofNatBigEndian ha, Bytes.bigEndian_ofNatBigEndian hb] at hdigits
  · rintro rfl
    rfl

end SignedRefs
