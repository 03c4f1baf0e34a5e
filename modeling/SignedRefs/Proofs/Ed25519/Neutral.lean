import Mathlib.Data.ZMod.Defs
import Mathlib.Tactic.Ring
import SignedRefs.Ed25519.Signature

/-!
# The Key That Signs Everything

Points of small order are points like any other, the neutral one included. As a public key it has
multiples that are all neutral, so the challenge drops out of the equation that makes a signature
valid, and with it the message: one signature is good for every message.

A neutral point has many forms `(0, u, u, 0)`. What keeps `u` from vanishing is that its power to
the order of the multiplicative group is one.

## Main results

* `power_eq`: repeated squaring computes powers.
* `Point.Neutral.addWith`, `Point.Neutral.multiple`: sums of neutral points are neutral.
* `verify_neutral`: the signature that the neutral key has for every message.
-/

namespace SignedRefs.Ed25519

open Fin.CommRing

/-! ### Powers -/

/-- Repeated squaring multiplies the result by the power, if there is a step for each bit. -/
theorem Element.powerStep_eq {fuel exponent : Nat} (h : exponent < 2 ^ fuel)
    (base result : Element) : powerStep fuel base result exponent = result * base ^ exponent := by
  induction fuel generalizing base result exponent with
  | zero =>
      obtain rfl : exponent = 0 := by simpa using h
      simp [powerStep]
  | succ fuel ih =>
      have hbits := Nat.div_add_mod exponent 2
      rw [powerStep, ih (by omega), ← pow_two, ← pow_mul]
      split_ifs with hodd
      · have hexponent : 2 * (exponent / 2) + 1 = exponent := by omega
        rw [mul_assoc, ← pow_succ', hexponent]
      · have hexponent : 2 * (exponent / 2) = exponent := by omega
        rw [hexponent]

/-- Repeated squaring computes powers. -/
theorem Element.power_eq (base : Element) (exponent : Nat) :
    base.power exponent = base ^ exponent := by
  rw [power, powerStep_eq Nat.lt_log2_self, one_mul]

/-- An element whose power to the order of the multiplicative group is one has an inverse. -/
theorem Element.mul_inverse {u : Element} (h : u ^ (prime - 1) = 1) : u * u.inverse = 1 := by
  have hprime : prime - 1 = prime - 2 + 1 := by decide
  rw [inverse, power_eq, ← pow_succ', ← hprime, h]

/-- Two to the order of the multiplicative group is one. -/
theorem Element.two_pow : (2 : Element) ^ (prime - 1) = 1 := by
  rw [← power_eq]
  decide +kernel

/-! ### Neutral points -/

namespace Point

/-- A point is a form of the neutral one. -/
def Neutral (p : Point) : Prop := ∃ u : Element, u ^ (prime - 1) = 1 ∧ p = ⟨0, u, u, 0⟩

/-- The point that additions start with is neutral. -/
theorem neutral_zero : Neutral zero := ⟨1, one_pow _, rfl⟩

variable {p q : Point}

/-- The sum of two neutral points is neutral, whatever constant the formula is given. -/
theorem Neutral.addWith (twice : Element) (hp : p.Neutral) (hq : q.Neutral) :
    (addWith twice p q).Neutral := by
  obtain ⟨u, hu, rfl⟩ := hp
  obtain ⟨v, hv, rfl⟩ := hq
  have hproduct : (2 * (u * v)) ^ (prime - 1) = 1 := by
    rw [mul_pow, mul_pow, hu, hv, Element.two_pow, one_mul, one_mul]
  refine ⟨(2 * (u * v)) ^ 2, ?_, ?_⟩
  · rw [pow_right_comm, hproduct, one_pow]
  · simp only [Point.addWith, Point.mk.injEq]
    refine ⟨?_, ?_, ?_, ?_⟩ <;> ring

/-- Doubling and adding neutral points leads to a neutral one. -/
theorem Neutral.multipleStep {twice : Element} {fuel count : Nat} {result : Point} (hp : p.Neutral)
    (hresult : result.Neutral) : (multipleStep twice fuel count p result).Neutral := by
  induction fuel generalizing count p result with
  | zero => exact hresult
  | succ fuel ih =>
      rw [Point.multipleStep]
      refine ih (hp.addWith twice hp) ?_
      split_ifs
      · exact hresult.addWith twice hp
      · exact hresult

/-- All multiples of a neutral point are neutral. -/
theorem Neutral.multiple (hp : p.Neutral) (count : Nat) : (multiple count p).Neutral :=
  hp.multipleStep neutral_zero

/-- All neutral points have the same bytes. -/
theorem Neutral.encode (hp : p.Neutral) : p.encode = zero.encode := by
  obtain ⟨u, hu, rfl⟩ := hp
  have hone : (1 : Element).inverse = 1 := by rw [Element.inverse, Element.power_eq, one_pow]
  simp only [Point.encode, zero, Element.mul_inverse hu, hone, zero_mul, mul_one]

end Point

/-! ### The neutral key -/

/-- What makes a signature valid. -/
theorem verify_eq_true_iff {key message signature : Bytes} :
    verify key message signature = true ↔ ∃ a, Point.decode? key = some a ∧
      Bytes.littleEndian (signature.drop 32) < order ∧
        (Point.add (Point.multiple (Bytes.littleEndian (signature.drop 32)) basePoint)
          (Point.multiple (scalarOfDigest (Sha512.hash (signature.take 32 ++ key ++ message)))
            a.neg)).encode = signature.take 32 := by
  unfold verify
  cases Point.decode? key with
  | none => simp
  | some a => simp

/-- The neutral point as a key. -/
def neutralKey : Bytes := 1 :: List.replicate 31 0

/-- The neutral point and a scalar of zero. -/
def neutralSignature : Bytes := neutralKey ++ List.replicate 32 0

/-- The key decodes to the neutral point. -/
theorem decode?_neutralKey : Point.decode? neutralKey = some Point.zero := by decide +kernel

/-- The neutral key accepts one signature for every message. -/
theorem verify_neutral (message : Bytes) : verify neutralKey message neutralSignature = true := by
  have hneg : Point.zero.neg = Point.zero := by decide +kernel
  have hbase : Point.multiple 0 basePoint = Point.zero := by decide +kernel
  have hform : Point.zero.encode = neutralSignature.take 32 := by decide +kernel
  have hscalar : Bytes.littleEndian (neutralSignature.drop 32) = 0 := by decide
  refine verify_eq_true_iff.mpr ⟨Point.zero, decode?_neutralKey, ?_, ?_⟩
  · rw [hscalar]
    decide
  · rw [hscalar, hbase, hneg]
    have hmultiple := Point.neutral_zero.multiple
      (scalarOfDigest (Sha512.hash (neutralSignature.take 32 ++ neutralKey ++ message)))
    exact (Point.neutral_zero.addWith _ hmultiple).encode.trans hform

end SignedRefs.Ed25519
