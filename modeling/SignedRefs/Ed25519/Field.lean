/-!
# The Field of the Curve

Coordinates of points are numbers modulo the prime `2 ^ 255 - 19`. Inverses and square roots are
powers: `a ^ (p - 2)` inverts `a`, and since `p` is 5 modulo 8, one of `a ^ ((p + 3) / 8)` and its
product with a root of minus one squares to `a` whenever anything does.
-/

namespace SignedRefs.Ed25519

/-- The order of the field. -/
def prime : Nat := Nat.pow 2 255 - 19

/-- The order of the field is not zero. -/
instance : @NeZero Nat Zero.ofOfNat0 prime := ⟨by decide⟩

/-- A number modulo the prime. -/
abbrev Element := Fin prime

namespace Element

/-- A number taken modulo the prime. -/
def ofNat (value : Nat) : Element := Fin.ofNat prime value

/-- Repeated squaring: `result * base ^ exponent`, if `fuel` covers the exponent's bits. -/
def powerStep : (fuel : Nat) → (base result : Element) → (exponent : Nat) → Element
  | 0, _, result, _ => result
  | fuel + 1, base, result, exponent =>
    powerStep fuel (base * base) (if exponent % 2 = 1 then result * base else result)
      (exponent / 2)

/-- A power of a field element. -/
def power (base : Element) (exponent : Nat) : Element :=
  powerStep (exponent.log2 + 1) base 1 exponent

/-- The multiplicative inverse; zero has itself. -/
def inverse (a : Element) : Element := a.power (prime - 2)

/-- A square root of minus one. -/
def rootOfMinusOne : Element := (ofNat 2).power ((prime - 1) / 4)

/-- A square root, if there is one. -/
def root? (a : Element) : Option Element :=
  let candidate := a.power ((prime + 3) / 8)
  let other := candidate * rootOfMinusOne
  if candidate * candidate = a then some candidate
  else if other * other = a then some other
  else none

end Element

end SignedRefs.Ed25519
