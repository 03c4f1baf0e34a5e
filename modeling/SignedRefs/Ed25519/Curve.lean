import SignedRefs.Bytes
import SignedRefs.Ed25519.Field

/-!
# The Edwards Curve

The points of `-x² + y² = 1 + d x² y²` in extended coordinates, their sum and multiples, and their
32-byte form: the `y` coordinate, least significant byte first, with the parity of `x` in the
highest bit.

Reading is lenient in two ways. The `y` that the bytes give is taken modulo the prime, and a parity
bit beside `x = 0` is ignored; points of small order are points like any other.
-/

namespace SignedRefs.Ed25519

/-- The coefficient of the curve: `-121665 / 121666`. -/
def coefficient : Element := -(Element.ofNat 121665) * (Element.ofNat 121666).inverse

/-- The order of the base point. -/
def order : Nat := Nat.pow 2 252 + 27742317777372353535851937790883648493

/-- A point `(x / z, y / z)`, with `t = x * y / z` kept beside. -/
structure Point where
  /-- The scaled first coordinate. -/
  x : Element
  /-- The scaled second coordinate. -/
  y : Element
  /-- The scale. -/
  z : Element
  /-- The scaled product of the coordinates. -/
  t : Element
deriving DecidableEq

namespace Point

/-- The neutral point. -/
def zero : Point := ⟨0, 1, 1, 0⟩

/-- The point with the given coordinates. -/
def ofCoordinates (x y : Element) : Point := ⟨x, y, 1, x * y⟩

/-- The mirror image of a point. -/
def neg (p : Point) : Point := ⟨-p.x, p.y, p.z, -p.t⟩

/-- The sum of two points, with twice the coefficient of the curve at hand. -/
def addWith (twice : Element) (p q : Point) : Point :=
  let a := (p.y - p.x) * (q.y - q.x)
  let b := (p.y + p.x) * (q.y + q.x)
  let c := p.t * twice * q.t
  let d := (p.z + p.z) * q.z
  let e := b - a
  let f := d - c
  let g := d + c
  let h := b + a
  ⟨e * f, g * h, f * g, e * h⟩

/-- The sum of two points. -/
def add (p q : Point) : Point := addWith (coefficient + coefficient) p q

/-- Repeated doubling: `result + count · p`, if `fuel` covers the bits of `count`. -/
def multipleStep (twice : Element) : (fuel count : Nat) → (p result : Point) → Point
  | 0, _, _, result => result
  | fuel + 1, count, p, result =>
    multipleStep twice fuel (count / 2) (addWith twice p p)
      (if count % 2 = 1 then addWith twice result p else result)

/-- The sum of `count` copies of a point. -/
def multiple (count : Nat) (p : Point) : Point :=
  multipleStep (coefficient + coefficient) (count.log2 + 1) count p zero

/-- The 32-byte form of a point. -/
def encode (p : Point) : Bytes :=
  let scale := p.z.inverse
  let x := p.x * scale
  let y := p.y * scale
  Bytes.ofNatLittleEndian 32 (y.val + x.val % 2 * Nat.pow 2 255)

/-- An encoded point takes 32 bytes. -/
@[simp] theorem length_encode (p : Point) : p.encode.length = 32 := by
  simp [encode]

/-- The point of a 32-byte form: some `x` has to complete the `y` to a point of the curve. -/
def decode? (bytes : Bytes) : Option Point :=
  let value := Bytes.littleEndian bytes
  let y := Element.ofNat (value % Nat.pow 2 255)
  let odd := value / Nat.pow 2 255 % 2
  let square := y * y
  match Element.root? ((square - 1) * (coefficient * square + 1).inverse) with
  | none => none
  | some x => some (ofCoordinates (if x.val % 2 = odd then x else -x) y)

end Point

/-- The point whose multiples are the public keys: its second coordinate is `4 / 5` and its first
is even. -/
def basePoint : Point :=
  ⟨Element.ofNat 0x216936d3cd6e53fec0a4e231fdd6dc5c692cc7609525a7b2c9562d608f25d51a,
    Element.ofNat 0x6666666666666666666666666666666666666666666666666666666666666658, 1,
    Element.ofNat 0x67875f0fd78b766566ea4e8e64abe37d20f09f80775152f56dde8ab3a5b7dda3⟩

end SignedRefs.Ed25519
