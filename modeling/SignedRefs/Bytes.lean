/-!
# Byte Strings

Everything that is signed, hashed or sent is a list of bytes. This module holds the type, the
numbers that byte strings stand for (`littleEndian`, `bigEndian`), the text they may spell
(`text?`), and `FixedBytes n`, the byte strings of exactly `n` bytes under lexicographic order.

## Main results

* `text?_ofText`, `ofText_of_text?`: reading a byte string as UTF-8 and writing a text as UTF-8 are
  inverse to each other.
* `FixedBytes.ofBytes?_eq_some_iff`: a byte string is a value of `FixedBytes n` exactly when it
  has `n` bytes.
-/

namespace SignedRefs

/-- A byte string. -/
abbrev Bytes := List UInt8

namespace Bytes

/-! ### Numbers -/

/-- The number whose base-256 digits are the bytes, least significant first. -/
def littleEndian (bytes : Bytes) : Nat :=
  bytes.foldr (fun byte value => byte.toNat + 256 * value) 0

/-- The number whose base-256 digits are the bytes, most significant first. -/
def bigEndian (bytes : Bytes) : Nat :=
  bytes.foldl (fun value byte => 256 * value + byte.toNat) 0

/-- The `width` low base-256 digits of a number, least significant first. -/
def ofNatLittleEndian : (width : Nat) → (value : Nat) → Bytes
  | 0, _ => []
  | width + 1, value => UInt8.ofNat value :: ofNatLittleEndian width (value / 256)

/-- The `width` low base-256 digits of a number, most significant first. -/
def ofNatBigEndian (width value : Nat) : Bytes :=
  (ofNatLittleEndian width value).reverse

/-- A number takes the width that it is given. -/
@[simp] theorem length_ofNatLittleEndian (width value : Nat) :
    (ofNatLittleEndian width value).length = width := by
  induction width generalizing value with
  | zero => rfl
  | succ width ih => simp only [ofNatLittleEndian, List.length_cons, ih]

/-- A number takes the width that it is given. -/
@[simp] theorem length_ofNatBigEndian (width value : Nat) :
    (ofNatBigEndian width value).length = width := by
  simp only [ofNatBigEndian, List.length_reverse, length_ofNatLittleEndian]

/-! ### Pieces -/

/-- The consecutive pieces of `size` bytes, the last one possibly shorter. -/
def pieces (size : Nat) (bytes : Bytes) : List Bytes :=
  go bytes.length bytes
where
  /-- At most `fuel` pieces; each holds at least one byte, so the length is always enough. -/
  go : Nat → Bytes → List Bytes
    | 0, _ => []
    | fuel + 1, rest =>
      if rest.isEmpty then [] else rest.take size :: go fuel (rest.drop size)

/-! ### Text -/

/-- The UTF-8 form of a text. -/
def ofText (text : String) : Bytes := text.toByteArray.data.toList

/-- The text that the bytes spell in UTF-8, if they are well formed. -/
def text? (bytes : Bytes) : Option String := String.fromUTF8? ⟨bytes.toArray⟩

/-- A text is read back from its UTF-8 form. -/
@[simp] theorem text?_ofText (text : String) : text? (ofText text) = some text := by
  unfold text? String.fromUTF8?
  exact dif_pos (c := ByteArray.IsValidUTF8 ⟨(ofText text).toArray⟩) text.isValidUTF8

/-- The bytes that spell a text are its UTF-8 form. -/
theorem ofText_of_text? {bytes : Bytes} {text : String} (h : text? bytes = some text) :
    ofText text = bytes := by
  unfold text? String.fromUTF8? at h
  split at h
  · cases h; rfl
  · cases h

end Bytes

/-! ### Byte strings of a fixed length -/

/-- A byte string of exactly `n` bytes. -/
structure FixedBytes (n : Nat) where
  /-- The bytes. -/
  bytes : Bytes
  /-- There are `n` of them. -/
  length_eq : bytes.length = n
deriving DecidableEq

namespace FixedBytes

variable {n : Nat}

/-- Equal bytes make equal values. -/
theorem ext {a b : FixedBytes n} (h : a.bytes = b.bytes) : a = b := by
  cases a; cases b; cases h; rfl

/-- The value made of these bytes, if their number is right. -/
def ofBytes? (bytes : Bytes) : Option (FixedBytes n) :=
  if h : bytes.length = n then some ⟨bytes, h⟩ else none

/-- A byte string has a value exactly when it has `n` bytes, and then keeps them. -/
theorem ofBytes?_eq_some_iff {bytes : Bytes} {value : FixedBytes n} :
    ofBytes? bytes = some value ↔ value.bytes = bytes := by
  unfold ofBytes?
  constructor
  · intro h
    split at h
    · cases h; rfl
    · cases h
  · rintro rfl
    simp [value.length_eq]

/-- The value of `n` equal bytes. -/
def replicate (n : Nat) (byte : UInt8) : FixedBytes n :=
  ⟨List.replicate n byte, List.length_replicate⟩

/-- The first `n` bytes, zeros standing in for the missing ones. -/
def truncate (n : Nat) (bytes : Bytes) : FixedBytes n :=
  ⟨(bytes ++ List.replicate n 0).take n, by simp⟩

/-- Values are ordered byte by byte, as their byte strings are. -/
instance : Ord (FixedBytes n) := ⟨compareOn bytes⟩

instance : Std.TransOrd (FixedBytes n) :=
  inferInstanceAs (Std.TransCmp (compareOn (bytes (n := n))))

instance : Std.LawfulEqOrd (FixedBytes n) where
  eq_of_compare h := ext (Std.LawfulEqOrd.eq_of_compare (α := Bytes) h)

end FixedBytes

end SignedRefs
