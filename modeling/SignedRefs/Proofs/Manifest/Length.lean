import Mathlib.Algebra.Group.Action.Defs
import Mathlib.Algebra.Order.BigOperators.Group.List
import SignedRefs.Proofs.Manifest.Encoding

/-!
# The Length of a Manifest

How many bytes a signed manifest takes on the wire depends on its number, on how many refs it has,
and on how long their names are, and can be counted without writing it down (`wireSize`).

## Main results

* `length_writeHead`: how long the head of an item is.
* `SignedManifest.length_of_encode`: what is sent has the length that was counted.
* `SignedManifest.wireSize_le`: no ref takes more than 290 bytes.
-/

namespace SignedRefs

namespace Cbor

/-- How many bytes the head of an item takes. -/
def headLength (value : Nat) : Nat :=
  if value < 24 then 1
  else if value < 256 then 2
  else if value < 65536 then 3
  else if value < 4294967296 then 5
  else 9

/-- A head takes as many bytes as its number needs. -/
theorem length_writeHead (major : Major) (value : Nat) :
    (writeHead major value).length = headLength value := by
  have hsizes : UInt8.size = 256 ∧ UInt16.size = 65536 ∧ UInt32.size = 4294967296 := ⟨rfl, rfl, rfl⟩
  rw [writeHead, headLength, hsizes.1, hsizes.2.1, hsizes.2.2]
  split_ifs <;> simp

/-- No head takes more than nine bytes. -/
theorem headLength_le (value : Nat) : headLength value ≤ 9 := by
  rw [headLength]
  split_ifs <;> omega

/-- The head of a higher number is not shorter. -/
theorem headLength_mono {a b : Nat} (h : a ≤ b) : headLength a ≤ headLength b := by
  rw [headLength, headLength]
  split_ifs <;> omega

end Cbor

open Cbor

/-- How many bytes a ref takes: its name and the name of an object, each behind its head. -/
def RefName.wireSize (name : RefName) : Nat :=
  headLength (Bytes.ofText name.text).length + (Bytes.ofText name.text).length + 21

namespace Manifest

variable {m : Manifest}

/-- How long the form of a ref is. -/
theorem length_form_refEntry (ref : RefName × ObjectId) :
    (form (refEntry ref).1 ++ form (refEntry ref).2).length = ref.1.wireSize := by
  have hid : ref.2.bytes.length = 20 := ref.2.value.length_eq
  have hkey : form (refEntry ref).1 =
      writeHead .text (Bytes.ofText ref.1.text).length ++ Bytes.ofText ref.1.text := rfl
  have hvalue : form (refEntry ref).2 = writeHead .bytes ref.2.bytes.length ++ ref.2.bytes := rfl
  rw [hkey, hvalue, hid]
  simp only [List.length_append, length_writeHead, hid, RefName.wireSize]
  rfl

/-- The refs take the bytes of each of them, whatever their order. -/
theorem length_form_refs : (form (.map (m.refs.entries.map refEntry))).length =
    headLength m.refs.size + (m.refs.keys.map RefName.wireSize).sum := by
  obtain ⟨-, -, heq⟩ := form_map (hasForm_refs (m := m))
  have hcount : (m.refs.entries.map refEntry).length = m.refs.size := List.length_map _
  have horder : ((inOrder (m.refs.entries.map refEntry)).map
      fun e => (form e.1 ++ form e.2).length).sum =
        ((m.refs.entries.map refEntry).map fun e => (form e.1 ++ form e.2).length).sum :=
    (writtenRefs_perm.map _).sum_eq
  have hrefs : (m.refs.entries.map refEntry).map (fun e => (form e.1 ++ form e.2).length) =
      m.refs.keys.map RefName.wireSize := by
    rw [SortedMap.keys, List.map_map, List.map_map]
    exact List.map_congr_left fun ref _ => length_form_refEntry ref
  rw [heq, List.length_append, length_writeHead, hcount, List.length_flatten, List.map_map,
    ← hrefs, ← horder]
  rfl

/-- How long the form of 32 bytes is. -/
theorem length_form_bytes (value : FixedBytes 32) : (form (.bytes value.bytes)).length = 34 := by
  have hform : form (.bytes value.bytes) =
      writeHead .bytes value.bytes.length ++ value.bytes := rfl
  rw [hform, List.length_append, length_writeHead, value.length_eq]
  rfl

/-- How long the form of a manifest is. -/
theorem length_form_toValue : (form m.toValue).length =
    73 + headLength m.sequence.toNat + headLength m.refs.size +
      (m.refs.keys.map RefName.wireSize).sum := by
  have hform : HasForm (.map (m.withRefs (m.refs.entries.map refEntry))) := hasForm_toValue
  obtain ⟨-, -, heq⟩ := form_map hform
  have hkey : ∀ key : UInt64, key < 4 → (form (.unsigned key)).length = 1 := fun key hlt => by
    rw [form_eq (rfl : encode (.unsigned key) = _), length_writeHead, headLength, if_pos]
    exact Nat.lt_of_lt_of_le (UInt64.lt_iff_toNat_lt.mp hlt) (by decide)
  have hsequence : (form (.unsigned m.sequence)).length = headLength m.sequence.toNat :=
    length_writeHead _ _
  have hrepo : (form (.bytes m.repo.bytes)).length = 34 := length_form_bytes _
  have hidentity : (form (.bytes m.identity.bytes)).length = 34 := length_form_bytes _
  have hhead : headLength 4 = 1 := rfl
  rw [toValue_eq, heq, inOrder_of_pairwise (pairwise_withRefs _), List.length_append,
    length_writeHead]
  simp only [withRefs, Value.entry, List.map_cons, List.map_nil, List.flatten_cons,
    List.flatten_nil, List.append_nil, List.length_append, List.length_cons, List.length_nil,
    length_form_refs, hsequence, hrepo, hidentity, hkey 0 (by decide), hkey 1 (by decide),
    hkey 2 (by decide), hkey 3 (by decide), Nat.zero_add, Nat.reduceAdd, hhead]
  omega

end Manifest

/-! ### On the wire -/

namespace SignedManifest

/-- How many bytes a signed manifest takes on the wire. -/
def wireSize (s : SignedManifest) : Nat :=
  137 + headLength s.manifest.sequence.toNat + headLength s.manifest.refs.size +
    (s.manifest.refs.keys.map RefName.wireSize).sum

variable {s : SignedManifest}

/-- What is sent has the length that was counted. -/
theorem length_of_encode {bytes : Bytes} (h : s.encode = .ok bytes) :
    bytes.length = s.wireSize := by
  obtain ⟨body, hbody, rfl⟩ := encode_eq_ok_iff.mp h
  obtain ⟨-, hencode⟩ := Manifest.signingBytes_eq_ok_iff.mp hbody
  have hsignature : s.signature.bytes.length = 64 := s.signature.value.length_eq
  rw [List.length_append, ← form_eq hencode, Manifest.length_form_toValue, hsignature, wireSize]
  omega

/-- No ref takes more than 290 bytes, and no manifest more than 155 beside its refs. -/
theorem wireSize_le (s : SignedManifest) : s.wireSize ≤ 155 + 290 * s.manifest.refs.size := by
  have href : ∀ name : RefName, name.wireSize ≤ 290 := fun name => by
    have hlength := name.length_ofText_text_le
    have hhead := headLength_mono hlength
    have hmax : headLength 266 = 3 := rfl
    rw [RefName.wireSize]
    omega
  have hsum := List.sum_le_card_nsmul (s.manifest.refs.keys.map RefName.wireSize) 290
    fun n hn => by
      obtain ⟨name, -, rfl⟩ := List.mem_map.mp hn
      exact href name
  rw [List.length_map, ← SortedMap.size_eq_length_keys, smul_eq_mul] at hsum
  have hsequence := headLength_le s.manifest.sequence.toNat
  have hsize := headLength_le s.manifest.refs.size
  rw [wireSize]
  omega

end SignedManifest

end SignedRefs
