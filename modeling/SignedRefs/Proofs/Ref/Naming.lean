import Mathlib.Data.List.Basic
import Mathlib.Tactic.IntervalCases
import SignedRefs.Ref.Namespaced

/-!
# Names That Print Back

A ref name is read back from its text, so no two refs have the same text. The other way round the
letter case of a patch id is lost: the text of what was read is the text that was given, with the
capital digits of a patch id in lower case. A ref of some identity is read back if that identity is,
which takes a public key.

## Main results

* `Hex.decode_encode`, `Hex.encode_eq_iff`: what hexadecimal text keeps.
* `RefName.ofText_text`, `RefName.text_injective`: names print back.
* `RefName.text_eq_iff`: which texts print back.
* `NamespacedRef.ofText_text_eq_ok_iff`: which refs of an identity are read back.
-/

namespace SignedRefs

/-! ### Hexadecimal text -/

/-- None of the bytes is a capital letter that may stand for a digit. -/
def LowerCase (text : String) : Prop :=
  ∀ byte ∈ Bytes.ofText text, ¬(65 ≤ byte.toNat ∧ byte.toNat ≤ 70)

instance (text : String) : Decidable (LowerCase text) :=
  inferInstanceAs (Decidable (∀ byte ∈ Bytes.ofText text, _))

/-- A text is written character by character. -/
theorem Bytes.ofText_eq_flatMap (text : String) :
    Bytes.ofText text = text.toList.flatMap String.utf8EncodeChar := by
  rw [Bytes.ofText, ← String.utf8Encode_toList, List.utf8Encode]
  simp

/-- Different texts have different bytes. -/
theorem Bytes.ofText_injective {a b : String} (h : Bytes.ofText a = Bytes.ofText b) : a = b := by
  have htext := Bytes.text?_ofText a
  rw [h, Bytes.text?_ofText] at htext
  exact (Option.some.inj htext).symm

/-- Two texts in a row are written one after the other. -/
theorem Bytes.ofText_append (a b : String) :
    Bytes.ofText (a ++ b) = Bytes.ofText a ++ Bytes.ofText b := by
  rw [Bytes.ofText_eq_flatMap, Bytes.ofText_eq_flatMap, Bytes.ofText_eq_flatMap,
    String.toList_append, List.flatMap_append]

namespace Hex

/-- The byte of a digit. -/
def code (value : Nat) : UInt8 :=
  if value < 10 then UInt8.ofNat (48 + value) else UInt8.ofNat (87 + value)

/-- The byte of a capital digit in lower case. -/
def lower (byte : UInt8) : UInt8 :=
  if 65 ≤ byte.toNat ∧ byte.toNat ≤ 70 then UInt8.ofNat (byte.toNat + 32) else byte

/-- A digit takes one byte, its code. -/
theorem utf8EncodeChar_digit {value : Nat} (h : value < 16) :
    String.utf8EncodeChar (digit value) = [code value] := by
  interval_cases value <;> decide

/-- The code of a digit is read back. -/
theorem digitValue?_code {value : Nat} (h : value < 16) :
    digitValue? (code value) = some value := by
  interval_cases value <;> decide

/-- A digit that is read has a value, which is written in lower case. -/
theorem code_of_digitValue? {byte : UInt8} {value : Nat} (h : digitValue? byte = some value) :
    value < 16 ∧ code value = lower byte := by
  have hbyte : UInt8.ofNat byte.toNat = byte := UInt8.ofNat_toNat
  rw [digitValue?] at h
  split at h
  · next hdigit =>
      cases h
      refine ⟨by omega, ?_⟩
      have hsame : 48 + (byte.toNat - 48) = byte.toNat := by omega
      rw [code, lower, if_pos (by omega), if_neg (by omega), hsame, hbyte]
  · split at h
    · next hletter =>
        cases h
        refine ⟨by omega, ?_⟩
        have hsame : 87 + (byte.toNat - 87) = byte.toNat := by omega
        rw [code, lower, if_neg (by omega), if_neg (by omega), hsame, hbyte]
    · split at h
      · next hcapital =>
          cases h
          refine ⟨by omega, ?_⟩
          rw [code, lower, if_neg (by omega), if_pos hcapital]
          congr 1
          omega
      · cases h

/-- What is read as a digit is the code of this digit, up to its case. -/
theorem code_of_digitAt {byte : UInt8} {position value : Nat}
    (h : digitAt byte position = .ok value) : value < 16 ∧ code value = lower byte := by
  rw [digitAt] at h
  split at h
  · next hvalue =>
      cases h
      exact code_of_digitValue? hvalue
  · cases h

/-- The bytes of hexadecimal text. -/
theorem ofText_encode (bytes : Bytes) :
    Bytes.ofText (encode bytes) =
      bytes.flatMap fun byte => [code (byte.toNat / 16), code (byte.toNat % 16)] := by
  rw [Bytes.ofText_eq_flatMap, encode, String.toList_ofList, digits, List.flatMap_assoc]
  congr 1
  funext byte
  have hbyte := byte.toNat_lt
  rw [List.flatMap_cons, List.flatMap_cons, List.flatMap_nil,
    utf8EncodeChar_digit (show byte.toNat / 16 < 16 by omega),
    utf8EncodeChar_digit (show byte.toNat % 16 < 16 by omega)]
  rfl

/-- There are two digits for each byte. -/
theorem length_ofText_encode (bytes : Bytes) :
    (Bytes.ofText (encode bytes)).length = 2 * bytes.length := by
  rw [ofText_encode]
  induction bytes with
  | nil => rfl
  | cons byte bytes ih =>
      rw [List.flatMap_cons, List.length_append, ih, List.length_cons]
      simp only [List.length_cons, List.length_nil]
      omega

/-- The code of a digit is read as the digit wherever it stands. -/
theorem digitAt_code {value : Nat} (h : value < 16) (position : Nat) :
    digitAt (code value) position = .ok value := by
  rw [digitAt, digitValue?_code h]

/-- Pairs of digits that were written are read back. -/
theorem decodePairs_digits (bytes : Bytes) (position : Nat) :
    decodePairs position (bytes.flatMap fun byte =>
      [code (byte.toNat / 16), code (byte.toNat % 16)]) = .ok bytes := by
  induction bytes generalizing position with
  | nil => rfl
  | cons byte bytes ih =>
      have hbyte := byte.toNat_lt
      have hvalue : 16 * (byte.toNat / 16) + byte.toNat % 16 = byte.toNat := by omega
      simp only [List.flatMap_cons, List.cons_append, List.nil_append, decodePairs,
        digitAt_code (show byte.toNat / 16 < 16 by omega),
        digitAt_code (show byte.toNat % 16 < 16 by omega), ih, bind, Except.bind, pure,
        Except.pure, hvalue, UInt8.ofNat_toNat]

/-- Bytes are read back from hexadecimal text. -/
theorem decode_encode (bytes : Bytes) : decode (encode bytes) = .ok bytes := by
  have hlength := length_ofText_encode bytes
  rw [decode, if_neg (by omega), ofText_encode, decodePairs_digits]

/-- What is read was written in either letter case. -/
theorem digits_of_decodePairs {source out : Bytes} {position : Nat}
    (heven : source.length % 2 = 0) (h : decodePairs position source = .ok out) :
    (out.flatMap fun byte => [code (byte.toNat / 16), code (byte.toNat % 16)]) =
      source.map lower := by
  fun_induction decodePairs position source generalizing out with
  | case1 position high low rest ih =>
      cases hhigh : digitAt high position with
      | error fault =>
          rw [hhigh] at h
          cases h
      | ok a =>
          cases hlow : digitAt low (position + 1) with
          | error fault =>
              rw [hhigh, hlow] at h
              cases h
          | ok b =>
              cases hrest : decodePairs (position + 2) rest with
              | error fault =>
                  rw [hhigh, hlow, hrest] at h
                  cases h
              | ok tail =>
                  rw [hhigh, hlow, hrest] at h
                  cases h
                  obtain ⟨ha, hcodeA⟩ := code_of_digitAt hhigh
                  obtain ⟨hb, hcodeB⟩ := code_of_digitAt hlow
                  have hbyte : (UInt8.ofNat (16 * a + b)).toNat = 16 * a + b :=
                    UInt8.toNat_ofNat_of_lt' (by change _ < 256; omega)
                  have hdiv : (16 * a + b) / 16 = a := by omega
                  have hmod : (16 * a + b) % 16 = b := by omega
                  rw [List.length_cons, List.length_cons] at heven
                  rw [List.flatMap_cons, ih (by omega) hrest, hbyte, hdiv, hmod, hcodeA, hcodeB]
                  rfl
  | case2 source position hshort =>
      cases h
      cases source with
      | nil => rfl
      | cons byte rest =>
          cases rest with
          | nil => cases heven
          | cons byte' rest => exact (hshort byte byte' rest rfl).elim

/-- The text of bytes that were read is the text that was given, in lower case. -/
theorem ofText_encode_of_decode {text : String} {bytes : Bytes} (h : decode text = .ok bytes) :
    Bytes.ofText (encode bytes) = (Bytes.ofText text).map lower := by
  rw [decode] at h
  split at h
  · cases h
  · next hodd => rw [ofText_encode, digits_of_decodePairs (by omega) h]

/-- Hexadecimal text prints back unless it has a capital digit. -/
theorem encode_eq_iff {text : String} {bytes : Bytes} (h : decode text = .ok bytes) :
    encode bytes = text ↔ LowerCase text := by
  have hlower : ∀ byte : UInt8, lower byte = byte ↔ ¬(65 ≤ byte.toNat ∧ byte.toNat ≤ 70) := by
    intro byte
    rw [lower]
    split
    · next hcapital =>
        refine iff_of_false (fun heq => ?_) (not_not.mpr hcapital)
        have hnat := congrArg UInt8.toNat heq
        rw [UInt8.toNat_ofNat_of_lt' (by change _ < 256; omega)] at hnat
        omega
    · next hcapital => exact iff_of_true rfl hcapital
  have htext := ofText_encode_of_decode h
  constructor
  · rintro rfl byte hbyte
    rw [← hlower]
    exact (List.map_inj_left.mp (htext.symm.trans (List.map_id _).symm)) byte hbyte
  · intro hcase
    refine Bytes.ofText_injective (htext.trans ?_)
    calc (Bytes.ofText text).map lower
        = (Bytes.ofText text).map id :=
          List.map_congr_left fun byte hbyte => (hlower byte).mpr (hcase byte hbyte)
      _ = Bytes.ofText text := List.map_id _

end Hex

/-! ### Object names -/

namespace ObjectId

/-- The digits of an object name are 40. -/
theorem length_ofText_hex (id : ObjectId) : (Bytes.ofText id.hex).length = 40 := by
  rw [hex, Hex.length_ofText_encode, bytes, id.value.length_eq]

/-- The length of a text in UTF-8. -/
theorem utf8ByteSize_eq (text : String) : text.utf8ByteSize = (Bytes.ofText text).length := rfl

/-- The name of an object is read back. -/
theorem ofText_hex (id : ObjectId) : ofText id.hex = .ok id := by
  have hvalue : FixedBytes.ofBytes? id.bytes = some id.value :=
    FixedBytes.ofBytes?_eq_some_iff.mpr rfl
  rw [ofText, utf8ByteSize_eq, length_ofText_hex, hex, Hex.decode_encode]
  simp only [ne_eq, not_true_eq_false, if_false, ofBytes, hvalue]

/-- A text that names an object is its name up to letter case. -/
theorem hex_eq_iff {text : String} {id : ObjectId} (h : ofText text = .ok id) :
    id.hex = text ↔ LowerCase text := by
  rw [ofText] at h
  split at h
  · cases h
  · split at h
    · cases h
    · next bytes hdecode =>
        rw [ofBytes] at h
        split at h
        · next value hvalue =>
            cases h
            rw [← Hex.encode_eq_iff hdecode, ← FixedBytes.ofBytes?_eq_some_iff.mp hvalue]
            rfl
        · cases h

end ObjectId

/-! ### Ref names -/

namespace RefName

/-- A text with a directory in front of it. -/
theorem toList_eq_append {text directory : String} {rest : List Char}
    (h : directory.toList.isPrefixOf? text.toList = some rest) :
    text = directory ++ String.ofList rest := by
  rw [← String.toList_inj, String.toList_append, String.toList_ofList]
  exact (List.isPrefixOf?_eq_some_iff_append_eq.mp h).symm

/-- A directory is taken off the front of a text. -/
theorem isPrefixOf?_append (directory text : String) :
    directory.toList.isPrefixOf? (directory ++ text).toList = some text.toList := by
  rw [List.isPrefixOf?_eq_some_iff_append_eq, String.toList_append]

/-- No patch stands among the branches. -/
theorem isPrefixOf?_patches (text : String) :
    headsDirectory.toList.isPrefixOf? (patchesDirectory ++ text).toList = none := by
  rw [String.toList_append]
  rfl

/-- No branch stands among the patches. -/
theorem isPrefixOf?_heads (text : String) :
    patchesDirectory.toList.isPrefixOf? (headsDirectory ++ text).toList = none := by
  rw [String.toList_append]
  rfl

/-- A name of the layout is read back from its text. -/
theorem ofText_text (name : RefName) : ofText name.text = .ok name := by
  cases name with
  | head branch =>
      have hbranch : BranchName.ofText branch.text = .ok branch :=
        BranchName.ofText_eq_ok_iff.mpr rfl
      rw [text, ofText, isPrefixOf?_append]
      simp only [String.ofList_toList, hbranch]
      rfl
  | identityDocument => decide
  | signedRefs => decide
  | patch id =>
      rw [text, ofText, isPrefixOf?_patches, isPrefixOf?_append]
      simp only [String.ofList_toList, ObjectId.ofText_hex]

/-- Branch names are bounded. -/
theorem utf8ByteSize_branch_le (branch : BranchName) :
    branch.text.utf8ByteSize ≤ BranchName.maxLength := by
  have hvalid := branch.valid
  rw [BranchName.fault?] at hvalid
  refine Nat.le_of_not_lt fun hlong => ?_
  simp only [hlong, if_true] at hvalid
  split at hvalid <;> cases hvalid

/-- The names of refs are bounded. -/
theorem length_ofText_text_le (name : RefName) : (Bytes.ofText name.text).length ≤ 266 := by
  cases name with
  | head branch =>
      have hdirectory : (Bytes.ofText headsDirectory).length = 11 := by decide
      have hbranch : (Bytes.ofText branch.text).length ≤ 255 := utf8ByteSize_branch_le branch
      rw [text, Bytes.ofText_append, List.length_append, hdirectory]
      omega
  | identityDocument => decide
  | signedRefs => decide
  | patch id =>
      have hdirectory : (Bytes.ofText patchesDirectory).length = 13 := by decide
      rw [text, Bytes.ofText_append, List.length_append, hdirectory, ObjectId.length_ofText_hex]
      omega

/-- No two refs have the same text. -/
theorem text_injective {a b : RefName} (h : a.text = b.text) : a = b := by
  have ha := ofText_text a
  rw [h, ofText_text b] at ha
  exact (Except.ok.inj ha).symm

/-- A directory that cannot be taken off is not in front. -/
theorem not_prefix_of_isPrefixOf? {directory text : List Char}
    (h : directory.isPrefixOf? text = none) : ¬directory <+: text := by
  rintro ⟨rest, hrest⟩
  rw [List.isPrefixOf?_eq_some_iff_append_eq.mpr hrest] at h
  cases h

/-- The text of a patch prints back if its id does. -/
theorem text_patch_eq_iff {text : String} {id : ObjectId} (h : ObjectId.ofText text = .ok id) :
    (RefName.patch id).text = patchesDirectory ++ text ↔ LowerCase (patchesDirectory ++ text) := by
  have hdirectory : LowerCase patchesDirectory := by decide +kernel
  have hcase : LowerCase (patchesDirectory ++ text) ↔ LowerCase text := by
    simp only [LowerCase, Bytes.ofText_append, List.forall_mem_append]
    exact and_iff_right hdirectory
  rw [hcase, ← ObjectId.hex_eq_iff h, RefName.text, ← String.toList_inj, ← String.toList_inj,
    String.toList_append, String.toList_append, List.append_cancel_left_eq]

/-- A text prints back unless it is that of a patch with a capital digit in its id. -/
theorem text_eq_iff {text : String} {name : RefName} (h : ofText text = .ok name) :
    name.text = text ↔ (patchesDirectory.toList <+: text.toList → LowerCase text) := by
  rw [ofText] at h
  split at h
  · next rest hrest =>
      obtain rfl := toList_eq_append hrest
      refine iff_of_true ?_ fun hpatch =>
        (not_prefix_of_isPrefixOf? (isPrefixOf?_heads _) hpatch).elim
      cases hbranch : BranchName.ofText (String.ofList rest) with
      | error error =>
          rw [hbranch] at h
          cases h
      | ok branch =>
          rw [hbranch] at h
          cases h
          rw [RefName.text, BranchName.ofText_eq_ok_iff.mp hbranch]
  · split at h
    · next rest hrest =>
        obtain rfl := toList_eq_append hrest
        split at h
        · next id hid =>
            cases h
            have hprefix : patchesDirectory.toList <+:
                (patchesDirectory ++ String.ofList rest).toList := by
              rw [String.toList_append]
              exact List.prefix_append _ _
            rw [forall_prop_of_true hprefix]
            exact text_patch_eq_iff hid
        · cases h
    · next hnone =>
        refine iff_of_true ?_ fun hpatch => (not_prefix_of_isPrefixOf? hnone hpatch).elim
        split at h
        · next htext =>
            cases h
            exact htext.symm
        · split at h
          · next htext =>
              cases h
              exact htext.symm
          · cases h

end RefName

/-! ### Refs of an identity -/

/-- An identity is read from its text exactly if it names a public key. -/
theorem PeerId.ofText_hex (id : PeerId) : PeerId.ofText id.hex =
    if id.isPublicKey = true then .ok id else .error (.notPublicKey id.hex) := by
  have hkey : FixedBytes.ofBytes? id.bytes = some id.key := FixedBytes.ofBytes?_eq_some_iff.mpr rfl
  rw [ofText, hex, Hex.decode_encode]
  simp only [hkey]

/-- There are only digits in hexadecimal text. -/
theorem Hex.not_mem_digits {c : Char} (hc : ∀ value < 16, digit value ≠ c) (bytes : Bytes) :
    c ∉ digits bytes := by
  intro h
  obtain ⟨byte, -, hdigit⟩ := List.mem_flatMap.mp h
  have hbyte := byte.toNat_lt
  simp only [List.mem_cons, List.not_mem_nil, or_false] at hdigit
  rcases hdigit with hhigh | hlow
  · exact hc _ (by omega) hhigh.symm
  · exact hc _ (by omega) hlow.symm

namespace NamespacedRef

/-- A text is split at its first slash. -/
theorem splitSlash?_append {before after : List Char} (h : '/' ∉ before) :
    splitSlash? (before ++ '/' :: after) = some (before, after) := by
  induction before with
  | nil => rfl
  | cons c before ih =>
      rw [List.mem_cons, not_or] at h
      rw [List.cons_append, splitSlash?, if_neg (Ne.symm h.1), ih h.2]
      rfl

/-- A ref of an identity is read back from its text exactly if the identity is. -/
theorem ofText_text_eq_ok_iff (ref : NamespacedRef) :
    ofText ref.text = .ok ref ↔ ref.identity.isPublicKey = true := by
  have htext : ref.text.toList = ref.identity.hex.toList ++ '/' :: ref.name.text.toList := by
    rw [text, String.toList_append, String.toList_append, List.append_assoc]
    rfl
  have hslash : '/' ∉ ref.identity.hex.toList := by
    rw [PeerId.hex, Hex.encode, String.toList_ofList]
    exact Hex.not_mem_digits (by decide) _
  rw [ofText, htext, splitSlash?_append hslash]
  simp only [String.ofList_toList, PeerId.ofText_hex, RefName.ofText_text]
  split
  · next hkey => exact iff_of_true rfl hkey
  · next hkey => exact iff_of_false (by rintro ⟨⟩) hkey

end NamespacedRef

end SignedRefs
