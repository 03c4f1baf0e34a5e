import Mathlib.Data.List.Nodup
import SignedRefs.Cbor.Fields
import SignedRefs.Proofs.Fallible

/-!
# Fields of Records

A field is the value of the first entry with its key. It is read as a value of the type that the
record calls for.

## Main results

* `Fields.get?_eq_some_iff`, `Fields.get?_eq_none_iff`: which fields there are.
* `Fields.unsigned_eq_ok_iff`, `Fields.signed_eq_ok_iff`, `Fields.bytes_eq_ok_iff`,
  `Fields.text_eq_ok_iff`, `Fields.map_eq_ok_iff`: typed access.
* `Fields.bytes?_eq_ok_some_iff`, `Fields.bytes?_eq_ok_none_iff`: access to what may be left out.
* `Fields.Holds`: all the fields that a record calls for.
-/

namespace SignedRefs.Cbor

/-! ### Numbers with a sign -/

namespace Value

variable {n : Int64} {m : UInt64}

/-- A signed number is written without a sign if it is that number. -/
theorem ofInt64_eq_unsigned_iff : ofInt64 n = .unsigned m ↔ n.toInt = m.toNat := by
  have hlt := n.toInt_lt
  have hm := m.toNat_lt
  rw [ofInt64]
  split
  · next hn =>
      rw [unsigned.injEq, ← UInt64.toNat_inj,
        UInt64.toNat_ofNat_of_lt' (show n.toInt.toNat < UInt64.size by
          simp only [UInt64.size]; omega)]
      omega
  · next hn =>
      refine iff_of_false (fun h => by cases h) ?_
      omega

/-- A signed number is written as negative if it is the one below zero that is meant. -/
theorem ofInt64_eq_negative_iff : ofInt64 n = .negative m ↔ n.toInt = -1 - m.toNat := by
  have hle := n.le_toInt
  have hm := m.toNat_lt
  rw [ofInt64]
  split
  · next hn =>
      refine iff_of_false (fun h => by cases h) ?_
      omega
  · next hn =>
      rw [negative.injEq, ← UInt64.toNat_inj,
        UInt64.toNat_ofNat_of_lt' (show (-1 - n.toInt).toNat < UInt64.size by
          simp only [UInt64.size]; omega)]
      omega

/-- A number with a sign is a number in either form. -/
theorem ofInt64_cases (n : Int64) :
    (∃ m, ofInt64 n = .unsigned m) ∨ ∃ m, ofInt64 n = .negative m := by
  rw [ofInt64]
  split
  · exact .inl ⟨_, rfl⟩
  · exact .inr ⟨_, rfl⟩

end Value

/-! ### Fields -/

namespace Fields

variable {fields : Fields} {key : UInt64} {field : String}

/-- A value is a key exactly if it is that number. -/
theorem isKey_iff {value : Value} : isKey key value = true ↔ value = .unsigned key := by
  cases value <;> simp [isKey]

/-- A field has an entry. -/
theorem mem_of_get? {value : Value} (h : fields.get? key = some value) :
    (.unsigned key, value) ∈ fields.entries := by
  obtain ⟨⟨k, v⟩, hfind, rfl⟩ := Option.map_eq_some_iff.mp h
  have hkey := isKey_iff.mp (List.find?_some (p := fun e : Value × Value => isKey key e.1) hfind)
  exact hkey ▸ List.mem_of_find?_eq_some hfind

/-- If no two keys are equal, the fields are the entries whose keys are numbers. -/
theorem get?_eq_some_iff (h : (fields.entries.map Prod.fst).Nodup) {value : Value} :
    fields.get? key = some value ↔ Value.entry key value ∈ fields.entries := by
  refine ⟨mem_of_get?, fun hmem => ?_⟩
  obtain ⟨e, hfind⟩ := Option.isSome_iff_exists.mp (List.find?_isSome.mpr
    ⟨_, hmem, isKey_iff.mpr rfl⟩ : (fields.entries.find? fun e => isKey key e.1).isSome)
  have hkey := isKey_iff.mp (List.find?_some (p := fun e : Value × Value => isKey key e.1) hfind)
  rw [get?, hfind, List.inj_on_of_nodup_map h (List.mem_of_find?_eq_some hfind) hmem hkey]
  rfl

/-- A field is missing exactly if no entry has its key. -/
theorem get?_eq_none_iff :
    fields.get? key = none ↔ ∀ value, Value.entry key value ∉ fields.entries := by
  simp only [get?, Option.map_eq_none_iff, List.find?_eq_none, isKey_iff]
  refine ⟨fun h value hmem => h _ hmem rfl, fun h e hmem heq => h e.2 ?_⟩
  rwa [Value.entry, ← heq]

/-- A number is read from a field exactly if the field holds it. -/
theorem unsigned_eq_ok_iff {n : UInt64} :
    fields.unsigned key field = .ok n ↔ fields.get? key = some (.unsigned n) := by
  rw [unsigned]
  cases fields.get? key with
  | none => simp [invalid]
  | some value => cases value <;> simp [invalid]

/-- Bytes of some length are read from a field exactly if the field holds them. -/
theorem bytes_eq_ok_iff {n : Nat} {value : FixedBytes n} :
    fields.bytes n key field = .ok value ↔ fields.get? key = some (.bytes value.bytes) := by
  rw [bytes]
  cases fields.get? key with
  | none => simp [invalid]
  | some found =>
      cases found with
      | bytes content =>
          simp only [Option.some.injEq, Value.bytes.injEq]
          cases hvalue : FixedBytes.ofBytes? (n := n) content with
          | none =>
              refine iff_of_false (fun h => by cases h) fun heq => ?_
              rw [FixedBytes.ofBytes?_eq_some_iff.mpr heq.symm] at hvalue
              cases hvalue
          | some value' =>
              have hcontent := FixedBytes.ofBytes?_eq_some_iff.mp hvalue
              simp only [Except.ok.injEq]
              constructor
              · rintro rfl
                exact hcontent.symm
              · intro heq
                exact FixedBytes.ext (hcontent.trans heq)
      | _ => simp [invalid]

/-- A text is read from a field exactly if the field holds it. -/
theorem text_eq_ok_iff {value : String} :
    fields.text key field = .ok value ↔ fields.get? key = some (.text value) := by
  rw [text]
  cases fields.get? key with
  | none => simp [invalid]
  | some found => cases found <;> simp [invalid]

/-- A signed number is read from a field exactly if the field holds it. -/
theorem signed_eq_ok_iff {n : Int64} :
    fields.signed key field = .ok n ↔ fields.get? key = some (.ofInt64 n) := by
  have hlt := n.toInt_lt
  have hle := n.le_toInt
  have hhalf : UInt64.size / 2 = 2 ^ 63 := rfl
  rw [signed]
  cases fields.get? key with
  | none => simp [invalid]
  | some value =>
      rw [Option.some.injEq, eq_comm (a := value)]
      cases value with
      | unsigned m =>
          rw [Value.ofInt64_eq_unsigned_iff]
          by_cases hm : m.toNat < UInt64.size / 2
          · simp only [hm, if_true, Except.ok.injEq]
            rw [← Int64.toInt_inj, Int64.toInt_ofInt_of_le (by omega) (by omega), eq_comm]
          · simp only [hm, if_false]
            exact iff_of_false (fun h => by cases h) (by omega)
      | negative m =>
          rw [Value.ofInt64_eq_negative_iff]
          by_cases hm : m.toNat < UInt64.size / 2
          · simp only [hm, if_true, Except.ok.injEq]
            rw [← Int64.toInt_inj, Int64.toInt_ofInt_of_le (by omega) (by omega), eq_comm]
          · simp only [hm, if_false]
            exact iff_of_false (fun h => by cases h) (by omega)
      | _ =>
          refine iff_of_false (fun h => by cases h) fun h => ?_
          obtain ⟨m, hm⟩ | ⟨m, hm⟩ := Value.ofInt64_cases n
          · cases hm.symm.trans h
          · cases hm.symm.trans h

/-- A map is read from a field exactly if the field holds it. -/
theorem map_eq_ok_iff {entries : List (Value × Value)} :
    fields.map key field = .ok entries ↔ fields.get? key = some (.map entries) := by
  rw [map]
  cases fields.get? key with
  | none => simp [invalid]
  | some value => cases value <;> simp [invalid]

/-! ### Fields that may be left out -/

/-- Optional bytes are read from a field exactly if the field holds them. -/
theorem bytes?_eq_ok_some_iff {n : Nat} {value : FixedBytes n} :
    fields.bytes? n key field = .ok (some value) ↔
      fields.get? key = some (.bytes value.bytes) := by
  rw [bytes?]
  split
  · next h => simp [h]
  · next h => simp [h]
  · simp only [SignedRefs.map_eq_ok_iff, bytes_eq_ok_iff, Option.some.injEq, exists_eq_right]

/-- A field that may be left out is not there if it is left out or null. -/
theorem bytes?_eq_ok_none_iff {n : Nat} :
    fields.bytes? n key field = .ok none ↔
      fields.get? key = none ∨ fields.get? key = some .null := by
  rw [bytes?]
  split
  · next h => simp [h]
  · next h => simp [h]
  · next value hnull h =>
      rw [SignedRefs.map_eq_ok_iff, h]
      simpa using hnull

/-! ### Several fields -/

/-- The fields are those of a record, as far as it has some. -/
def Holds (fields : Fields) (record : List (Value × Value)) : Prop :=
  ∀ e ∈ record, ∃ key, e.1 = .unsigned key ∧ fields.get? key = some e.2

variable {record record' : List (Value × Value)}

/-- Every record holds no entries at all. -/
@[simp]
theorem holds_nil : fields.Holds [] := fun _ he => nomatch he

/-- A record holds an entry and others if the field has the value and the others are held. -/
@[simp]
theorem holds_cons_entry {value : Value} :
    fields.Holds (Value.entry key value :: record) ↔
      fields.get? key = some value ∧ fields.Holds record := by
  simp only [Holds, List.forall_mem_cons, Value.entry, Value.unsigned.injEq, exists_eq_left']

/-- A record holds two lists of entries exactly if it holds both. -/
@[simp]
theorem holds_append :
    fields.Holds (record ++ record') ↔ fields.Holds record ∧ fields.Holds record' :=
  List.forall_mem_append

/-- Every field has an entry. -/
theorem Holds.subset (h : fields.Holds record) : record ⊆ fields.entries := by
  rintro ⟨_, value⟩ he
  obtain ⟨key, rfl, hget⟩ := h _ he
  exact mem_of_get? hget

end Fields

end SignedRefs.Cbor
