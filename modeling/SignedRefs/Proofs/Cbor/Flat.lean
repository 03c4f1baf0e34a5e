import SignedRefs.Proofs.Cbor.Record
import SignedRefs.Proofs.Cbor.RoundTrip

/-!
# Flat Records

A record is flat if nothing in it has parts of its own. Then its keys have different forms because
they are different, and all that writing and reading can do to the record is to put its entries in
another order. The fields do not depend on that.

## Main results

* `Flat.exists_decode`: a flat record is read back up to the order of its entries.
* `Flat.holds_of_perm`: in any order it has its own fields.
* `Flat.perm_of_subset`: a map with the entries and the keys of a record is the record.
-/

namespace SignedRefs.Cbor

/-! ### Leaves -/

/-- A value that has a form and no parts. -/
def IsLeaf (value : Value) : Prop := Fits 0 value ∧ HasForm value

/-- A number is a leaf. -/
theorem isLeaf_unsigned (n : UInt64) : IsLeaf (.unsigned n) := ⟨trivial, _, rfl⟩

/-- Null is a leaf. -/
theorem isLeaf_null : IsLeaf .null := ⟨trivial, _, rfl⟩

/-- A byte string whose length fits into a head is a leaf. -/
theorem isLeaf_bytes {n : Nat} (value : FixedBytes n) (h : n < UInt64.size) :
    IsLeaf (.bytes value.bytes) := by
  refine ⟨?_, _, rfl⟩
  rwa [Fits, value.length_eq]

/-- A text whose length fits into a head is a leaf. -/
theorem isLeaf_text {text : String} (h : text.utf8ByteSize < UInt64.size) : IsLeaf (.text text) :=
  ⟨h, _, rfl⟩

/-- A signed number is a leaf. -/
theorem isLeaf_ofInt64 (n : Int64) : IsLeaf (.ofInt64 n) := by
  obtain ⟨m, hm⟩ | ⟨m, hm⟩ := Value.ofInt64_cases n
  · rw [hm]
    exact ⟨trivial, _, rfl⟩
  · rw [hm]
    exact ⟨trivial, _, rfl⟩

namespace IsLeaf

variable {value value' : Value}

/-- There is nothing to sort in a leaf. -/
theorem sort_eq (h : IsLeaf value) : sort value = value := by
  obtain ⟨hfits, -⟩ := h
  cases value with
  | array items => exact hfits.elim
  | map entries => exact hfits.elim
  | _ => rfl

/-- A leaf fits at every depth, since nothing is nested in it. -/
theorem fits (h : IsLeaf value) (depth : Nat) : Fits depth value := by
  obtain ⟨hfits, -⟩ := h
  cases value with
  | array items => exact hfits.elim
  | map entries => exact hfits.elim
  | bytes content => cases depth <;> exact hfits
  | text content => cases depth <;> exact hfits
  | _ => cases depth <;> trivial

/-- No two leaves have the same form. -/
theorem eq_of_form_eq (h : IsLeaf value) (h' : IsLeaf value') (heq : form value = form value') :
    value = value' := by
  rw [← h.sort_eq, ← h'.sort_eq]
  exact sort_eq_of_form_eq h.1 h'.1 h.2 h'.2 heq

end IsLeaf

/-! ### Records -/

/-- The entries of a record that is flat. -/
structure Flat (entries : List (Value × Value)) : Prop where
  /-- Their keys are numbers. -/
  keys : ∀ e ∈ entries, ∃ key, e.1 = .unsigned key
  /-- No two keys are equal. -/
  nodup : (entries.map Prod.fst).Nodup
  /-- Their values are leaves. -/
  leaves : ∀ e ∈ entries, IsLeaf e.2

namespace Flat

variable {record entries : List (Value × Value)}

/-- The keys of a flat record are leaves. -/
theorem isLeaf_key (h : Flat record) {e : Value × Value} (he : e ∈ record) : IsLeaf e.1 := by
  obtain ⟨key, hkey⟩ := h.keys e he
  exact hkey ▸ isLeaf_unsigned key

/-- A record stays flat with one entry more. -/
theorem cons (h : Flat record) {key : UInt64} {value : Value}
    (hkey : .unsigned key ∉ record.map Prod.fst) (hvalue : IsLeaf value) :
    Flat (Value.entry key value :: record) :=
  ⟨List.forall_mem_cons.mpr ⟨⟨key, rfl⟩, h.keys⟩, List.nodup_cons.mpr ⟨hkey, h.nodup⟩,
    List.forall_mem_cons.mpr ⟨hvalue, h.leaves⟩⟩

/-- No two keys of a flat record are written alike. -/
theorem nodup_forms (h : Flat record) : (record.map fun e => form e.1).Nodup := by
  have hforms : ((record.map Prod.fst).map form).Nodup := h.nodup.map_on fun k hk l hl heq => by
    obtain ⟨e, he, rfl⟩ := List.mem_map.mp hk
    obtain ⟨e', he', rfl⟩ := List.mem_map.mp hl
    exact (h.isLeaf_key he).eq_of_form_eq (h.isLeaf_key he') heq
  rwa [List.map_map] at hforms

/-- A flat record can be written. -/
theorem hasForm (h : Flat record) : HasForm (.map record) :=
  ⟨_, encode_map_eq_ok_iff.mpr
    ⟨fun e he => ⟨(h.isLeaf_key he).2, (h.leaves e he).2⟩, h.nodup_forms, rfl⟩⟩

/-- A flat record is read back, its entries in the order in which they were written. -/
theorem exists_decode (h : Flat record) (hlength : record.length < UInt64.size) :
    ∃ entries, entries.Perm record ∧ decode (form (.map record)) = .ok (.map entries) := by
  have hfits : Fits maxDepth (.map record) :=
    ⟨hlength, fun e he => ⟨(h.isLeaf_key he).fits _, (h.leaves e he).fits _⟩⟩
  have hperm := inOrder_perm h.nodup_forms
  have hsort : sort (.map record) = .map (inOrder record) := by
    rw [sort_map h.nodup_forms]
    congr 1
    refine (List.map_congr_left fun e he => ?_).trans (List.map_id _)
    have hmem := hperm.mem_iff.mp he
    rw [(h.isLeaf_key hmem).sort_eq, (h.leaves e hmem).sort_eq, id]
  exact ⟨inOrder record, hperm, hsort ▸ decode_of_encode hfits h.hasForm.encode_eq⟩

/-- In any order, a flat record has its own fields. -/
theorem holds_of_perm (h : Flat record) (hperm : entries.Perm record) (name : String) :
    (Fields.mk name entries).Holds record := by
  have hnodup : (entries.map Prod.fst).Nodup := (hperm.map _).nodup_iff.mpr h.nodup
  rintro ⟨_, value⟩ he
  obtain ⟨key, rfl⟩ := h.keys _ he
  exact ⟨key, rfl, (Fields.get?_eq_some_iff hnodup).mpr (hperm.mem_iff.mpr he)⟩

/-- A map with the entries and the keys of a record is the record. -/
theorem perm_of_subset (h : Flat record) (hentries : (entries.map Prod.fst).Nodup)
    (hsub : record ⊆ entries) (hkeys : ∀ e ∈ entries, e.1 ∈ record.map Prod.fst) :
    entries.Perm record := by
  refine (List.perm_ext_iff_of_nodup (.of_map _ hentries) (.of_map _ h.nodup)).mpr
    fun e => ⟨fun he => ?_, fun he => hsub he⟩
  obtain ⟨e', he', hkey⟩ := List.mem_map.mp (hkeys e he)
  exact List.inj_on_of_nodup_map hentries (hsub he') he hkey ▸ he'

end Flat

/-- No two keys of a map that can be read are equal. -/
theorem nodup_keys_of_decode {entries : List (Value × Value)} {bytes : Bytes}
    (h : decode bytes = .ok (.map entries)) : (entries.map Prod.fst).Nodup := by
  obtain ⟨-, hforms, -⟩ := encode_map_eq_ok_iff.mp (encode_of_decode h)
  refine List.Nodup.of_map form ?_
  rwa [List.map_map]

end SignedRefs.Cbor
