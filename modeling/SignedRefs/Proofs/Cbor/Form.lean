import SignedRefs.Cbor.Encode
import SignedRefs.Proofs.Entries
import SignedRefs.Proofs.Fallible

/-!
# Canonical Forms

What `encode` does, said without its accumulators. A value has a form if no float, no tag and no
map with equal keys is in it. The form of an array is that of its items in order; the form of a map
is that of its entries in the order of the forms of their keys (`inOrder`), and so does not depend
on the order in which they are given.

## Main results

* `encode_array_eq_ok_iff`, `encode_map_eq_ok_iff`: the forms of arrays and maps.
* `encode_map_of_perm`, `encode_map_congr`: what the form of a map depends on.
-/

namespace SignedRefs

namespace Cbor

/-! ### Forms -/

/-- A value has a canonical form. -/
def HasForm (value : Value) : Prop := ∃ bytes, encode value = .ok bytes

/-- The canonical form of a value that has one. -/
def form (value : Value) : Bytes :=
  match encode value with
  | .ok bytes => bytes
  | .error _ => []

/-- The form of a value is what it is written as. -/
theorem form_eq {value : Value} {bytes : Bytes} (h : encode value = .ok bytes) :
    form value = bytes := by
  rw [form, h]

/-- A value that has a form is written in it. -/
theorem HasForm.encode_eq {value : Value} (h : HasForm value) :
    encode value = .ok (form value) := by
  obtain ⟨bytes, hbytes⟩ := h
  rw [hbytes, form_eq hbytes]

/-- Items can be written exactly if each of them can, and their forms are put behind what is there
already. -/
theorem encodeItems_eq_ok_iff {items : List Value} {done parts : List Bytes} :
    encodeItems items done = .ok parts ↔
      (∀ item ∈ items, HasForm item) ∧ parts = done.reverse ++ items.map form := by
  induction items generalizing done with
  | nil =>
      rw [encodeItems, Except.ok.injEq]
      simp [eq_comm]
  | cons item items ih =>
      rw [encodeItems]
      cases hitem : encode item with
      | error fault =>
          constructor
          · intro h
            cases h
          · rintro ⟨hall, -⟩
            obtain ⟨bytes, hbytes⟩ := hall item List.mem_cons_self
            rw [hitem] at hbytes
            cases hbytes
      | ok bytes =>
          have hhas : HasForm item := ⟨bytes, hitem⟩
          simp only [ih, List.forall_mem_cons, hhas, true_and, List.map_cons, form_eq hitem,
            List.reverse_cons, List.append_assoc, List.singleton_append]

/-- An array has a form if its items have. -/
theorem encode_array_eq_ok_iff {items : List Value} {bytes : Bytes} :
    encode (.array items) = .ok bytes ↔
      (∀ item ∈ items, HasForm item) ∧
        bytes = writeHead .array items.length ++ (items.map form).flatten := by
  rw [encode]
  cases hitems : encodeItems items [] with
  | error fault =>
      constructor
      · intro h
        cases h
      · rintro ⟨hall, -⟩
        rw [encodeItems_eq_ok_iff.mpr ⟨hall, rfl⟩] at hitems
        cases hitems
  | ok parts =>
      obtain ⟨hall, rfl⟩ := encodeItems_eq_ok_iff.mp hitems
      simp only [Except.ok.injEq, List.reverse_nil, List.nil_append, eq_comm (a := bytes)]
      exact (and_iff_right hall).symm

/-! ### Maps -/

/-- The entries are written one by one, faults included, and put behind what is there already. -/
theorem encodeEntries_eq {entries : List (Value × Value)}
    {done : List (Except EncodeFault Bytes × Except EncodeFault Bytes)} :
    encodeEntries entries done =
      done.reverse ++ entries.map fun e => (encode e.1, encode e.2) := by
  induction entries generalizing done with
  | nil => simp [encodeEntries]
  | cons e entries ih =>
      obtain ⟨key, value⟩ := e
      rw [encodeEntries, ih]
      simp

/-- A map is assembled from what its keys and values are written as. -/
theorem encode_map (entries : List (Value × Value)) :
    encode (.map entries) = assembleMap (entries.map fun e => (encode e.1, encode e.2)) := by
  rw [encode, encodeEntries_eq, List.reverse_nil, List.nil_append]

/-- The form of a map depends on the forms of its keys and values only. -/
theorem encode_map_congr {entries entries' : List (Value × Value)}
    (h : List.Forall₂ (fun e e' => encode e.1 = encode e'.1 ∧ encode e.2 = encode e'.2)
      entries entries') : encode (.map entries) = encode (.map entries') := by
  rw [encode_map, encode_map]
  congr 1
  induction h with
  | nil => rfl
  | cons hab _ ih => rw [List.map_cons, List.map_cons, hab.1, hab.2, ih]

/-- The entries of a map in the order of the forms of their keys. -/
def inOrder (entries : List (Value × Value)) : List (Value × Value) :=
  (SortedMap.ofList (entries.map fun e => (form e.1, e))).values

/-- Takes the form of the key out of the forms of an entry. -/
private def takeKey (part : Except EncodeFault Bytes × Except EncodeFault Bytes) :
    Except EncodeFault (Bytes × Except EncodeFault Bytes) := do
  return (← part.1, part.2)

/-- Puts the form of the value behind that of the key. -/
private def join (part : Bytes × Except EncodeFault Bytes) : Except EncodeFault Bytes := do
  return part.1 ++ (← part.2)

/-- The key of a part can be taken if it was written. -/
private theorem takeKey_eq_ok_iff {part : Except EncodeFault Bytes × Except EncodeFault Bytes}
    {out : Bytes × Except EncodeFault Bytes} :
    takeKey part = .ok out ↔ ∃ key, part.1 = .ok key ∧ out = (key, part.2) := by
  obtain ⟨_ | key, value⟩ := part
  · constructor
    · intro h
      cases h
    · rintro ⟨key, h, -⟩
      cases h
  · constructor
    · intro h
      cases h
      exact ⟨key, rfl, rfl⟩
    · rintro ⟨_, ⟨⟩, rfl⟩
      rfl

/-- A key and what belongs to it can be joined if the value was written. -/
private theorem join_eq_ok_iff {part : Bytes × Except EncodeFault Bytes} {out : Bytes} :
    join part = .ok out ↔ ∃ value, part.2 = .ok value ∧ out = part.1 ++ value := by
  obtain ⟨key, _ | value⟩ := part
  · constructor
    · intro h
      cases h
    · rintro ⟨value, h, -⟩
      cases h
  · constructor
    · intro h
      cases h
      exact ⟨value, rfl, rfl⟩
    · rintro ⟨_, ⟨⟩, rfl⟩
      rfl

/-- How a map is put together: the forms of its keys first, which have to differ, then those of its
values. -/
private theorem assembleMap_eq_ok_iff
    {parts : List (Except EncodeFault Bytes × Except EncodeFault Bytes)} {bytes : Bytes} :
    assembleMap parts = .ok bytes ↔ ∃ keys entries, parts.mapM takeKey = .ok keys ∧
      ¬(SortedMap.ofList keys).size < keys.length ∧
        (SortedMap.ofList keys).entries.mapM join = .ok entries ∧
          bytes = writeHead .map keys.length ++ entries.flatten := by
  have hunfold : assembleMap parts = (parts.mapM takeKey >>= fun keys =>
      if (SortedMap.ofList keys).size < keys.length then .error .duplicateKey
      else (SortedMap.ofList keys).entries.mapM join >>= fun entries =>
        .ok (writeHead .map keys.length ++ entries.flatten)) := by
    rw [assembleMap]
    refine congrArg (parts.mapM takeKey >>= ·) ?_
    funext keys
    by_cases hsize : (SortedMap.ofList keys).size < keys.length
    · simp only [hsize, if_true]
      rfl
    · simp only [hsize, if_false]
      rfl
  rw [hunfold]
  cases hkeys : parts.mapM takeKey with
  | error fault =>
      constructor
      · intro h
        cases h
      · rintro ⟨keys, entries, h, -⟩
        cases h
  | ok keys =>
      simp only [Except.ok.injEq, exists_and_left, exists_eq_left', bind, Except.bind]
      by_cases hsize : (SortedMap.ofList keys).size < keys.length
      · simp [hsize]
      · cases hentries : (SortedMap.ofList keys).entries.mapM join with
        | error fault => simp [hsize]
        | ok entries => simp [hsize, eq_comm]

/-- Every entry under the form of its key. -/
private def keyed (entries : List (Value × Value)) : List (Bytes × (Value × Value)) :=
  entries.map fun e => (form e.1, e)

section

variable {entries entries' : List (Value × Value)} {bytes : Bytes}

/-- The forms of the keys are what the entries are keyed by. -/
private theorem keys_keyed : (keyed entries).map Prod.fst = entries.map fun e => form e.1 := by
  rw [keyed, List.map_map]
  rfl

/-- What is keyed are the entries. -/
private theorem values_keyed : (keyed entries).map Prod.snd = entries := by
  rw [keyed, List.map_map]
  exact List.map_id entries

/-- The entries in order are the same ones. -/
theorem inOrder_perm (h : (entries.map fun e => form e.1).Nodup) :
    (inOrder entries).Perm entries := by
  have hperm := (SortedMap.entries_ofList_perm (l := keyed entries) (by rwa [keys_keyed])).map
    Prod.snd
  rwa [values_keyed] at hperm

/-- Entries that are given in order stay as they are. -/
theorem inOrder_of_pairwise (h : entries.Pairwise fun a b => compare (form a.1) (form b.1) = .lt) :
    inOrder entries = entries := by
  have hkeyed : (keyed entries).Pairwise fun a b => compare a.1 b.1 = .lt :=
    List.pairwise_map.mpr h
  have hmap : SortedMap.ofList (keyed entries) = ⟨keyed entries, hkeyed⟩ :=
    SortedMap.ofList_entries ⟨keyed entries, hkeyed⟩
  change (SortedMap.ofList (keyed entries)).values = entries
  rw [hmap]
  exact values_keyed

/-- The order in which entries are given does not matter. -/
theorem inOrder_eq_of_perm (h : (entries.map fun e => form e.1).Nodup)
    (hperm : entries.Perm entries') : inOrder entries = inOrder entries' := by
  have hkeyed : (keyed entries).Perm (keyed entries') := hperm.map _
  rw [inOrder, inOrder]
  change (SortedMap.ofList (keyed entries)).values = (SortedMap.ofList (keyed entries')).values
  rw [SortedMap.ofList_eq_of_perm (by rwa [keys_keyed]) hkeyed]

/-- All keys can be taken exactly if each of them can be written. -/
private theorem mapM_keys {keys : List (Bytes × Except EncodeFault Bytes)} :
    (entries.map fun e => (encode e.1, encode e.2)).mapM takeKey = .ok keys ↔
      (∀ e ∈ entries, HasForm e.1) ∧ keys = entries.map fun e => (form e.1, encode e.2) := by
  rw [List.mapM_map, mapM_eq_ok_iff_map (g := fun e => (form e.1, encode e.2))]
  · simp only [Function.comp, takeKey_eq_ok_iff, HasForm]
    refine and_congr_left fun _ => forall₂_congr fun e _ => ?_
    exact ⟨fun ⟨_, key, hkey, _⟩ => ⟨key, hkey⟩, fun ⟨key, hkey⟩ => ⟨_, key, hkey, rfl⟩⟩
  · intro e key hkey
    obtain ⟨bytes, hbytes, rfl⟩ := takeKey_eq_ok_iff.mp hkey
    rw [form_eq hbytes]

/-- In the order of their keys, all parts can be joined exactly if each value can be written. -/
private theorem mapM_values (h : (entries.map fun e => form e.1).Nodup) {parts : List Bytes} :
    (SortedMap.ofList (entries.map fun e => (form e.1, encode e.2))).entries.mapM join =
        .ok parts ↔
      (∀ e ∈ entries, HasForm e.2) ∧
        parts = (inOrder entries).map fun e => form e.1 ++ form e.2 := by
  have hnodup : ((keyed entries).map Prod.fst).Nodup := by rwa [keys_keyed]
  have hmap : SortedMap.ofList (entries.map fun e => (form e.1, encode e.2)) =
      (SortedMap.ofList (keyed entries)).mapValues fun _ e => encode e.2 := by
    rw [← SortedMap.ofList_map_values hnodup, keyed, List.map_map]
    rfl
  have hmem : ∀ x, x ∈ (SortedMap.ofList (keyed entries)).entries ↔
      x.2 ∈ entries ∧ form x.2.1 = x.1 := fun x => by
    rw [SortedMap.mem_entries_ofList hnodup, keyed, List.mem_map]
    constructor
    · rintro ⟨e, he, rfl⟩
      exact ⟨he, rfl⟩
    · rintro ⟨he, hkey⟩
      exact ⟨x.2, he, by rw [hkey]⟩
  have horder : (inOrder entries).map (fun e => form e.1 ++ form e.2) =
      (SortedMap.ofList (keyed entries)).entries.map fun x => x.1 ++ form x.2.2 := by
    rw [inOrder, SortedMap.values, List.map_map]
    refine List.map_congr_left fun x hx => ?_
    rw [Function.comp, ((hmem x).mp hx).2]
  rw [hmap, SortedMap.mapValues, List.mapM_map,
    mapM_eq_ok_iff_map (g := fun x => x.1 ++ form x.2.2), horder]
  · simp only [Function.comp, join_eq_ok_iff, HasForm]
    refine and_congr_left fun _ => ⟨fun hall e he => ?_, fun hall x hx => ?_⟩
    · obtain ⟨part, value, hvalue, -⟩ := hall (form e.1, e) ((hmem _).mpr ⟨he, rfl⟩)
      exact ⟨value, hvalue⟩
    · obtain ⟨value, hvalue⟩ := hall x.2 ((hmem x).mp hx).1
      exact ⟨_, value, hvalue, rfl⟩
  · intro x part hpart
    obtain ⟨value, hvalue, rfl⟩ := join_eq_ok_iff.mp hpart
    rw [form_eq hvalue]

/-- A map has a form if its keys and values have and no two keys have the same one. -/
theorem encode_map_eq_ok_iff :
    encode (.map entries) = .ok bytes ↔
      (∀ e ∈ entries, HasForm e.1 ∧ HasForm e.2) ∧ (entries.map fun e => form e.1).Nodup ∧
        bytes = writeHead .map entries.length ++
          ((inOrder entries).map fun e => form e.1 ++ form e.2).flatten := by
  have hkeys : ∀ values : Value × Value → Except EncodeFault Bytes,
      (entries.map fun e => (form e.1, values e)).map Prod.fst = entries.map fun e => form e.1 :=
    fun values => by
      rw [List.map_map]
      rfl
  rw [encode_map, assembleMap_eq_ok_iff]
  constructor
  · rintro ⟨keys, parts, hkey, hsize, hparts, rfl⟩
    obtain ⟨hall, rfl⟩ := mapM_keys.mp hkey
    rw [SortedMap.size_ofList_lt_iff, not_not, hkeys] at hsize
    obtain ⟨hall', rfl⟩ := (mapM_values hsize).mp hparts
    rw [List.length_map]
    exact ⟨fun e he => ⟨hall e he, hall' e he⟩, hsize, rfl⟩
  · rintro ⟨hall, hnodup, rfl⟩
    refine ⟨_, _, mapM_keys.mpr ⟨fun e he => (hall e he).1, rfl⟩, ?_,
      (mapM_values hnodup).mpr ⟨fun e he => (hall e he).2, rfl⟩, ?_⟩
    · rwa [SortedMap.size_ofList_lt_iff, not_not, hkeys]
    · rw [List.length_map]

/-- The order in which the entries of a map are given does not matter. -/
theorem encode_map_of_perm (h : encode (.map entries) = .ok bytes)
    (hperm : entries.Perm entries') : encode (.map entries') = .ok bytes := by
  obtain ⟨hall, hnodup, rfl⟩ := encode_map_eq_ok_iff.mp h
  refine encode_map_eq_ok_iff.mpr ⟨fun e he => hall e (hperm.mem_iff.mpr he),
    (hperm.map _).nodup_iff.mp hnodup, ?_⟩
  rw [hperm.length_eq, inOrder_eq_of_perm hnodup hperm]

end

end Cbor

end SignedRefs
