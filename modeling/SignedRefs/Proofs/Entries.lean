import Mathlib.Data.List.Dedup
import Mathlib.Data.List.Perm.Subperm
import SignedRefs.SortedMap

/-!
# The Entries of a Sorted Map

A sorted map and the list it was made from hold the same entries as long as no key stands twice in
the list, so the order of such a list never matters. This module also counts entries, and says what
the first entry and the entries behind it are.

## Main results

* `entries_ofList_perm`, `ofList_eq_of_perm`: a list without repeated keys and its map.
* `size_ofList_lt_iff`: a key stands twice exactly when the map is smaller than the list.
* `size_insert_of_not_contains`: a new key makes a map larger by one.
* `contains_of_uncons?`, `compare_of_uncons?`: what is taken off the front.
-/

namespace SignedRefs

namespace SortedMap

variable {K V : Type} [Ord K]

/-! ### Keys -/

/-- A key is contained if it has a value. -/
theorem contains_eq_true_iff {m : SortedMap K V} {key : K} :
    m.contains key = true ↔ ∃ value, m.get? key = some value := by
  rw [contains, Option.isSome_iff_exists]

/-- The empty map contains nothing. -/
@[simp] theorem contains_empty (key : K) : (empty : SortedMap K V).contains key = false := rfl

variable [Std.TransOrd K] [Std.LawfulEqOrd K]

omit [Std.TransOrd K] in
/-- No key is listed twice. -/
theorem nodup_keys (m : SortedMap K V) : m.keys.Nodup := by
  rw [keys, List.nodup_iff_pairwise_ne, List.pairwise_map]
  refine m.ascending.imp fun hlt heq => ?_
  simp [heq] at hlt

/-- An insertion adds its key and no other. -/
theorem contains_insert {m : SortedMap K V} {key key' : K} {value : V} :
    (m.insert key value).contains key' = true ↔ key' = key ∨ m.contains key' = true := by
  rw [contains, get?_insert]
  by_cases h : key' = key
  · simp [h]
  · have hc : ¬compare key' key = .eq := fun hc => h (Std.LawfulEqOrd.eq_of_compare hc)
    simp [h, hc, contains]

/-- A new key is one key more. -/
theorem keys_insert_perm {m : SortedMap K V} {key : K} (h : m.contains key = false) (value : V) :
    (m.insert key value).keys.Perm (key :: m.keys) := by
  have hnew : key ∉ m.keys := fun hmem => by
    rw [mem_keys_iff, h] at hmem
    cases hmem
  refine (List.perm_ext_iff_of_nodup (nodup_keys _)
    (List.nodup_cons.mpr ⟨hnew, nodup_keys m⟩)).mpr fun key' => ?_
  rw [mem_keys_iff, contains_insert, List.mem_cons, mem_keys_iff]

/-- An entry under a new key is one entry more. -/
theorem entries_insert_perm {m : SortedMap K V} {key : K} (h : m.contains key = false)
    (value : V) : (m.insert key value).entries.Perm ((key, value) :: m.entries) := by
  have hnew : m.get? key = none := Option.not_isSome_iff_eq_none.mp (Bool.eq_false_iff.mp h)
  have hnodup : ((key, value) :: m.entries).Nodup := by
    refine List.nodup_cons.mpr ⟨fun hmem => ?_, List.Nodup.of_map Prod.fst m.nodup_keys⟩
    rw [mem_entries_iff, hnew] at hmem
    cases hmem
  refine (List.perm_ext_iff_of_nodup (List.Nodup.of_map Prod.fst (nodup_keys _)) hnodup).mpr
    fun ⟨key', value'⟩ => ?_
  rw [List.mem_cons, mem_entries_iff, mem_entries_iff, Prod.mk.injEq]
  by_cases hkey : key' = key
  · subst hkey
    rw [get?_insert_self, hnew]
    simp [eq_comm]
  · rw [get?_insert_of_ne _ hkey]
    simp [hkey]

/-- Inserting an entry that is there changes nothing. -/
theorem insert_of_get? {m : SortedMap K V} {key : K} {value : V} (h : m.get? key = some value) :
    m.insert key value = m := by
  refine ext fun key' => ?_
  by_cases hkey : key' = key
  · rw [hkey, get?_insert_self, h]
  · rw [get?_insert_of_ne _ hkey]

/-- Entries with different keys can be inserted in either order. -/
theorem insert_comm (m : SortedMap K V) {key key' : K} (h : key ≠ key') (value value' : V) :
    (m.insert key value).insert key' value' = (m.insert key' value').insert key value := by
  refine ext fun k => ?_
  by_cases hk : k = key
  · rw [hk, get?_insert_of_ne _ h, get?_insert_self, get?_insert_self]
  · by_cases hk' : k = key'
    · rw [hk', get?_insert_self, get?_insert_of_ne _ h.symm, get?_insert_self]
    · rw [get?_insert_of_ne _ hk', get?_insert_of_ne _ hk, get?_insert_of_ne _ hk,
        get?_insert_of_ne _ hk']

/-- A removed key has no value. -/
theorem get?_erase_self {m : SortedMap K V} {key : K} : (m.erase key).get? key = none := by
  rw [get?_erase, if_pos (Std.LawfulEqOrd.compare_eq_iff_eq.mpr rfl)]

/-- Removing a key leaves the others alone. -/
theorem get?_erase_of_ne {m : SortedMap K V} {key key' : K} (h : key' ≠ key) :
    (m.erase key).get? key' = m.get? key' := by
  rw [get?_erase, if_neg fun heq => h (Std.LawfulEqOrd.eq_of_compare heq).symm]

/-- Two maps together contain what one of them does. -/
theorem contains_merge {m₁ m₂ : SortedMap K V} {key : K} :
    (m₁.merge m₂).contains key = true ↔ m₁.contains key = true ∨ m₂.contains key = true := by
  rw [contains, get?_merge, Option.isSome_or, Bool.or_eq_true, or_comm]
  rfl

/-! ### Maps made of lists -/

/-- The keys of a map made of a list are those of the list. -/
theorem contains_ofList {l : List (K × V)} {key : K} :
    (ofList l).contains key = true ↔ key ∈ l.map Prod.fst := by
  rw [contains, get?_ofList, lastValue?, Option.isSome_map, List.find?_isSome]
  simp only [List.mem_reverse, beq_iff_eq, Std.LawfulEqOrd.compare_eq_iff_eq, List.mem_map]
  exact exists_congr fun e => and_congr_right fun _ => eq_comm

/-- In a list without repeated keys every entry counts. -/
theorem get?_ofList_eq_some_iff {l : List (K × V)} (h : (l.map Prod.fst).Nodup) {key : K}
    {value : V} : (ofList l).get? key = some value ↔ (key, value) ∈ l := by
  rw [get?_ofList, lastValue?, Option.map_eq_some_iff]
  constructor
  · rintro ⟨⟨k, v⟩, hfind, rfl⟩
    have hmem := List.mem_of_find?_eq_some hfind
    have hkey := List.find?_some hfind
    rw [beq_iff_eq, Std.LawfulEqOrd.compare_eq_iff_eq] at hkey
    subst hkey
    exact List.mem_reverse.mp hmem
  · intro hmem
    obtain ⟨⟨k, v⟩, hfind⟩ := Option.isSome_iff_exists.mp
      (List.find?_isSome (p := fun e : K × V => compare key e.1 == .eq).mpr
        ⟨(key, value), List.mem_reverse.mpr hmem, by simp⟩)
    refine ⟨(k, v), hfind, ?_⟩
    have hkey := List.find?_some hfind
    rw [beq_iff_eq, Std.LawfulEqOrd.compare_eq_iff_eq] at hkey
    subst hkey
    have hmem' := List.mem_reverse.mp (List.mem_of_find?_eq_some hfind)
    exact congrArg Prod.snd (List.inj_on_of_nodup_map h hmem' hmem rfl)

/-- A map has the entries of the list that it was made from. -/
theorem mem_entries_ofList {l : List (K × V)} (h : (l.map Prod.fst).Nodup) {e : K × V} :
    e ∈ (ofList l).entries ↔ e ∈ l := by
  obtain ⟨key, value⟩ := e
  rw [mem_entries_iff, get?_ofList_eq_some_iff h]

omit [Std.TransOrd K] in
/-- No entry stands twice. -/
theorem nodup_entries (m : SortedMap K V) : m.entries.Nodup :=
  List.Nodup.of_map Prod.fst m.nodup_keys

/-- The entries of a map are those of the list that it was made from, in another order. -/
theorem entries_ofList_perm {l : List (K × V)} (h : (l.map Prod.fst).Nodup) :
    (ofList l).entries.Perm l :=
  (List.perm_ext_iff_of_nodup (ofList l).nodup_entries (List.Nodup.of_map _ h)).mpr fun _ =>
    mem_entries_ofList h

/-- The order of a list without repeated keys does not matter. -/
theorem ofList_eq_of_perm {l₁ l₂ : List (K × V)} (h : (l₁.map Prod.fst).Nodup)
    (hp : l₁.Perm l₂) : ofList l₁ = ofList l₂ := by
  have h₂ : (l₂.map Prod.fst).Nodup := (hp.map _).nodup_iff.mp h
  refine ext fun key => Option.ext fun value => ?_
  rw [get?_ofList_eq_some_iff h, get?_ofList_eq_some_iff h₂, hp.mem_iff]

/-- Replacing the values before a map is made or afterwards is the same. -/
theorem ofList_map_values {W : Type} {l : List (K × V)} (h : (l.map Prod.fst).Nodup)
    (f : K → V → W) : ofList (l.map fun e => (e.1, f e.1 e.2)) = (ofList l).mapValues f := by
  have h' : ((l.map fun e => (e.1, f e.1 e.2)).map Prod.fst).Nodup := by
    rwa [List.map_map]
  refine ext fun key => Option.ext fun value => ?_
  rw [get?_ofList_eq_some_iff h', ← mem_entries_iff]
  simp only [mapValues, List.mem_map, mem_entries_ofList h]

/-- A map made of some entries of another, under other keys. -/
theorem get?_ofList_filterMap {K' V' : Type} [Ord K'] {l : List (K' × V')}
    (hl : (l.map Prod.fst).Nodup) {f : K' × V' → Option (K × V)}
    (hf : ∀ e ∈ l, ∀ e' ∈ l, ∀ b b', f e = some b → f e' = some b' → b.1 = b'.1 → e.1 = e'.1)
    {key : K} {value : V} :
    (ofList (l.filterMap f)).get? key = some value ↔ ∃ e ∈ l, f e = some (key, value) := by
  have hnodup : ((l.filterMap f).map Prod.fst).Nodup := by
    rw [List.nodup_iff_pairwise_ne, List.pairwise_map, List.pairwise_filterMap]
    rw [List.nodup_iff_pairwise_ne, List.pairwise_map] at hl
    exact hl.imp_of_mem fun he he' hne b hb b' hb' heq => hne (hf _ he _ he' b b' hb hb' heq)
  rw [get?_ofList_eq_some_iff hnodup, List.mem_filterMap]

/-- A map is made of its own entries. -/
theorem ofList_entries (m : SortedMap K V) : ofList m.entries = m := by
  refine ext fun key => Option.ext fun value => ?_
  rw [get?_ofList_eq_some_iff m.nodup_keys, mem_entries_iff]

/-! ### Sizes -/

omit [Std.TransOrd K] [Std.LawfulEqOrd K] in
/-- There is an entry for each key. -/
theorem size_eq_length_keys (m : SortedMap K V) : m.size = m.keys.length := by
  rw [size, keys, List.length_map]

/-- The map of a list without repeated keys is as large as the list. -/
theorem size_ofList {l : List (K × V)} (h : (l.map Prod.fst).Nodup) : (ofList l).size = l.length :=
  (entries_ofList_perm h).length_eq

/-- The map of a list is smaller than the list exactly when a key stands there twice. -/
theorem size_ofList_lt_iff {l : List (K × V)} :
    (ofList l).size < l.length ↔ ¬(l.map Prod.fst).Nodup := by
  constructor
  · intro hlt h
    exact absurd (size_ofList h) (Nat.ne_of_lt hlt)
  · intro h
    have hsub : (ofList l).keys ⊆ l.map Prod.fst := fun key hkey =>
      contains_ofList.mp (mem_keys_iff.mp hkey)
    have hle : (ofList l).keys.Subperm (l.map Prod.fst) :=
      (nodup_keys _).subperm hsub
    rw [size_eq_length_keys]
    refine Nat.lt_of_le_of_ne (by simpa using hle.length_le) fun hlen => h ?_
    have hperm : (ofList l).keys.Perm (l.map Prod.fst) :=
      hle.perm_of_length_le (Nat.le_of_eq (by rw [List.length_map, hlen]))
    exact hperm.nodup_iff.mp (nodup_keys _)

omit [Std.TransOrd K] [Std.LawfulEqOrd K] in
/-- Placing a key makes the list longer by one unless the key is there. -/
private theorem length_place (key : K) (value : V) (l : List (K × V)) :
    (place key value l).length = l.length + if (lookup key l).isSome then 0 else 1 := by
  induction l with
  | nil => rfl
  | cons head rest ih =>
      obtain ⟨k, v⟩ := head
      rw [place, lookup]
      cases compare key k with
      | lt => simp
      | eq => simp
      | gt =>
          simp only [List.length_cons, ih]
          omega

/-- A key that is not there yet makes a map larger by one. -/
theorem size_insert_of_not_contains {m : SortedMap K V} {key : K} (h : m.contains key = false)
    (value : V) : (m.insert key value).size = m.size + 1 := by
  have hlookup : (lookup key m.entries).isSome = false := h
  change (place key value m.entries).length = m.entries.length + 1
  rw [length_place, hlookup]
  rfl

/-! ### The first entry -/

omit [Std.TransOrd K] [Std.LawfulEqOrd K] in
/-- There is no first entry exactly in the empty map. -/
theorem uncons?_eq_none_iff {m : SortedMap K V} : m.uncons? = none ↔ m = empty := by
  obtain ⟨_ | ⟨e, rest⟩, h⟩ := m
  · exact ⟨fun _ => rfl, fun _ => rfl⟩
  · constructor
    · intro hnone
      cases hnone
    · intro heq
      cases heq

omit [Std.TransOrd K] [Std.LawfulEqOrd K] in
/-- The first entry has the first key, and the rest has the others. -/
theorem keys_of_uncons? {m rest : SortedMap K V} {e : K × V} (h : m.uncons? = some (e, rest)) :
    m.keys = e.1 :: rest.keys := by
  obtain ⟨_ | ⟨first, entries⟩, hasc⟩ := m
  · cases h
  · cases h
    rfl

/-- The members of a map are its first key and those behind it. -/
theorem contains_of_uncons? {m rest : SortedMap K V} {e : K × V} (h : m.uncons? = some (e, rest))
    {key : K} : m.contains key = true ↔ key = e.1 ∨ rest.contains key = true := by
  rw [← mem_keys_iff, keys_of_uncons? h, List.mem_cons, mem_keys_iff]

/-- The first key is below all others. -/
theorem compare_of_uncons? {m rest : SortedMap K V} {e : K × V} (h : m.uncons? = some (e, rest))
    {key : K} (hkey : rest.contains key = true) : compare e.1 key = .lt := by
  have hasc : m.keys.Pairwise fun a b => compare a b = .lt := by
    rw [keys, List.pairwise_map]
    exact m.ascending
  rw [keys_of_uncons? h] at hasc
  exact (List.pairwise_cons.mp hasc).1 key (mem_keys_iff.mpr hkey)

/-- The first key does not stand behind itself. -/
theorem not_contains_rest_of_uncons? {m rest : SortedMap K V} {e : K × V}
    (h : m.uncons? = some (e, rest)) : rest.contains e.1 = false := by
  refine Bool.eq_false_iff.mpr fun hmem => ?_
  have hlt := compare_of_uncons? h hmem
  simp at hlt

end SortedMap

end SignedRefs
