import Mathlib.Algebra.Order.BigOperators.Group.List
import SignedRefs.Proofs.Cbor.RoundTrip

/-!
# Which Byte Strings Are Canonical

The reader takes many byte strings for the same value: numbers may be longer than needed, strings
may come in chunks, and entries in any order. Of all these the strict reader accepts one, the form
of the value. So what it accepts is the image of `encode`, cut off where values are nested too
deeply, and what it reads is the value with every map in order (`Sorts`).

The lengths in a form have 64 bits, and no byte string is longer than that. A value whose form is
no longer therefore fits, and how deeply it is nested is all that is left to ask.

## Main results

* `hasForm_iff_regular`: which values have a form.
* `fits_of_hasForm`: a value fits if its form is not too long and it is not nested too deeply.
* `nesting_le_of_readItem`: what is read is not nested more deeply than the reader goes.
* `sorts_iff`: there is one way to sort a value.
* `strict_reading`: what the strict reader accepts, and what it reads.
-/

namespace SignedRefs.Cbor

/-! ### Nesting -/

mutual

/-- How many arrays and maps there are in each other, those in keys included. -/
def nesting : Value → Nat
  | .array items => nestingItems items + 1
  | .map entries => nestingEntries entries + 1
  | .tag _ content => nesting content
  | .unsigned _ => 0
  | .negative _ => 0
  | .bytes _ => 0
  | .text _ => 0
  | .bool _ => 0
  | .null => 0
  | .float => 0

/-- The deepest nesting of some values. -/
def nestingItems : List Value → Nat
  | [] => 0
  | item :: rest => max (nesting item) (nestingItems rest)

/-- The deepest nesting in the keys and values of some entries. -/
def nestingEntries : List (Value × Value) → Nat
  | [] => 0
  | (key, value) :: rest => max (max (nesting key) (nesting value)) (nestingEntries rest)

end

/-- Items nest no deeper than each of them. -/
theorem nestingItems_le_iff {items : List Value} {depth : Nat} :
    nestingItems items ≤ depth ↔ ∀ item ∈ items, nesting item ≤ depth := by
  induction items with
  | nil => simp [nestingItems]
  | cons item rest ih => rw [nestingItems, max_le_iff, ih, List.forall_mem_cons]

/-- Entries nest no deeper than each key and each value. -/
theorem nestingEntries_le_iff {entries : List (Value × Value)} {depth : Nat} :
    nestingEntries entries ≤ depth ↔
      ∀ e ∈ entries, nesting e.1 ≤ depth ∧ nesting e.2 ≤ depth := by
  induction entries with
  | nil => simp [nestingEntries]
  | cons e rest ih => rw [nestingEntries, max_le_iff, max_le_iff, ih, List.forall_mem_cons]

/-- An array nests one level deeper than its items. -/
theorem nesting_array_le_iff {items : List Value} {depth : Nat} :
    nesting (.array items) ≤ depth + 1 ↔ ∀ item ∈ items, nesting item ≤ depth := by
  rw [nesting, Nat.add_le_add_iff_right, nestingItems_le_iff]

/-- A map nests one level deeper than its keys and values. -/
theorem nesting_map_le_iff {entries : List (Value × Value)} {depth : Nat} :
    nesting (.map entries) ≤ depth + 1 ↔
      ∀ e ∈ entries, nesting e.1 ≤ depth ∧ nesting e.2 ≤ depth := by
  rw [nesting, Nat.add_le_add_iff_right, nestingEntries_le_iff]

/-! ### Values that have a form -/

/-- There is no float and no tag in a value, and no two keys of a map in it have the same form. -/
inductive Regular : Value → Prop
  | unsigned (n : UInt64) : Regular (.unsigned n)
  | negative (n : UInt64) : Regular (.negative n)
  | bytes (value : Bytes) : Regular (.bytes value)
  | text (value : String) : Regular (.text value)
  | array {items : List Value} (hitems : ∀ item ∈ items, Regular item) : Regular (.array items)
  | map {entries : List (Value × Value)} (hkeys : ∀ e ∈ entries, Regular e.1)
      (hvalues : ∀ e ∈ entries, Regular e.2) (hdistinct : (entries.map fun e => form e.1).Nodup) :
      Regular (.map entries)
  | bool (b : Bool) : Regular (.bool b)
  | null : Regular .null

/-- A regular value can be written. -/
theorem Regular.hasForm {value : Value} (h : Regular value) : HasForm value := by
  induction h with
  | array _ ih => exact ⟨_, encode_array_eq_ok_iff.mpr ⟨ih, rfl⟩⟩
  | map _ _ hdistinct ihkeys ihvalues =>
      exact ⟨_, encode_map_eq_ok_iff.mpr
        ⟨fun e he => ⟨ihkeys e he, ihvalues e he⟩, hdistinct, rfl⟩⟩
  | _ => exact ⟨_, rfl⟩

/-- What can be written and nests no deeper than some level is regular. The depth is named so that
the induction can go over it. -/
private theorem regular_of_hasForm {depth : Nat} {value : Value} (hdepth : nesting value ≤ depth)
    (h : HasForm value) : Regular value := by
  induction depth generalizing value with
  | zero =>
      cases value with
      | array items => simp [nesting] at hdepth
      | map entries => simp [nesting] at hdepth
      | float => cases h.choose_spec
      | tag number content => cases h.choose_spec
      | _ => constructor
  | succ depth ih =>
      cases value with
      | array items =>
          have hitems := nesting_array_le_iff.mp hdepth
          exact .array fun item hitem => ih (hitems item hitem) ((form_array h).1 item hitem)
      | map entries =>
          have hentries := nesting_map_le_iff.mp hdepth
          obtain ⟨hforms, hdistinct, -⟩ := form_map h
          exact .map (fun e he => ih (hentries e he).1 (hforms e he).1)
            (fun e he => ih (hentries e he).2 (hforms e he).2) hdistinct
      | float => cases h.choose_spec
      | tag number content => cases h.choose_spec
      | _ => constructor

/-- The values that have a form are the regular ones. -/
theorem hasForm_iff_regular {value : Value} : HasForm value ↔ Regular value :=
  ⟨regular_of_hasForm (Nat.le_refl _), Regular.hasForm⟩

/-! ### Lengths -/

/-- A head takes at least one byte. -/
theorem length_writeHead_pos (major : Major) (value : Nat) :
    0 < (writeHead major value).length := by
  rw [writeHead]
  split_ifs <;> exact Nat.succ_pos _

/-- No form is empty. -/
theorem length_form_pos {value : Value} (h : HasForm value) : 0 < (form value).length := by
  have hhead := length_writeHead_pos
  obtain ⟨bytes, hbytes⟩ := h
  rw [form_eq hbytes]
  cases value with
  | array items =>
      obtain ⟨-, rfl⟩ := encode_array_eq_ok_iff.mp hbytes
      rw [List.length_append]
      exact Nat.add_pos_left (hhead _ _) _
  | map entries =>
      obtain ⟨-, -, rfl⟩ := encode_map_eq_ok_iff.mp hbytes
      rw [List.length_append]
      exact Nat.add_pos_left (hhead _ _) _
  | bytes content =>
      cases hbytes
      rw [List.length_append]
      exact Nat.add_pos_left (hhead _ _) _
  | text content =>
      cases hbytes
      rw [List.length_append]
      exact Nat.add_pos_left (hhead _ _) _
  | unsigned n =>
      cases hbytes
      exact hhead _ _
  | negative n =>
      cases hbytes
      exact hhead _ _
  | bool b =>
      cases hbytes
      exact Nat.one_pos
  | null =>
      cases hbytes
      exact Nat.one_pos
  | float => cases hbytes
  | tag number content => cases hbytes

/-- There are no more parts than bytes in them, and no part is longer than all together. -/
theorem length_le_length_flatten {α : Type} {l : List α} {f : α → Bytes}
    (h : ∀ a ∈ l, 0 < (f a).length) : l.length ≤ (l.map f).flatten.length ∧
      ∀ a ∈ l, (f a).length ≤ (l.map f).flatten.length := by
  constructor
  · rw [List.length_flatten]
    refine le_trans (le_of_eq ?_) (List.length_le_sum_of_one_le _ fun n hn => ?_)
    · rw [List.length_map, List.length_map]
    · rw [List.map_map] at hn
      obtain ⟨a, ha, rfl⟩ := List.mem_map.mp hn
      exact h a ha
  · intro a ha
    exact (List.sublist_flatten_of_mem (List.mem_map_of_mem ha)).length_le

/-- What stands behind a head is not too long if it is not together with the head. -/
private theorem length_lt_of_writeHead (major : Major) {count : Nat} {content : Bytes}
    (h : (writeHead major count ++ content).length < UInt64.size) :
    content.length < UInt64.size := by
  rw [List.length_append] at h
  omega

/-- A value whose form is not too long fits if it is not nested too deeply. -/
theorem fits_of_hasForm {depth : Nat} {value : Value} (h : HasForm value)
    (hlength : (form value).length < UInt64.size) (hdepth : nesting value ≤ depth) :
    Fits depth value := by
  induction depth generalizing value with
  | zero =>
      cases value with
      | array items => simp [nesting] at hdepth
      | map entries => simp [nesting] at hdepth
      | bytes content => exact length_lt_of_writeHead .bytes hlength
      | text content => exact length_lt_of_writeHead .text hlength
      | _ => trivial
  | succ depth ih =>
      cases value with
      | array items =>
          obtain ⟨hforms, heq⟩ := form_array h
          obtain ⟨hcount, hparts⟩ := length_le_length_flatten (f := form)
            fun item hitem => length_form_pos (hforms item hitem)
          rw [heq] at hlength
          have hall := length_lt_of_writeHead _ hlength
          exact ⟨hcount.trans_lt hall, fun item hitem => ih (hforms item hitem)
            ((hparts item hitem).trans_lt hall) (nesting_array_le_iff.mp hdepth item hitem)⟩
      | map entries =>
          obtain ⟨hforms, hdistinct, heq⟩ := form_map h
          have hperm := inOrder_perm hdistinct
          have hpos : ∀ e ∈ inOrder entries, 0 < (form e.1 ++ form e.2).length := fun e he => by
            rw [List.length_append]
            exact Nat.add_pos_left (length_form_pos (hforms e (hperm.mem_iff.mp he)).1) _
          obtain ⟨hcount, hparts⟩ := length_le_length_flatten hpos
          rw [heq] at hlength
          have hall := length_lt_of_writeHead _ hlength
          rw [hperm.length_eq] at hcount
          refine ⟨hcount.trans_lt hall, fun e he => ?_⟩
          have hpart := (hparts e (hperm.mem_iff.mpr he)).trans_lt hall
          rw [List.length_append] at hpart
          obtain ⟨hkey, hvalue⟩ := nesting_map_le_iff.mp hdepth e he
          exact ⟨ih (hforms e he).1 (by omega) hkey, ih (hforms e he).2 (by omega) hvalue⟩
      | bytes content => exact length_lt_of_writeHead .bytes hlength
      | text content => exact length_lt_of_writeHead .text hlength
      | _ => trivial

/-! ### What is read -/

section

variable {item : Reader} {p : Value → Prop}
  (hitem : ∀ {input v rest}, item input = some (v, rest) → p v)

include hitem

/-- What holds of everything that is read holds of each item of an array. -/
theorem forall_of_readItems {count : Nat} {done items : List Value} {input rest : Bytes}
    (hdone : ∀ v ∈ done, p v) (h : readItems item count done input = some (items, rest)) :
    ∀ v ∈ items, p v := by
  induction count generalizing done input with
  | zero =>
      cases h
      exact fun v hv => hdone v (List.mem_reverse.mp hv)
  | succ count ih =>
      rw [readItems] at h
      split at h
      · cases h
      · next v rest' hread =>
          exact ih (List.forall_mem_cons.mpr ⟨hitem hread, hdone⟩) h

/-- What holds of everything that is read as an item holds of all items up to a break. -/
theorem forall_of_readItemsToBreak {fuel : Nat} {done items : List Value} {input rest : Bytes}
    (hdone : ∀ v ∈ done, p v) (h : readItemsToBreak item fuel done input = some (items, rest)) :
    ∀ v ∈ items, p v := by
  induction fuel generalizing done input with
  | zero => cases h
  | succ fuel ih =>
      rw [readItemsToBreak] at h
      split at h
      · cases h
        exact fun v hv => hdone v (List.mem_reverse.mp hv)
      · split at h
        · cases h
        · next v rest' hread =>
            exact ih (List.forall_mem_cons.mpr ⟨hitem hread, hdone⟩) h

/-- The same for the keys and values of a map. -/
theorem forall_of_readEntries {count : Nat} {done entries : List (Value × Value)}
    {input rest : Bytes} (hdone : ∀ e ∈ done, p e.1 ∧ p e.2)
    (h : readEntries item count done input = some (entries, rest)) :
    ∀ e ∈ entries, p e.1 ∧ p e.2 := by
  induction count generalizing done input with
  | zero =>
      cases h
      exact fun e he => hdone e (List.mem_reverse.mp he)
  | succ count ih =>
      rw [readEntries] at h
      split at h
      · cases h
      · next hkey =>
          split at h
          · cases h
          · next hvalue =>
              exact ih (List.forall_mem_cons.mpr ⟨⟨hitem hkey, hitem hvalue⟩, hdone⟩) h

/-- What holds of everything that is read as an item holds of all keys and values up to a break. -/
theorem forall_of_readEntriesToBreak {fuel : Nat} {done entries : List (Value × Value)}
    {input rest : Bytes} (hdone : ∀ e ∈ done, p e.1 ∧ p e.2)
    (h : readEntriesToBreak item fuel done input = some (entries, rest)) :
    ∀ e ∈ entries, p e.1 ∧ p e.2 := by
  induction fuel generalizing done input with
  | zero => cases h
  | succ fuel ih =>
      rw [readEntriesToBreak] at h
      split at h
      · cases h
        exact fun e he => hdone e (List.mem_reverse.mp he)
      · split at h
        · cases h
        · next hkey =>
            split at h
            · cases h
            · next hvalue =>
                exact ih (List.forall_mem_cons.mpr ⟨⟨hitem hkey, hitem hvalue⟩, hdone⟩) h

end

/-- Simple values do not nest. -/
theorem nesting_of_simpleItem? {head : Head} {v : Value} (h : simpleItem? head = some v) :
    nesting v = 0 := by
  unfold simpleItem? at h
  split_ifs at h
  · split at h
    all_goals cases h
    all_goals rfl
  · cases h
    rfl

/-- Big numbers do not nest. -/
theorem nesting_of_bigNumber? {number : Nat} {digits : Bytes} {v : Value}
    (h : bigNumber? number digits = some v) : nesting v = 0 := by
  unfold bigNumber? at h
  dsimp only at h
  split_ifs at h
  all_goals cases h
  all_goals rfl

/-- What is read is nested as deeply as its parts, and once more. -/
theorem nesting_le_of_readItemWith {inner : Option Reader} {depth : Nat} {input rest : Bytes}
    {v : Value} (hinner : ∀ item ∈ inner, ∃ below, depth = below + 1 ∧
      ∀ {input v rest}, item input = some (v, rest) → nesting v ≤ below)
    (h : readItemWith inner input = some (v, rest)) : nesting v ≤ depth := by
  unfold readItemWith at h
  split at h
  · cases h
  · next head rest' _ =>
      split at h
      · split at h
        · cases h
        · cases h
          exact Nat.zero_le _
      · split at h
        · cases h
        · cases h
          exact Nat.zero_le _
      · obtain ⟨⟨content, rest''⟩, -, heq⟩ := Option.map_eq_some_iff.mp h
        cases heq
        exact Nat.zero_le _
      · split at h
        · cases h
        · obtain ⟨text, -, heq⟩ := Option.map_eq_some_iff.mp h
          cases heq
          exact Nat.zero_le _
      · split at h
        · cases h
        · next item =>
            obtain ⟨below, rfl, hitem⟩ := hinner item rfl
            obtain ⟨⟨items, rest''⟩, hread, heq⟩ := Option.map_eq_some_iff.mp h
            cases heq
            rw [nesting_array_le_iff]
            split_ifs at hread
            · exact forall_of_readItemsToBreak hitem (fun _ hv => absurd hv List.not_mem_nil) hread
            · exact forall_of_readItems hitem (fun _ hv => absurd hv List.not_mem_nil) hread
      · split at h
        · cases h
        · next item =>
            obtain ⟨below, rfl, hitem⟩ := hinner item rfl
            obtain ⟨⟨entries, rest''⟩, hread, heq⟩ := Option.map_eq_some_iff.mp h
            cases heq
            rw [nesting_map_le_iff]
            split_ifs at hread
            · exact forall_of_readEntriesToBreak hitem (fun _ he => absurd he List.not_mem_nil)
                hread
            · exact forall_of_readEntries hitem (fun _ he => absurd he List.not_mem_nil) hread
      · split at h
        · cases h
        · split at h
          · split at h
            · cases h
            · obtain ⟨big, hbig, heq⟩ := Option.map_eq_some_iff.mp h
              cases heq
              rw [nesting_of_bigNumber? hbig]
              exact Nat.zero_le _
          · split at h
            · cases h
            · next item =>
                obtain ⟨below, rfl, hitem⟩ := hinner item rfl
                obtain ⟨⟨content, rest''⟩, hread, heq⟩ := Option.map_eq_some_iff.mp h
                cases heq
                rw [nesting]
                exact Nat.le_succ_of_le (hitem hread)
      · obtain ⟨simple, hsimple, heq⟩ := Option.map_eq_some_iff.mp h
        cases heq
        rw [nesting_of_simpleItem? hsimple]
        exact Nat.zero_le _

/-- What is read is not nested more deeply than the reader goes. -/
theorem nesting_le_of_readItem {depth : Nat} {input rest : Bytes} {v : Value}
    (h : readItem depth input = some (v, rest)) : nesting v ≤ depth := by
  induction depth generalizing input rest v with
  | zero => exact nesting_le_of_readItemWith (fun _ hitem => by cases hitem) h
  | succ depth ih =>
      refine nesting_le_of_readItemWith (fun item hitem => ?_) h
      cases hitem
      exact ⟨depth, rfl, ih⟩

/-! ### Sorted values -/

/-- The second value is the first one with the entries of every map, those in keys included, in the
order of the forms of their keys. -/
inductive Sorts : Value → Value → Prop
  | unsigned (n : UInt64) : Sorts (.unsigned n) (.unsigned n)
  | negative (n : UInt64) : Sorts (.negative n) (.negative n)
  | bytes (value : Bytes) : Sorts (.bytes value) (.bytes value)
  | text (value : String) : Sorts (.text value) (.text value)
  | array {items items' : List Value} (hitems : List.Forall₂ Sorts items items') :
      Sorts (.array items) (.array items')
  | map {entries arranged entries' : List (Value × Value)} (hperm : arranged.Perm entries)
      (hkeys : List.Forall₂ Sorts (arranged.map Prod.fst) (entries'.map Prod.fst))
      (hvalues : List.Forall₂ Sorts (arranged.map Prod.snd) (entries'.map Prod.snd))
      (hascending : entries'.Pairwise fun a b => compare (form a.1) (form b.1) = .lt) :
      Sorts (.map entries) (.map entries')
  | bool (b : Bool) : Sorts (.bool b) (.bool b)
  | null : Sorts .null .null

/-- The entries in order stand in the order of the forms of their keys. -/
theorem pairwise_inOrder {entries : List (Value × Value)}
    (h : (entries.map fun e => form e.1).Nodup) :
    (inOrder entries).Pairwise fun a b => compare (form a.1) (form b.1) = .lt := by
  have hkeys : ((entries.map fun e => (form e.1, e)).map Prod.fst).Nodup := by
    rwa [List.map_map]
  have hform : ∀ x ∈ (SortedMap.ofList (entries.map fun e => (form e.1, e))).entries,
      x.1 = form x.2.1 := fun x hx => by
    obtain ⟨e, -, rfl⟩ := List.mem_map.mp ((SortedMap.mem_entries_ofList hkeys).mp hx)
    rfl
  rw [inOrder, SortedMap.values, List.pairwise_map]
  refine (SortedMap.ascending _).imp_of_mem fun {a b} ha hb hlt => ?_
  rwa [← hform a ha, ← hform b hb]

/-- Where each value has one sorted value, so have several. -/
private theorem forall₂_sorts_iff {l l' : List Value} (h : ∀ v ∈ l, ∀ w, Sorts v w ↔ w = sort v) :
    List.Forall₂ Sorts l l' ↔ l' = l.map sort := by
  induction l generalizing l' with
  | nil => simp
  | cons v l ih =>
      have hrest := fun w hw => h w (List.mem_cons_of_mem v hw)
      rw [List.forall₂_cons_left_iff, List.map_cons]
      constructor
      · rintro ⟨w, rest, hw, hsorts, rfl⟩
        rw [(h v List.mem_cons_self w).mp hw, (ih hrest).mp hsorts]
      · rintro rfl
        exact ⟨_, _, (h v List.mem_cons_self _).mpr rfl, (ih hrest).mpr rfl, rfl⟩

/-- Where each part of the entries has one sorted value with the same form, so has the map: keys
keep their forms, so entries that were sorted inside stand in the same order as before. -/
private theorem sorts_map_iff {entries : List (Value × Value)} {w : Value}
    (hdistinct : (entries.map fun e => form e.1).Nodup)
    (hkeys : ∀ e ∈ entries, ∀ w, Sorts e.1 w ↔ w = sort e.1)
    (hvalues : ∀ e ∈ entries, ∀ w, Sorts e.2 w ↔ w = sort e.2)
    (hform : ∀ e ∈ entries, form (sort e.1) = form e.1) :
    Sorts (.map entries) w ↔ w = sort (.map entries) := by
  have hparts : ∀ {arranged entries' : List (Value × Value)}, arranged.Perm entries →
      (List.Forall₂ Sorts (arranged.map Prod.fst) (entries'.map Prod.fst) ∧
        List.Forall₂ Sorts (arranged.map Prod.snd) (entries'.map Prod.snd) ↔
        entries' = arranged.map fun e => (sort e.1, sort e.2)) := by
    intro arranged entries' hperm
    rw [forall₂_sorts_iff, forall₂_sorts_iff, List.map_map, List.map_map]
    · constructor
      · rintro ⟨hfst, hsnd⟩
        rw [List.zip_of_prod hfst hsnd, List.zip_map']
        rfl
      · rintro rfl
        simp
    · simp only [List.forall_mem_map]
      exact fun e he => hvalues e (hperm.mem_iff.mp he)
    · simp only [List.forall_mem_map]
      exact fun e he => hkeys e (hperm.mem_iff.mp he)
  have hascending : ∀ {arranged : List (Value × Value)}, arranged.Perm entries →
      (((arranged.map fun e => (sort e.1, sort e.2)).Pairwise
        fun a b => compare (form a.1) (form b.1) = .lt) ↔
      arranged.Pairwise fun a b => compare (form a.1) (form b.1) = .lt) := by
    intro arranged hperm
    rw [List.pairwise_map]
    refine List.Pairwise.iff_of_mem fun {a b} ha hb => ?_
    rw [hform a (hperm.mem_iff.mp ha), hform b (hperm.mem_iff.mp hb)]
  rw [sort_map hdistinct]
  constructor
  · intro h
    cases h with
    | map hperm hfst hsnd hpairwise =>
        obtain rfl := (hparts hperm).mp ⟨hfst, hsnd⟩
        rw [← inOrder_eq_of_perm ((hperm.map _).nodup_iff.mpr hdistinct) hperm,
          inOrder_of_pairwise ((hascending hperm).mp hpairwise)]
  · rintro rfl
    have hperm := inOrder_perm hdistinct
    obtain ⟨hfst, hsnd⟩ := (hparts hperm).mpr rfl
    exact .map hperm hfst hsnd ((hascending hperm).mpr (pairwise_inOrder hdistinct))

/-- A value that fits and has a form can be sorted in one way only. -/
theorem sorts_iff {depth : Nat} {v w : Value} (hfits : Fits depth v) (hform : HasForm v) :
    Sorts v w ↔ w = sort v := by
  induction depth generalizing v w with
  | zero =>
      cases v with
      | array items => exact hfits.elim
      | map entries => exact hfits.elim
      | float => cases hform.choose_spec
      | tag number content => cases hform.choose_spec
      | _ =>
          constructor
          · rintro ⟨⟩
            rfl
          · rintro rfl
            constructor
  | succ depth ih =>
      cases v with
      | array items =>
          obtain ⟨-, hitems⟩ := hfits
          have hforms := (form_array hform).1
          have hsorts : ∀ {items'}, List.Forall₂ Sorts items items' ↔ items' = items.map sort :=
            forall₂_sorts_iff fun v hv _ => ih (hitems v hv) (hforms v hv)
          rw [sort_array]
          constructor
          · rintro ⟨⟩
            next hall => rw [hsorts.mp hall]
          · rintro rfl
            exact .array (hsorts.mpr rfl)
      | map entries =>
          obtain ⟨-, hentries⟩ := hfits
          obtain ⟨hforms, hdistinct, -⟩ := form_map hform
          refine sorts_map_iff hdistinct (fun e he _ => ih (hentries e he).1 (hforms e he).1)
            (fun e he _ => ih (hentries e he).2 (hforms e he).2) fun e he => ?_
          rw [form, form, encode_sort (hentries e he).1 (hforms e he).1]
      | float => cases hform.choose_spec
      | tag number content => cases hform.choose_spec
      | _ =>
          constructor
          · rintro ⟨⟩
            rfl
          · rintro rfl
            constructor

/-! ### The strict reader -/

/-- What the strict reader accepts is not nested more deeply than it goes. -/
theorem nesting_le_of_decode {bytes : Bytes} {v : Value} (h : decode bytes = .ok v) :
    nesting v ≤ maxDepth := by
  rw [decode] at h
  split at h
  · cases h
  · next hread =>
      split at h
      · cases h
      · split_ifs at h
        cases h
        exact nesting_le_of_readItem hread

/-- The strict reader accepts what is written for a value with at most 256 arrays and maps in each
other, and reads that value sorted; it accepts nothing else. -/
theorem strict_reading :
    (∀ v, (∃ bytes, encode v = .ok bytes) ↔ Regular v) ∧
      (∀ v bytes, encode v = .ok bytes → bytes.length < UInt64.size → nesting v ≤ 256 →
        (∃ w, decode bytes = .ok w) ∧ ∀ w, decode bytes = .ok w ↔ Sorts v w) ∧
      ∀ bytes w, decode bytes = .ok w → Regular w ∧ nesting w ≤ 256 ∧ encode w = .ok bytes := by
  refine ⟨fun v => hasForm_iff_regular, fun v bytes h hlength hdepth => ?_, fun bytes w h => ?_⟩
  · have hform : HasForm v := ⟨bytes, h⟩
    have hfits : Fits maxDepth v := by
      refine fits_of_hasForm hform ?_ hdepth
      rwa [form_eq h]
    have hdecode := decode_of_encode hfits h
    refine ⟨⟨sort v, hdecode⟩, fun w => ?_⟩
    rw [hdecode, Except.ok.injEq, sorts_iff hfits hform, eq_comm]
  · have hencode := encode_of_decode h
    exact ⟨hasForm_iff_regular.mp ⟨bytes, hencode⟩, nesting_le_of_decode h, hencode⟩

namespace Unsorted

/-- A map out of order, with another one as a key. -/
def value : Value :=
  .map [(.map [(.unsigned 300, .null), (.unsigned 2, .bool true)], .bytes [7]),
    (.text "b", .array [.null, .negative 1])]

/-- The canonical form of `value`. -/
def written : Bytes :=
  [0xa2, 0x61, 0x62, 0x82, 0xf6, 0x21, 0xa2, 0x02, 0xf5, 0x19, 0x01, 0x2c, 0xf6, 0x41, 0x07]

/-- The same value with both maps in order. -/
def sorted : Value :=
  .map [(.text "b", .array [.null, .negative 1]),
    (.map [(.unsigned 2, .bool true), (.unsigned 300, .null)], .bytes [7])]

/-- The map can be written, and what is read back is the same map sorted, which is as regular. -/
theorem reading : encode value = .ok written ∧ decode written = .ok sorted ∧
    Sorts value sorted ∧ Regular value ∧ Regular sorted := by
  have hencode : encode value = .ok written := by rfl
  have hdecode : decode written = .ok sorted := by rfl
  obtain ⟨-, hsorts⟩ := strict_reading.2.1 value written hencode (by decide) (by decide)
  exact ⟨hencode, hdecode, (hsorts sorted).mp hdecode, (strict_reading.1 value).mp ⟨_, hencode⟩,
    (strict_reading.2.2 written sorted hdecode).1⟩

end Unsorted

end SignedRefs.Cbor
