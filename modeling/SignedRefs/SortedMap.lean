/-!
# Sorted Maps

A finite map kept as its list of entries in strictly ascending key order. There is one list for
each map, so two maps that answer every look-up alike are equal (`SortedMap.ext`), and the order
in which entries are listed is the order of their keys.

## Main results

* `get?_insert`, `get?_erase`: what a look-up answers after a change.
* `mem_entries_iff`: the entries are the answered look-ups.
* `SortedMap.ext`: a map is determined by its look-ups.
* `get?_ofList`: in a list of entries, the last one with a key decides.
-/

namespace SignedRefs

/-- A finite map from `K` to `V`, listed in ascending key order. -/
structure SortedMap (K : Type) (V : Type) [Ord K] where
  /-- The entries. -/
  entries : List (K × V)
  /-- Each key is below all later ones. -/
  ascending : entries.Pairwise fun a b => compare a.1 b.1 = .lt

namespace SortedMap

variable {K V W : Type} [Ord K]

/-- The map without entries. -/
def empty : SortedMap K V := ⟨[], List.Pairwise.nil⟩

instance : Inhabited (SortedMap K V) := ⟨empty⟩

/-- The keys, ascending. -/
def keys (m : SortedMap K V) : List K := m.entries.map Prod.fst

/-- The values, in the order of their keys. -/
def values (m : SortedMap K V) : List V := m.entries.map Prod.snd

/-- How many entries there are. -/
def size (m : SortedMap K V) : Nat := m.entries.length

/-- Whether there is no entry. -/
def isEmpty (m : SortedMap K V) : Bool := m.entries.isEmpty

/-! ### Operations on lists of entries -/

/-- Looks a key up in an ascending list. -/
def lookup (key : K) : List (K × V) → Option V
  | [] => none
  | (k, v) :: rest =>
    match compare key k with
    | .lt => none
    | .eq => some v
    | .gt => lookup key rest

/-- Puts an entry into an ascending list, over the one with the same key. -/
def place (key : K) (value : V) : List (K × V) → List (K × V)
  | [] => [(key, value)]
  | (k, v) :: rest =>
    match compare key k with
    | .lt => (key, value) :: (k, v) :: rest
    | .eq => (key, value) :: rest
    | .gt => (k, v) :: place key value rest

/-- Merges an entry `x` and the entries that `rest` stands for into an ascending list. -/
def mergeStep (x : K × V) (rest : List (K × V) → List (K × V)) :
    List (K × V) → List (K × V)
  | [] => x :: rest []
  | y :: ys =>
    match compare x.1 y.1 with
    | .lt => x :: rest (y :: ys)
    | .eq => y :: rest ys
    | .gt => y :: mergeStep x rest ys

/-- Merges two ascending lists; where both have a key, the second one's value stays. -/
def mergeEntries (xs : List (K × V)) : List (K × V) → List (K × V) :=
  xs.foldr mergeStep id

/-! ### Order is kept -/

/-- Above is the other way round of below. -/
private theorem gt_iff [Std.TransOrd K] {a b : K} : compare a b = .gt ↔ compare b a = .lt :=
  Std.OrientedCmp.gt_iff_lt

/-- What holds of a new key and of all old ones holds of all keys afterwards. -/
private theorem forall_key_place {p : K → Prop} {key : K} {value : V} {l : List (K × V)}
    (new : p key) (old : ∀ e ∈ l, p e.1) : ∀ e ∈ place key value l, p e.1 := by
  induction l with
  | nil => simpa [place] using new
  | cons head rest ih =>
    obtain ⟨k, v⟩ := head
    have hrest : ∀ e ∈ rest, p e.1 := fun e he => old e (List.mem_cons_of_mem _ he)
    have hhead : p k := old _ List.mem_cons_self
    unfold place
    split <;> intro e he <;> simp only [List.mem_cons] at he
    · rcases he with rfl | rfl | he
      · exact new
      · exact hhead
      · exact hrest _ he
    · rcases he with rfl | he
      · exact new
      · exact hrest _ he
    · rcases he with rfl | he
      · exact hhead
      · exact ih hrest _ he

/-- Placing a key keeps the keys in order. -/
private theorem pairwise_place [Std.TransOrd K] [Std.LawfulEqOrd K] {key : K} {value : V}
    {l : List (K × V)} (h : l.Pairwise fun a b => compare a.1 b.1 = .lt) :
    (place key value l).Pairwise fun a b => compare a.1 b.1 = .lt := by
  induction l with
  | nil => exact List.pairwise_singleton _ _
  | cons head rest ih =>
    obtain ⟨k, v⟩ := head
    obtain ⟨hhead, hrest⟩ := List.pairwise_cons.mp h
    unfold place
    split
    case h_1 hc =>
      refine List.pairwise_cons.mpr ⟨fun e he => ?_, h⟩
      rcases List.mem_cons.mp he with rfl | he
      · exact hc
      · exact Std.TransCmp.lt_trans hc (hhead e he)
    case h_2 hc =>
      obtain rfl := Std.LawfulEqOrd.eq_of_compare hc
      exact List.pairwise_cons.mpr ⟨hhead, hrest⟩
    case h_3 hc =>
      exact List.pairwise_cons.mpr
        ⟨forall_key_place (p := fun x => compare k x = .lt) (gt_iff.mp hc) hhead, ih hrest⟩

/-- Two lists that have a first entry each are merged by comparing the two keys. -/
private theorem mergeEntries_cons_cons (x y : K × V) (xs ys : List (K × V)) :
    mergeEntries (x :: xs) (y :: ys) =
      match compare x.1 y.1 with
      | .lt => x :: mergeEntries xs (y :: ys)
      | .eq => y :: mergeEntries xs ys
      | .gt => y :: mergeEntries (x :: xs) ys := rfl

/-- What holds of the keys of both lists holds of all keys of the merged one. -/
private theorem forall_key_mergeEntries {p : K → Prop} {xs : List (K × V)} :
    ∀ {ys : List (K × V)}, (∀ e ∈ xs, p e.1) → (∀ e ∈ ys, p e.1) →
      ∀ e ∈ mergeEntries xs ys, p e.1 := by
  induction xs with
  | nil => exact fun _ hy => hy
  | cons x xs ihx =>
    intro ys hx
    have hxs : ∀ e ∈ xs, p e.1 := fun e he => hx e (List.mem_cons_of_mem _ he)
    have hxh : p x.1 := hx _ List.mem_cons_self
    induction ys with
    | nil =>
      intro hy e he
      rcases List.mem_cons.mp he with rfl | he
      · exact hxh
      · exact ihx hxs hy e he
    | cons y ys ihy =>
      intro hy
      have hys : ∀ e ∈ ys, p e.1 := fun e he => hy e (List.mem_cons_of_mem _ he)
      have hyh : p y.1 := hy _ List.mem_cons_self
      rw [mergeEntries_cons_cons]
      split <;> intro e he <;> rcases List.mem_cons.mp he with rfl | he
      · exact hxh
      · exact ihx hxs hy e he
      · exact hyh
      · exact ihx hxs hys e he
      · exact hyh
      · exact ihy hys e he

/-- Merging keeps the keys in order. -/
private theorem pairwise_mergeEntries [Std.TransOrd K] [Std.LawfulEqOrd K] {xs : List (K × V)} :
    ∀ {ys : List (K × V)}, xs.Pairwise (fun a b => compare a.1 b.1 = .lt) →
      ys.Pairwise (fun a b => compare a.1 b.1 = .lt) →
      (mergeEntries xs ys).Pairwise fun a b => compare a.1 b.1 = .lt := by
  induction xs with
  | nil => exact fun _ hy => hy
  | cons x xs ihx =>
    intro ys hx
    obtain ⟨hxh, hxs⟩ := List.pairwise_cons.mp hx
    induction ys with
    | nil =>
      intro hy
      exact List.pairwise_cons.mpr
        ⟨forall_key_mergeEntries (p := fun k => compare x.1 k = .lt) hxh (by simp), ihx hxs hy⟩
    | cons y ys ihy =>
      intro hy
      obtain ⟨hyh, hys⟩ := List.pairwise_cons.mp hy
      rw [mergeEntries_cons_cons]
      split
      case h_1 hc =>
        refine List.pairwise_cons.mpr ⟨forall_key_mergeEntries
          (p := fun k => compare x.1 k = .lt) hxh fun e he => ?_, ihx hxs hy⟩
        rcases List.mem_cons.mp he with rfl | he
        · exact hc
        · exact Std.TransCmp.lt_trans hc (hyh e he)
      case h_2 hc =>
        have heq := Std.LawfulEqOrd.eq_of_compare hc
        exact List.pairwise_cons.mpr ⟨forall_key_mergeEntries
          (p := fun k => compare y.1 k = .lt) (heq ▸ hxh) hyh, ihx hxs hys⟩
      case h_3 hc =>
        refine List.pairwise_cons.mpr ⟨forall_key_mergeEntries
          (p := fun k => compare y.1 k = .lt) (fun e he => ?_) hyh, ihy hys⟩
        rcases List.mem_cons.mp he with rfl | he
        · exact gt_iff.mp hc
        · exact Std.TransCmp.lt_trans (gt_iff.mp hc) (hxh e he)

/-! ### Operations -/

/-- The value under a key. -/
def get? (m : SortedMap K V) (key : K) : Option V := lookup key m.entries

/-- Whether a key has a value. -/
def contains (m : SortedMap K V) (key : K) : Bool := (m.get? key).isSome

/-- The map without the entries that fail a test. -/
def filter (m : SortedMap K V) (keep : K → V → Bool) : SortedMap K V :=
  ⟨m.entries.filter fun e => keep e.1 e.2, m.ascending.sublist List.filter_sublist⟩

/-- The map with every value replaced. -/
def mapValues (m : SortedMap K V) (f : K → V → W) : SortedMap K W :=
  ⟨m.entries.map fun e => (e.1, f e.1 e.2), by
    rw [List.pairwise_map]; exact m.ascending⟩

/-- The first entry and the map of the others. -/
def uncons? (m : SortedMap K V) : Option ((K × V) × SortedMap K V) :=
  match m with
  | ⟨[], _⟩ => none
  | ⟨e :: rest, h⟩ => some (e, ⟨rest, h.of_cons⟩)

/-- The map without a key. -/
def erase (m : SortedMap K V) (key : K) : SortedMap K V :=
  m.filter fun k _ => compare key k != .eq

section Building

variable [Std.TransOrd K] [Std.LawfulEqOrd K]

/-- The map with a key set to a value. -/
def insert (m : SortedMap K V) (key : K) (value : V) : SortedMap K V :=
  ⟨place key value m.entries, pairwise_place m.ascending⟩

/-- The map with one entry. -/
def singleton (key : K) (value : V) : SortedMap K V :=
  ⟨[(key, value)], List.pairwise_singleton _ _⟩

/-- All entries of two maps; where both have a key, the second one's value stays. -/
def merge (m₁ m₂ : SortedMap K V) : SortedMap K V :=
  ⟨mergeEntries m₁.entries m₂.entries, pairwise_mergeEntries m₁.ascending m₂.ascending⟩

/-- Merges the maps of the two halves of a list, if `fuel` covers how often it can be halved. -/
def ofHalves : (fuel : Nat) → List (K × V) → SortedMap K V
  | 0, l => l.foldl (fun m e => m.insert e.1 e.2) empty
  | fuel + 1, l =>
    match l with
    | [] => empty
    | [e] => singleton e.1 e.2
    | l =>
      let half := l.length / 2
      (ofHalves fuel (l.take half)).merge (ofHalves fuel (l.drop half))

/-- The map of a list of entries; of several entries with one key the last counts. -/
def ofList (l : List (K × V)) : SortedMap K V := ofHalves (l.length.log2 + 1) l

end Building

/-! ### Look-ups -/

/-- The empty map has nothing under any key. -/
@[simp] theorem get?_empty (key : K) : (empty : SortedMap K V).get? key = none := rfl

variable [Std.TransOrd K] [Std.LawfulEqOrd K]

/-- What was placed is found under its key, and under the others what was found before. -/
private theorem lookup_place (key key' : K) (value : V) (l : List (K × V)) :
    lookup key' (place key value l) =
      if compare key' key = .eq then some value else lookup key' l := by
  induction l with
  | nil =>
    unfold place lookup
    split <;> simp_all [lookup]
  | cons head rest ih =>
    obtain ⟨k, v⟩ := head
    unfold place
    split
    case h_1 hc =>
      rw [lookup]
      cases hk : compare key' key with
      | lt =>
        have : compare key' k = .lt := Std.TransCmp.lt_trans hk hc
        simp [this, lookup]
      | eq => simp
      | gt => simp [lookup]
    case h_2 hc =>
      obtain rfl := Std.LawfulEqOrd.eq_of_compare hc
      rw [lookup, lookup]
      cases hk : compare key' key <;> simp
    case h_3 hc =>
      rw [lookup, lookup, ih]
      cases hk : compare key' k with
      | lt =>
        have hlt : compare key' key = .lt := Std.TransCmp.lt_trans hk (gt_iff.mp hc)
        simp [hlt]
      | eq =>
        obtain rfl := Std.LawfulEqOrd.eq_of_compare hk
        simp [gt_iff.mp hc]
      | gt => rfl

/-- After setting a key, it has the new value and every other key the old one. -/
theorem get?_insert (m : SortedMap K V) (key key' : K) (value : V) :
    (m.insert key value).get? key' =
      if compare key' key = .eq then some value else m.get? key' :=
  lookup_place key key' value m.entries

/-- A set key has the value it was set to. -/
@[simp] theorem get?_insert_self (m : SortedMap K V) (key : K) (value : V) :
    (m.insert key value).get? key = some value := by
  simp [get?_insert]

/-- Setting a key leaves the others alone. -/
theorem get?_insert_of_ne (m : SortedMap K V) {key key' : K} (h : key' ≠ key) (value : V) :
    (m.insert key value).get? key' = m.get? key' := by
  rw [get?_insert, if_neg fun hc => h (Std.LawfulEqOrd.eq_of_compare hc)]

/-- In a list with its keys in order everything is found that is in it. -/
private theorem lookup_eq_some_iff {key : K} {value : V} {l : List (K × V)}
    (h : l.Pairwise fun a b => compare a.1 b.1 = .lt) :
    lookup key l = some value ↔ (key, value) ∈ l := by
  induction l with
  | nil => simp [lookup]
  | cons head rest ih =>
    obtain ⟨k, v⟩ := head
    obtain ⟨hhead, hrest⟩ := List.pairwise_cons.mp h
    rw [lookup, List.mem_cons]
    cases hk : compare key k with
    | lt =>
      simp only [reduceCtorEq, false_iff, not_or]
      refine ⟨?_, fun hmem => ?_⟩
      · rintro heq
        cases heq
        simp at hk
      · have := Std.TransCmp.lt_trans hk (hhead _ hmem)
        simp at this
    | eq =>
      obtain rfl := Std.LawfulEqOrd.eq_of_compare hk
      simp only [Option.some.injEq, Prod.mk.injEq, true_and]
      constructor
      · intro heq
        exact .inl heq.symm
      · rintro (heq | hmem)
        · exact heq.symm
        · have := hhead _ hmem
          simp at this
    | gt =>
      rw [ih hrest]
      constructor
      · exact .inr
      · rintro (heq | hmem)
        · cases heq
          simp at hk
        · exact hmem

/-- The entries are the answered look-ups. -/
theorem mem_entries_iff {m : SortedMap K V} {key : K} {value : V} :
    (key, value) ∈ m.entries ↔ m.get? key = some value :=
  (lookup_eq_some_iff m.ascending).symm

/-- The keys are those with a value. -/
theorem mem_keys_iff {m : SortedMap K V} {key : K} :
    key ∈ m.keys ↔ m.contains key = true := by
  simp only [keys, contains, List.mem_map, Prod.exists, exists_and_right, exists_eq_right,
    mem_entries_iff, Option.isSome_iff_exists]

/-- Lists with their keys in order are the same if they have the same members. -/
private theorem eq_of_same_members {l₁ l₂ : List (K × V)}
    (h₁ : l₁.Pairwise fun a b => compare a.1 b.1 = .lt)
    (h₂ : l₂.Pairwise fun a b => compare a.1 b.1 = .lt)
    (h : ∀ e, e ∈ l₁ ↔ e ∈ l₂) : l₁ = l₂ := by
  induction l₁ generalizing l₂ with
  | nil =>
    cases l₂ with
    | nil => rfl
    | cons b l₂ => simpa using (h b).mpr List.mem_cons_self
  | cons a l₁ ih =>
    cases l₂ with
    | nil => simpa using (h a).mp List.mem_cons_self
    | cons b l₂ =>
      obtain ⟨ha, h₁'⟩ := List.pairwise_cons.mp h₁
      obtain ⟨hb, h₂'⟩ := List.pairwise_cons.mp h₂
      have hab : a = b := by
        rcases List.mem_cons.mp ((h a).mp List.mem_cons_self) with heq | hmem
        · exact heq
        · rcases List.mem_cons.mp ((h b).mpr List.mem_cons_self) with heq | hmem'
          · exact heq.symm
          · have := Std.TransCmp.lt_trans (hb _ hmem) (ha _ hmem')
            simp at this
      subst hab
      congr 1
      refine ih h₁' h₂' fun e => ⟨fun he => ?_, fun he => ?_⟩
      · rcases List.mem_cons.mp ((h e).mp (List.mem_cons_of_mem _ he)) with rfl | hmem
        · have := ha _ he
          simp at this
        · exact hmem
      · rcases List.mem_cons.mp ((h e).mpr (List.mem_cons_of_mem _ he)) with rfl | hmem
        · have := hb _ he
          simp at this
        · exact hmem

/-- Maps that answer every look-up alike are equal. -/
theorem ext {m₁ m₂ : SortedMap K V} (h : ∀ key, m₁.get? key = m₂.get? key) : m₁ = m₂ := by
  have heq : m₁.entries = m₂.entries :=
    eq_of_same_members m₁.ascending m₂.ascending fun ⟨key, value⟩ => by
      rw [mem_entries_iff, mem_entries_iff, h]
  cases m₁; cases m₂; cases heq; rfl

/-- A filtered map answers with the values that pass. -/
theorem get?_filter (m : SortedMap K V) (keep : K → V → Bool) (key : K) :
    (m.filter keep).get? key = (m.get? key).filter (keep key) := by
  refine Option.ext fun value => ?_
  rw [← mem_entries_iff, Option.filter_eq_some_iff, ← mem_entries_iff]
  simp [filter, List.mem_filter]

/-- After removing a key, it has no value and every other key the old one. -/
theorem get?_erase (m : SortedMap K V) (key key' : K) :
    (m.erase key).get? key' = if compare key key' = .eq then none else m.get? key' := by
  rw [erase, get?_filter]
  cases m.get? key' <;> cases hc : compare key key' <;> simp [Option.filter]

/-- In a merged list the second one counts first. -/
private theorem lookup_mergeEntries (key : K) {xs : List (K × V)} :
    ∀ {ys : List (K × V)}, xs.Pairwise (fun a b => compare a.1 b.1 = .lt) →
      ys.Pairwise (fun a b => compare a.1 b.1 = .lt) →
      lookup key (mergeEntries xs ys) = (lookup key ys).or (lookup key xs) := by
  induction xs with
  | nil =>
    intro ys _ _
    rw [show mergeEntries [] ys = ys from rfl]
    cases lookup key ys <;> rfl
  | cons x xs ihx =>
    intro ys hx
    obtain ⟨hxh, hxs⟩ := List.pairwise_cons.mp hx
    induction ys with
    | nil =>
      intro hy
      have := @ihx [] hxs hy
      rw [show mergeEntries (x :: xs) [] = x :: mergeEntries xs [] from rfl]
      simp only [lookup, this, Option.none_or]
    | cons y ys ihy =>
      intro hy
      obtain ⟨hyh, hys⟩ := List.pairwise_cons.mp hy
      rw [mergeEntries_cons_cons]
      split
      case h_1 hc =>
        rw [lookup, ihx hxs hy]
        cases hk : compare key x.1 with
        | lt =>
          have hlt : compare key y.1 = .lt := Std.TransCmp.lt_trans hk hc
          simp [lookup, hk, hlt]
        | eq =>
          obtain heq := Std.LawfulEqOrd.eq_of_compare hk
          subst heq
          simp [lookup, hc]
        | gt => simp [lookup, hk]
      case h_2 hc =>
        rw [lookup, ihx hxs hys]
        have heq := Std.LawfulEqOrd.eq_of_compare hc
        cases hk : compare key y.1 with
        | lt => simp [lookup, heq, hk]
        | eq => simp [lookup, hk]
        | gt => simp [lookup, heq, hk]
      case h_3 hc =>
        rw [lookup, ihy hys]
        cases hk : compare key y.1 with
        | lt =>
          have hlt : compare key x.1 = .lt := Std.TransCmp.lt_trans hk (gt_iff.mp hc)
          simp [lookup, hk, hlt]
        | eq => simp [lookup, hk]
        | gt => simp [lookup, hk]

/-- A merged map answers with the second map's value, or else the first one's. -/
theorem get?_merge (m₁ m₂ : SortedMap K V) (key : K) :
    (m₁.merge m₂).get? key = (m₂.get? key).or (m₁.get? key) :=
  lookup_mergeEntries key m₁.ascending m₂.ascending

/-- The value of the last entry with a key. -/
def lastValue? (l : List (K × V)) (key : K) : Option V :=
  (l.reverse.find? fun e => compare key e.1 == .eq).map Prod.snd

omit [Std.TransOrd K] [Std.LawfulEqOrd K] in
/-- Of two lists the last value is in the second one, if it has any. -/
private theorem lastValue?_append (l₁ l₂ : List (K × V)) (key : K) :
    lastValue? (l₁ ++ l₂) key = (lastValue? l₂ key).or (lastValue? l₁ key) := by
  simp only [lastValue?, List.reverse_append, List.find?_append, Option.map_or]

/-- Of insertions under one key the last one counts. -/
private theorem get?_foldl_insert (l : List (K × V)) (m : SortedMap K V) (key : K) :
    (l.foldl (fun m e => m.insert e.1 e.2) m).get? key =
      (lastValue? l key).or (m.get? key) := by
  induction l generalizing m with
  | nil => simp [lastValue?]
  | cons e l ih =>
    rw [List.foldl_cons, ih, get?_insert, show e :: l = [e] ++ l from rfl, lastValue?_append]
    cases hl : lastValue? l key <;> cases hc : compare key e.1 <;> simp [lastValue?, hc]

/-- However a list is halved, the last value under a key counts. -/
private theorem get?_ofHalves (fuel : Nat) (l : List (K × V)) (key : K) :
    (ofHalves fuel l).get? key = lastValue? l key := by
  induction fuel generalizing l with
  | zero => simp [ofHalves, get?_foldl_insert]
  | succ fuel ih =>
    unfold ofHalves
    split
    · rfl
    · next e =>
      simp only [get?, singleton, lookup, lastValue?, List.reverse_singleton, List.find?_singleton]
      cases hc : compare key e.1 <;> simp
    · rw [get?_merge, ih, ih, ← lastValue?_append, List.take_append_drop]

/-- In a list of entries, the last one with a key decides. -/
theorem get?_ofList (l : List (K × V)) (key : K) : (ofList l).get? key = lastValue? l key :=
  get?_ofHalves _ l key

end SortedMap

instance {K V : Type} [Ord K] [DecidableEq K] [DecidableEq V] : DecidableEq (SortedMap K V) :=
  fun a b =>
    if h : a.entries = b.entries then
      isTrue (by cases a; cases b; cases h; rfl)
    else
      isFalse fun heq => h (heq ▸ rfl)

/-! ### Sets -/

/-- A finite set, listed in ascending order. -/
abbrev SortedSet (K : Type) [Ord K] := SortedMap K Unit

namespace SortedSet

variable {K : Type} [Ord K]

/-- The members, ascending. -/
def toList (s : SortedSet K) : List K := s.keys

variable [Std.TransOrd K] [Std.LawfulEqOrd K]

/-- The set with one more member. -/
def insert (s : SortedSet K) (member : K) : SortedSet K := SortedMap.insert s member ()

/-- The set of the members of a list. -/
def ofList (members : List K) : SortedSet K := SortedMap.ofList (members.map fun k => (k, ()))

/-- A member of the set of a list is one of the list. -/
theorem contains_ofList {members : List K} {k : K} :
    (ofList members).contains k = true ↔ k ∈ members := by
  rw [SortedMap.contains, ofList, SortedMap.get?_ofList, SortedMap.lastValue?]
  simp only [Option.isSome_map, List.find?_isSome, List.mem_reverse, List.mem_map, beq_iff_eq,
    Std.LawfulEqOrd.compare_eq_iff_eq]
  constructor
  · rintro ⟨e, ⟨a, ha, rfl⟩, rfl⟩
    exact ha
  · intro hk
    exact ⟨(k, ()), ⟨k, hk, rfl⟩, rfl⟩

end SortedSet

end SignedRefs
