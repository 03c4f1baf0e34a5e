import Mathlib.Data.List.Nodup
import Mathlib.Data.Set.List
import SignedRefs.Proofs.Store.Keeping

/-!
# Listing What Is Stored

What is stored is a namespace or none in every place (`Contents`). A store that holds some contents
answers look-ups with them, and so it answers the questions for whole repositories: it lists the
identities and repositories in ascending order. In memory this order is that of the places. In a
database it is that of the bytes in the columns, and the rows have to be in places of namespaces
(`Store.InPlace`), for otherwise there is nothing to list them as. Saving a namespace keeps this up.

## Main results

* `Lists.unique`: there is one way to list something.
* `Store.Holds.exists_identities`, `Store.Holds.exists_snapshot`,
  `Store.Holds.exists_repositories`: what a store answers.
* `Store.Holds.save`: what a store holds after a namespace was saved.
-/

namespace SignedRefs

/-! ### Lists in order -/

/-- A list of everything that has a property, ascending. -/
structure Lists {K : Type} [Ord K] (l : List K) (p : K → Prop) : Prop where
  /-- Each member is below all later ones. -/
  ascending : l.Pairwise fun a b => compare a b = .lt
  /-- The members are what has the property. -/
  mem_iff : ∀ k, k ∈ l ↔ p k

namespace Lists

variable {K V : Type} [Ord K] {l l' : List K} {p : K → Prop}

/-- Nothing is listed twice. -/
theorem nodup [Std.LawfulEqOrd K] (h : Lists l p) : l.Nodup := by
  refine List.nodup_iff_pairwise_ne.mpr (h.ascending.imp fun hlt heq => ?_)
  simp [heq] at hlt

/-- There is one way to list something. -/
theorem unique [Std.TransOrd K] [Std.LawfulEqOrd K] (h : Lists l p) (h' : Lists l' p) :
    l = l' := by
  have hperm : l.Perm l' := (List.perm_ext_iff_of_nodup h.nodup h'.nodup).mpr fun k => by
    rw [h.mem_iff, h'.mem_iff]
  refine hperm.eq_of_pairwise (fun a b _ _ hab hba => ?_) h.ascending h'.ascending
  exact absurd hba (Std.OrientedCmp.not_lt_of_lt hab)

/-- The keys of a map list what it has values for. -/
theorem keys [Std.TransOrd K] [Std.LawfulEqOrd K] (m : SortedMap K V) :
    Lists m.keys fun k => ∃ value, m.get? k = some value :=
  ⟨List.pairwise_map.mpr m.ascending, fun k => by
    rw [SortedMap.mem_keys_iff, SortedMap.contains_eq_true_iff]⟩

/-- What a list lists may be described otherwise. -/
theorem congr {q : K → Prop} (h : Lists l p) (hpq : ∀ k, p k ↔ q k) : Lists l q :=
  ⟨h.ascending, fun k => (h.mem_iff k).trans (hpq k)⟩

variable [Std.TransOrd K] [Std.LawfulEqOrd K]

/-- A set lists its members. -/
theorem members (members : List K) : Lists (SortedSet.ofList members).toList (· ∈ members) :=
  (keys _).congr fun _ => SortedMap.contains_eq_true_iff.symm.trans SortedSet.contains_ofList

/-- Where keys have two parts, the first of which decides, selecting the keys with some first part
lists the second parts. -/
theorem secondParts {A B : Type} [Ord B] (m : SortedMap K V) (make : A → B → K) {first : K → A}
    {second : K → B} (hmake : ∀ k, make (first k) (second k) = k)
    (hfirst : ∀ a b, first (make a b) = a) (hsecond : ∀ a b, second (make a b) = b)
    (hcompare : ∀ k k', first k = first k' → compare k k' = compare (second k) (second k'))
    {a : A} {selects : K → Bool} (hselects : ∀ k, selects k = true ↔ first k = a) :
    Lists ((m.keys.filter selects).map second) fun b =>
      ∃ value, m.get? (make a b) = some value := by
  constructor
  · refine List.pairwise_map.mpr (((keys m).ascending.filter _).imp_of_mem fun hk hk' hlt => ?_)
    have heq := (hselects _).mp (List.mem_filter.mp hk).2
    have heq' := (hselects _).mp (List.mem_filter.mp hk').2
    rwa [← hcompare _ _ (heq.trans heq'.symm)]
  · intro b
    rw [← (keys m).mem_iff, List.mem_map]
    constructor
    · rintro ⟨k, hk, rfl⟩
      obtain ⟨hmem, hselected⟩ := List.mem_filter.mp hk
      rwa [← (hselects k).mp hselected, hmake]
    · intro hmem
      exact ⟨make a b, List.mem_filter.mpr ⟨hmem, (hselects _).mpr (hfirst a b)⟩, hsecond a b⟩

omit [Std.TransOrd K] [Std.LawfulEqOrd K] in
/-- Keys are listed by listing the columns in which they are kept, if these are ordered alike. -/
theorem exists_keys {column : K → Bytes} {columns : List Bytes} {q : Bytes → Prop}
    (hinjective : Function.Injective column)
    (hcompare : ∀ a b, compare a b = compare (column a) (column b)) (h : Lists columns q)
    (hkept : ∀ bytes, q bytes → ∃ k, column k = bytes) :
    ∃ l, columns = l.map column ∧ Lists l fun k => q (column k) := by
  obtain ⟨l, rfl⟩ : columns ∈ Set.range (List.map column) := by
    rw [Set.range_list_map]
    exact fun bytes hmem => hkept bytes ((h.mem_iff bytes).mp hmem)
  refine ⟨l, rfl, (List.pairwise_map.mp h.ascending).imp fun hlt => (hcompare _ _).trans hlt,
    fun k => ?_⟩
  rw [← List.mem_map_of_injective hinjective, h.mem_iff]

end Lists

/-! ### Columns of a database -/

/-- A list is read off some columns if these are what is kept for its members. -/
theorem mapM_eq_ok_iff_columns {α β ε : Type} {f : α → Except ε β} {kept : β → Bytes}
    {column : α → Bytes} (hf : ∀ a b, f a = .ok b ↔ kept b = column a) {l : List α}
    {out : List β} : l.mapM f = .ok out ↔ l.map column = out.map kept := by
  rw [mapM_eq_ok_iff, ← List.forall₂_eq_eq_eq, List.forall₂_map_left_iff,
    List.forall₂_map_right_iff]
  simp only [hf, eq_comm]

/-- Within a repository, rows are ordered as their identities. -/
theorem RowKey.compare_of_repo_eq {place place' : RowKey} (h : place.repo = place'.repo) :
    compare place place' = compare place.identity place'.identity := by
  have hlex : compare place place' =
      (compare place.repo place'.repo).then (compare place.identity place'.identity) := rfl
  rw [hlex, h, Std.ReflOrd.compare_self]
  rfl

/-- Different identities have different bytes. -/
theorem PeerId.bytes_injective : Function.Injective PeerId.bytes := by
  rintro ⟨key⟩ ⟨key'⟩ h
  exact congrArg PeerId.mk (FixedBytes.ext h)

/-- Different repositories have different bytes. -/
theorem RepoId.bytes_injective : Function.Injective RepoId.bytes := by
  rintro ⟨value⟩ ⟨value'⟩ h
  exact congrArg RepoId.mk (FixedBytes.ext h)

namespace Database

variable {db after : Database} {rows : SortedMap RowKey Row} {repo : RepoId} {identity : PeerId}

/-- A repository is read from its bytes. -/
theorem readRepository_eq_ok_iff {column : Bytes} :
    readRepository column = .ok repo ↔ repo.bytes = column := by
  obtain ⟨value⟩ := repo
  rw [readRepository]
  cases hvalue : (FixedBytes.ofBytes? column : Option (FixedBytes 32)) with
  | none =>
      refine iff_of_false (fun h => by cases h) fun h => ?_
      rw [FixedBytes.ofBytes?_eq_some_iff.mpr h] at hvalue
      cases hvalue
  | some found =>
      rw [← FixedBytes.ofBytes?_eq_some_iff.mp hvalue]
      constructor
      · intro h
        cases h
        rfl
      · intro h
        obtain rfl : value = found := FixedBytes.ext h
        rfl

/-- Every row is in the place of a namespace. -/
def InPlace (db : Database) : Prop :=
  ∀ rows, db.table = some rows → ∀ place row, rows.get? place = some row →
    ∃ repo identity, place = key repo identity

/-- Saving keeps everything in the places of namespaces. -/
theorem InPlace.save {new : Namespace} (h : db.InPlace) (hsave : db.save new = .ok after) :
    after.InPlace := by
  obtain ⟨rows, bytes, hrows, -, rfl⟩ := save_eq_ok_iff.mp hsave
  rintro _ ⟨⟩ place row hget
  by_cases hplace : place = key new.repo new.identity
  · exact ⟨_, _, hplace⟩
  · rw [SortedMap.get?_insert_of_ne _ hplace] at hget
    exact h rows hrows place row hget

/-- A namespace is found where there is a row. -/
theorem exists_row_iff (hrows : db.table = some rows) {found : Option Namespace}
    (h : db.load repo identity = .ok found) :
    (∃ row, rows.get? (key repo identity) = some row) ↔ ∃ n, found = some n := by
  rw [load_eq hrows] at h
  cases hrow : rows.get? (key repo identity) with
  | none =>
      rw [hrow] at h
      cases h
      simp
  | some row =>
      rw [hrow, map_eq_ok_iff] at h
      obtain ⟨n, -, rfl⟩ := h
      simp

variable {contents : PeerId → Option Namespace}

/-- The rows of a repository list the column of identities. -/
theorem lists_identityColumns (rows : SortedMap RowKey Row) (repo : Bytes) :
    Lists ((rows.entries.filter fun e => e.1.repo == repo).map fun e => e.1.identity)
      fun column => ∃ row, rows.get? ⟨repo, column⟩ = some row := by
  have hselects (key : RowKey) : (key.repo == repo) = true ↔ key.repo = repo := beq_iff_eq
  have hlists := Lists.secondParts rows RowKey.mk (fun _ => rfl) (fun _ _ => rfl) (fun _ _ => rfl)
    (fun _ _ => RowKey.compare_of_repo_eq) hselects
  rwa [SortedMap.keys, List.filter_map, List.map_map] at hlists

/-- The identities with a namespace are listed in the order of their column. -/
theorem exists_identities (hplace : db.InPlace)
    (hload : ∀ identity, db.load repo identity = .ok (contents identity)) :
    ∃ ids, db.identities repo = .ok ids ∧
      Lists ids fun identity => ∃ n, contents identity = some n := by
  obtain ⟨rows, hrows⟩ := exists_table_of_load (hload ⟨.replicate 32 0⟩)
  obtain ⟨ids, hids, hlists⟩ := Lists.exists_keys PeerId.bytes_injective (fun _ _ => rfl)
    (lists_identityColumns rows repo.bytes) fun column ⟨row, hrow⟩ => by
      obtain ⟨repo', identity, heq⟩ := hplace rows hrows _ row hrow
      exact ⟨identity, (congrArg RowKey.identity heq).symm⟩
  refine ⟨ids, bind_eq_ok_iff.mpr ⟨_, bind_eq_ok_iff.mpr ⟨rows, rows_eq_ok_iff.mpr hrows, rfl⟩, ?_⟩,
    hlists.congr fun identity => exists_row_iff hrows (hload identity)⟩
  exact (mapM_eq_ok_iff_columns fun _ _ => readIdentity_eq_ok_iff).mpr hids

/-- The repositories with a namespace are listed in the order of their column. -/
theorem exists_repositories {contents : RepoId → PeerId → Option Namespace} (hplace : db.InPlace)
    (hload : ∀ repo identity, db.load repo identity = .ok (contents repo identity)) :
    ∃ repos, db.repositories = .ok repos ∧
      Lists repos fun repo => ∃ identity n, contents repo identity = some n := by
  obtain ⟨rows, hrows⟩ := exists_table_of_load (hload ⟨.replicate 32 0⟩ ⟨.replicate 32 0⟩)
  have hkey : ∀ {column : Bytes}, column ∈ rows.keys.map RowKey.repo →
      ∃ repo identity row, rows.get? (key repo identity) = some row ∧ repo.bytes = column := by
    intro column hmem
    obtain ⟨place, hplace', rfl⟩ := List.mem_map.mp hmem
    obtain ⟨row, hrow⟩ := (Lists.keys rows).mem_iff place |>.mp hplace'
    obtain ⟨repo, identity, rfl⟩ := hplace rows hrows place row hrow
    exact ⟨repo, identity, row, hrow, rfl⟩
  obtain ⟨repos, hrepos, hlists⟩ := Lists.exists_keys RepoId.bytes_injective (fun _ _ => rfl)
    (Lists.members (rows.keys.map RowKey.repo)) fun column hmem => by
      obtain ⟨repo, -, -, -, heq⟩ := hkey hmem
      exact ⟨repo, heq⟩
  refine ⟨repos, bind_eq_ok_iff.mpr ⟨rows, rows_eq_ok_iff.mpr hrows,
    (mapM_eq_ok_iff_columns fun _ _ => readRepository_eq_ok_iff).mpr ?_⟩,
    hlists.congr fun repo => ?_⟩
  · rw [← hrepos, List.map_id']
  · simp only [← exists_row_iff hrows (hload _ _)]
    constructor
    · intro hmem
      obtain ⟨repo', identity, row, hrow, heq⟩ := hkey hmem
      obtain rfl := RepoId.bytes_injective heq
      exact ⟨identity, row, hrow⟩
    · rintro ⟨identity, row, hrow⟩
      exact List.mem_map.mpr
        ⟨key repo identity, (Lists.keys rows).mem_iff _ |>.mpr ⟨row, hrow⟩, rfl⟩

/-- All namespaces of a repository can be read if each of them can. -/
theorem exists_loadAll {contents : PeerId → Option Namespace} (hplace : db.InPlace)
    (hload : ∀ identity, db.load repo identity = .ok (contents identity)) :
    ∃ found, db.loadAll repo = .ok found := by
  obtain ⟨rows, hrows⟩ := exists_table_of_load (hload ⟨.replicate 32 0⟩)
  refine ⟨_, loadAll_eq_ok_iff.mpr ⟨rows, hrows, fun e he => ?_, rfl⟩⟩
  obtain ⟨hrow, hrepo⟩ := mem_rowsOf_iff.mp he
  obtain ⟨repo', identity, heq⟩ := hplace rows hrows _ _ hrow
  rw [heq] at hrow hrepo
  obtain rfl : repo' = repo := RepoId.bytes_injective hrepo
  have hread := hload identity
  rw [load_eq hrows, hrow, map_eq_ok_iff] at hread
  obtain ⟨n, hn, -⟩ := hread
  exact ⟨(identity, n), readEntry_eq_ok_iff.mpr ⟨by rw [heq]; rfl, hn⟩⟩

end Database

/-! ### What a store holds -/

/-- A namespace or none in every place. -/
abbrev Contents := RepoId → PeerId → Option Namespace

/-- The contents after a namespace was put in its place. -/
def Contents.save (contents : Contents) (new : Namespace) : Contents := fun repo identity =>
  if repo = new.repo ∧ identity = new.identity then some new else contents repo identity

namespace Store

/-- What is stored is in the places of namespaces. -/
def InPlace : Store → Prop
  | .memory _ => True
  | .database db => db.InPlace

/-- A store holds some contents: look-ups find them, and nothing is out of place. -/
structure Holds (store : Store) (contents : Contents) : Prop where
  /-- Look-ups find the contents. -/
  load : ∀ repo identity, store.load repo identity = .ok (contents repo identity)
  /-- Nothing is out of place. -/
  inPlace : store.InPlace

namespace Holds

variable {store after : Store} {contents : Contents} {new : Namespace}

/-- A namespace can be saved. -/
theorem exists_save (h : store.Holds contents) (new : Namespace) :
    ∃ after, store.save new = .ok after :=
  Store.exists_save (h.load new.repo new.identity) new

/-- Saving a namespace puts it in its place. -/
theorem save (h : store.Holds contents) (hsave : store.save new = .ok after) :
    after.Holds (contents.save new) := by
  refine ⟨fun repo identity => ?_, ?_⟩
  · rw [load_of_save hsave, h.load, Contents.save]
    split <;> rfl
  · have hplace := h.inPlace
    cases store with
    | memory namespaces =>
        cases hsave
        trivial
    | database db =>
        obtain ⟨db', hdb, rfl⟩ := map_eq_ok_iff.mp hsave
        exact hplace.save hdb

/-- The identities of a repository are listed in ascending order. -/
theorem exists_identities (h : store.Holds contents) (repo : RepoId) :
    ∃ ids, store.identities repo = .ok ids ∧
      Lists ids fun identity => ∃ n, contents repo identity = some n := by
  cases store with
  | memory namespaces =>
      have hselects (place : Place) : place.inRange repo = true ↔ place.repo = repo :=
        Place.inRange_iff
      have hlists := Lists.secondParts namespaces Place.mk (fun _ => rfl) (fun _ _ => rfl)
        (fun _ _ => rfl) (fun _ _ => Place.compare_of_repo_eq) hselects
      refine ⟨_, rfl, hlists.congr fun identity => ?_⟩
      rw [← Except.ok.inj (h.load repo identity)]
  | database db => exact Database.exists_identities h.inPlace (h.load repo)

/-- A snapshot shows the contents of a repository. -/
theorem exists_snapshot (h : store.Holds contents) (repo : RepoId) :
    ∃ s, store.snapshot repo = .ok s ∧ s.repo = repo ∧
      ∀ identity, s.get? identity = contents repo identity := by
  obtain ⟨s, hs, hrepo⟩ : ∃ s, store.snapshot repo = .ok s ∧ s.repo = repo := by
    cases store with
    | memory namespaces => exact ⟨_, rfl, rfl⟩
    | database db =>
        obtain ⟨found, hfound⟩ := Database.exists_loadAll h.inPlace (h.load repo)
        exact ⟨_, map_eq_ok_iff.mpr ⟨found, hfound, rfl⟩, rfl⟩
  refine ⟨s, hs, hrepo, fun identity => ?_⟩
  have hload := load_of_snapshot hs identity
  rw [h.load, Except.ok.injEq] at hload
  exact hload.symm

/-- The repositories are listed in ascending order. -/
theorem exists_repositories (h : store.Holds contents) :
    ∃ repos, store.repositories = .ok repos ∧
      Lists repos fun repo => ∃ identity n, contents repo identity = some n := by
  cases store with
  | memory namespaces =>
      refine ⟨_, rfl, (Lists.members _).congr fun repo => ?_⟩
      simp only [← Except.ok.inj (h.load repo _), List.mem_map, (Lists.keys namespaces).mem_iff]
      constructor
      · rintro ⟨⟨_, identity⟩, ⟨n, hn⟩, rfl⟩
        exact ⟨identity, n, hn⟩
      · rintro ⟨identity, n, hn⟩
        exact ⟨⟨repo, identity⟩, ⟨n, hn⟩, rfl⟩
  | database db => exact Database.exists_repositories h.inPlace h.load

end Holds

end Store

end SignedRefs
