import SignedRefs.Proofs.Manifest.Encoding
import SignedRefs.Store

/-!
# Keeping and Finding Namespaces

A store is looked at through `Store.load`. What `Store.save` does to these answers is the same in
memory and in a database: the place of the namespace has it, and every other place what it had
before. A database keeps manifests in the form in which they are sent, so this rests on reading
them back.

## Main results

* `Namespace.ofSigned_eq_ok_iff`: which namespace a signed manifest makes.
* `Database.readRow_encode`: a row is read back.
* `Place.inRange_iff`: the places of a repository are a range.
* `Store.exists_save`, `Store.load_of_save`: what saving does to look-ups.
* `Store.load_of_snapshot`, `Store.snapshot_of_save`: the same for snapshots.
-/

namespace SignedRefs

namespace Namespace

variable {signed : SignedManifest} {receivedAt : Int64} {n : Namespace}

/-- A namespace is the signed manifest it was made of, received at the given time. -/
theorem ofSigned_eq_ok_iff :
    ofSigned signed receivedAt = .ok n ↔ n.signed = signed ∧ n.receivedAt = receivedAt := by
  obtain ⟨signed', record, receivedAt', hrecord⟩ := n
  unfold ofSigned
  split
  · next found hfound =>
      constructor
      · intro h
        cases h
        exact ⟨rfl, rfl⟩
      · rintro ⟨rfl, rfl⟩
        rw [hrecord] at hfound
        cases hfound
        rfl
  · next error herror =>
      refine iff_of_false (fun h => by cases h) ?_
      rintro ⟨rfl, rfl⟩
      rw [hrecord] at herror
      cases herror

/-- The repository of a namespace is that of its signed manifest. -/
theorem repo_of_signed (h : n.signed = signed) : n.repo = signed.manifest.repo := by
  rw [repo, manifest, h]

/-- The owner of a namespace is that of its signed manifest. -/
theorem identity_of_signed (h : n.signed = signed) : n.identity = signed.manifest.identity := by
  rw [identity, manifest, h]

/-- The number of a namespace is that of its signed manifest. -/
theorem sequence_of_signed (h : n.signed = signed) : n.sequence = signed.manifest.sequence := by
  rw [sequence, manifest, h]

/-- Every namespace can be sent. -/
theorem exists_encode (n : Namespace) : ∃ bytes, n.signed.encode = .ok bytes := by
  obtain ⟨bytes, h, -⟩ := bind_eq_ok_iff.mp n.record_eq
  exact ⟨bytes, h⟩

/-- A signed manifest that follows the rules makes a namespace. -/
theorem exists_ofSigned (h : signed.manifest.validate = .ok ()) (receivedAt : Int64) :
    ∃ n, ofSigned signed receivedAt = .ok n := by
  have hrecord : signed.recordId = .ok (ObjectId.digest _) :=
    bind_eq_ok_iff.mpr ⟨_, SignedManifest.encode_of_validate h, rfl⟩
  exact ⟨⟨signed, _, receivedAt, hrecord⟩, ofSigned_eq_ok_iff.mpr ⟨rfl, rfl⟩⟩

end Namespace

/-! ### Databases -/

namespace Database

variable {db after : Database} {repo repo' : RepoId} {identity identity' : PeerId}
  {new : Namespace}

/-- Different places have different keys. -/
theorem key_eq_iff :
    key repo identity = key repo' identity' ↔ repo = repo' ∧ identity = identity' := by
  obtain ⟨⟨_, _⟩⟩ := repo
  obtain ⟨⟨_, _⟩⟩ := repo'
  obtain ⟨⟨_, _⟩⟩ := identity
  obtain ⟨⟨_, _⟩⟩ := identity'
  simp [key, RepoId.bytes, PeerId.bytes]

/-- A namespace is read back from its row. -/
theorem readRow_encode {bytes : Bytes} (h : new.signed.encode = .ok bytes) :
    readRow ⟨bytes, new.receivedAt⟩ = .ok new := by
  have hdecode : SignedManifest.decode bytes = .ok new.signed := SignedManifest.decode_encode h
  have hsigned : Namespace.ofSigned new.signed new.receivedAt = .ok new :=
    Namespace.ofSigned_eq_ok_iff.mpr ⟨rfl, rfl⟩
  unfold readRow
  rw [hdecode]
  dsimp only
  rw [hsigned]

/-- There are rows if there is a table. -/
theorem rows_eq_ok_iff {rows : SortedMap RowKey Row} :
    db.rows = .ok rows ↔ db.table = some rows := by
  rw [Database.rows]
  cases db.table with
  | none => simp
  | some found => simp

/-- A database whose table is there takes a namespace into one row. -/
theorem save_eq_ok_iff : db.save new = .ok after ↔ ∃ rows bytes, db.table = some rows ∧
    new.signed.encode = .ok bytes ∧
      after = { db with
        table := some (rows.insert (key new.repo new.identity) ⟨bytes, new.receivedAt⟩) } := by
  obtain ⟨bytes, hbytes⟩ := new.exists_encode
  simp only [save, hbytes, bind_eq_ok_iff, rows_eq_ok_iff, pure, Except.pure, Except.ok.injEq,
    exists_eq_left', exists_and_left]
  exact exists_congr fun rows => and_congr_right fun _ => eq_comm

/-- Where a look-up succeeds there is a table. -/
theorem exists_table_of_load {found : Option Namespace} (h : db.load repo identity = .ok found) :
    ∃ rows, db.table = some rows := by
  obtain ⟨rows, hrows, -⟩ := bind_eq_ok_iff.mp h
  exact ⟨rows, rows_eq_ok_iff.mp hrows⟩

/-- A look-up reads the row in its place. -/
theorem load_eq {rows : SortedMap RowKey Row} (h : db.table = some rows) :
    db.load repo identity = match rows.get? (key repo identity) with
      | some row => (readRow row).map some
      | none => .ok none := by
  rw [load, rows_eq_ok_iff.mpr h]
  simp only [bind, Except.bind, pure, Except.pure]
  cases rows.get? (key repo identity) with
  | none => rfl
  | some row => cases readRow row <;> rfl

/-- A saved namespace is in its row, and the other rows stay. -/
theorem load_of_save (h : db.save new = .ok after) (repo : RepoId) (identity : PeerId) :
    after.load repo identity =
      if repo = new.repo ∧ identity = new.identity then .ok (some new)
      else db.load repo identity := by
  obtain ⟨rows, bytes, hrows, hbytes, rfl⟩ := save_eq_ok_iff.mp h
  rw [load_eq rfl, load_eq hrows]
  by_cases hplace : repo = new.repo ∧ identity = new.identity
  · rw [if_pos hplace, key_eq_iff.mpr hplace, SortedMap.get?_insert_self]
    dsimp only
    rw [readRow_encode hbytes]
    rfl
  · rw [if_neg hplace, SortedMap.get?_insert_of_ne _ (key_eq_iff.not.mpr hplace)]

/-- What `loadAll` makes of a row. -/
def readEntry (e : RowKey × Row) : Except StoreError (PeerId × Namespace) := do
  return (← readIdentity e.1.identity, ← readRow e.2)

/-- An identity is read from its bytes. -/
theorem readIdentity_eq_ok_iff {column : Bytes} :
    readIdentity column = .ok identity ↔ identity.bytes = column := by
  obtain ⟨key⟩ := identity
  rw [readIdentity]
  cases hkey : (FixedBytes.ofBytes? column : Option (FixedBytes 32)) with
  | none =>
      refine iff_of_false (fun h => by cases h) fun h => ?_
      rw [FixedBytes.ofBytes?_eq_some_iff.mpr h] at hkey
      cases hkey
  | some found =>
      rw [← FixedBytes.ofBytes?_eq_some_iff.mp hkey]
      constructor
      · intro h
        cases h
        rfl
      · intro h
        obtain rfl : key = found := FixedBytes.ext h
        rfl

/-- A row is read if its identity and its namespace are. -/
theorem readEntry_eq_ok_iff {e : RowKey × Row} {n : Namespace} :
    readEntry e = .ok (identity, n) ↔ identity.bytes = e.1.identity ∧ readRow e.2 = .ok n := by
  rw [← readIdentity_eq_ok_iff, readEntry, bind_eq_ok_iff]
  simp only [bind_eq_ok_iff, pure, Except.pure, Except.ok.injEq, Prod.mk.injEq]
  constructor
  · rintro ⟨_, hidentity, _, hrow, rfl, rfl⟩
    exact ⟨hidentity, hrow⟩
  · rintro ⟨hidentity, hrow⟩
    exact ⟨identity, hidentity, n, hrow, rfl, rfl⟩

/-- The rows of a repository are read if each of them is. -/
theorem loadAll_eq_ok_iff {found : SortedMap PeerId Namespace} :
    db.loadAll repo = .ok found ↔ ∃ rows, db.table = some rows ∧
      (∀ e ∈ rows.entries.filter fun e => e.1.repo == repo.bytes, ∃ b, readEntry e = .ok b) ∧
        found = .ofList ((rows.entries.filter fun e => e.1.repo == repo.bytes).filterMap
          fun e => (readEntry e).toOption) := by
  have hloadAll : db.loadAll repo = db.rowsOf repo >>= fun l =>
      l.mapM readEntry >>= fun found => .ok (.ofList found) := rfl
  simp only [hloadAll, rowsOf, bind_eq_ok_iff, rows_eq_ok_iff, mapM_eq_ok_iff_filterMap, pure,
    Except.pure, Except.ok.injEq]
  constructor
  · rintro ⟨_, ⟨rows, hrows, rfl⟩, _, ⟨hall, rfl⟩, rfl⟩
    exact ⟨rows, hrows, hall, rfl⟩
  · rintro ⟨rows, hrows, hall, rfl⟩
    exact ⟨_, ⟨rows, hrows, rfl⟩, _, ⟨hall, rfl⟩, rfl⟩

/-- The rows of a repository are those with its bytes in their column. -/
theorem mem_rowsOf_iff {rows : SortedMap RowKey Row} {e : RowKey × Row} :
    e ∈ rows.entries.filter (fun e => e.1.repo == repo.bytes) ↔
      rows.get? e.1 = some e.2 ∧ e.1.repo = repo.bytes := by
  obtain ⟨key, row⟩ := e
  rw [List.mem_filter, SortedMap.mem_entries_iff, beq_iff_eq]

/-- All namespaces of a repository, one by one. -/
theorem load_of_loadAll {found : SortedMap PeerId Namespace} (h : db.loadAll repo = .ok found)
    (identity : PeerId) : db.load repo identity = .ok (found.get? identity) := by
  obtain ⟨rows, hrows, hall, rfl⟩ := loadAll_eq_ok_iff.mp h
  have hnodup : ((rows.entries.filter fun e => e.1.repo == repo.bytes).map Prod.fst).Nodup :=
    rows.nodup_keys.sublist (List.filter_sublist.map _)
  have hget : ∀ n, (SortedMap.ofList ((rows.entries.filter fun e =>
      e.1.repo == repo.bytes).filterMap fun e => (readEntry e).toOption)).get? identity = some n ↔
        ∃ row, rows.get? (key repo identity) = some row ∧ readRow row = .ok n := by
    intro n
    rw [SortedMap.get?_ofList_filterMap hnodup]
    · constructor
      · rintro ⟨⟨⟨_, _⟩, row⟩, he, hread⟩
        obtain ⟨hrow, rfl⟩ := mem_rowsOf_iff.mp he
        obtain ⟨rfl, hread⟩ := readEntry_eq_ok_iff.mp (toOption_eq_some_iff.mp hread)
        exact ⟨row, hrow, hread⟩
      · rintro ⟨row, hrow, hread⟩
        exact ⟨(key repo identity, row), mem_rowsOf_iff.mpr ⟨hrow, rfl⟩,
          toOption_eq_some_iff.mpr (readEntry_eq_ok_iff.mpr ⟨rfl, hread⟩)⟩
    · rintro ⟨⟨_, _⟩, row⟩ he ⟨⟨_, _⟩, row'⟩ he' ⟨id, n⟩ ⟨id', n'⟩ hread hread' heq
      obtain ⟨-, hrepo⟩ := mem_rowsOf_iff.mp he
      obtain ⟨-, hrepo'⟩ := mem_rowsOf_iff.mp he'
      obtain ⟨hid, -⟩ := readEntry_eq_ok_iff.mp (toOption_eq_some_iff.mp hread)
      obtain ⟨hid', -⟩ := readEntry_eq_ok_iff.mp (toOption_eq_some_iff.mp hread')
      simp only at hrepo hrepo' hid hid' heq
      rw [hrepo, hrepo', ← hid, ← hid', heq]
  rw [load_eq hrows]
  cases hrow : rows.get? (key repo identity) with
  | none =>
      refine congrArg Except.ok (Option.eq_none_iff_forall_ne_some.mpr fun n hn => ?_).symm
      obtain ⟨row, hsome, -⟩ := (hget n).mp hn
      rw [hrow] at hsome
      cases hsome
  | some row =>
      obtain ⟨⟨id, n⟩, hread⟩ := hall (key repo identity, row) (mem_rowsOf_iff.mpr ⟨hrow, rfl⟩)
      have hn := (readEntry_eq_ok_iff.mp hread).2
      rw [(hget n).mpr ⟨row, hrow, hn⟩]
      dsimp only
      rw [hn]
      rfl

/-- Where all namespaces of a repository can be read, they still can after one was saved. -/
theorem exists_loadAll_of_save {found : SortedMap PeerId Namespace} (h : db.save new = .ok after)
    (hfound : db.loadAll repo = .ok found) : ∃ found', after.loadAll repo = .ok found' := by
  obtain ⟨rows, bytes, hrows, hbytes, rfl⟩ := save_eq_ok_iff.mp h
  obtain ⟨_, hrows', hall, -⟩ := loadAll_eq_ok_iff.mp hfound
  rw [hrows] at hrows'
  cases hrows'
  refine ⟨_, loadAll_eq_ok_iff.mpr ⟨_, rfl, fun e he => ?_, rfl⟩⟩
  obtain ⟨hget, hrepo⟩ := mem_rowsOf_iff.mp he
  by_cases hkey : e.1 = key new.repo new.identity
  · rw [hkey, SortedMap.get?_insert_self] at hget
    refine ⟨(new.identity, new), readEntry_eq_ok_iff.mpr ⟨by rw [hkey]; rfl, ?_⟩⟩
    rw [← Option.some.inj hget]
    exact readRow_encode hbytes
  · rw [SortedMap.get?_insert_of_ne _ hkey] at hget
    exact hall e (mem_rowsOf_iff.mpr ⟨hget, hrepo⟩)

end Database

/-! ### Repositories as ranges -/

/-- Bytes that are nowhere higher do not come behind. -/
theorem Bytes.isLE_compare {bytes bytes' : Bytes} (h : List.Forall₂ (· ≤ ·) bytes bytes') :
    (compare bytes bytes').isLE := by
  induction h with
  | nil => rfl
  | cons hle _ ih =>
      rw [List.compare_cons_cons, Ordering.isLE_then_iff_or]
      rcases Std.le_iff_lt_or_eq.mp hle with hlt | rfl
      · exact .inl (Std.compare_eq_lt.mpr hlt)
      · exact .inr ⟨Std.ReflOrd.compare_self, ih⟩

/-- No bytes come before as many zeros. -/
theorem Bytes.isLE_compare_zeros (bytes : Bytes) :
    (compare (List.replicate bytes.length 0) bytes).isLE := by
  refine isLE_compare (List.forall₂_iff_zip.mpr ⟨List.length_replicate, fun hmem => ?_⟩)
  rw [List.eq_of_mem_replicate (List.of_mem_zip hmem).1]
  exact UInt8.zero_le

/-- No bytes come behind as many of the highest ones. -/
theorem Bytes.isLE_compare_ones (bytes : Bytes) :
    (compare bytes (List.replicate bytes.length 0xff)).isLE := by
  refine isLE_compare (List.forall₂_iff_zip.mpr ⟨List.length_replicate.symm, fun hmem => ?_⟩)
  rw [List.eq_of_mem_replicate (List.of_mem_zip hmem).2]
  exact UInt8.le_iff_toNat_le.mpr (Nat.le_of_lt_succ (UInt8.toNat_lt _))

namespace Place

variable {repo : RepoId} {place place' : Place}

/-- The repository decides first, then the identity. -/
theorem compare_eq : compare place place' =
    (compare place.repo place'.repo).then (compare place.identity place'.identity) := rfl

/-- Within a repository, places are ordered as their identities. -/
theorem compare_of_repo_eq (h : place.repo = place'.repo) :
    compare place place' = compare place.identity place'.identity := by
  rw [compare_eq, h, Std.ReflOrd.compare_self]
  rfl

/-- The range of a repository is made of its places. -/
theorem inRange_iff : place.inRange repo = true ↔ place.repo = repo := by
  rw [inRange, Bool.and_eq_true]
  constructor
  · rintro ⟨hlow, hhigh⟩
    rw [compare_eq, Ordering.isLE_then_iff_or] at hlow hhigh
    have hlow' : compare repo place.repo = .lt ∨ compare repo place.repo = .eq :=
      hlow.imp_right And.left
    have hhigh' : compare place.repo repo = .lt ∨ compare place.repo repo = .eq :=
      hhigh.imp_right And.left
    rcases hhigh' with hlt | heq
    · rw [Std.OrientedOrd.eq_swap, hlt] at hlow'
      simp at hlow'
    · exact Std.LawfulEqOrd.eq_of_compare heq
  · intro h
    obtain ⟨repo', ⟨⟨bytes, hlength⟩⟩⟩ := place
    obtain rfl : repo' = repo := h
    rw [compare_of_repo_eq (by rfl), compare_of_repo_eq (by rfl)]
    have hlow := Bytes.isLE_compare_zeros bytes
    have hhigh := Bytes.isLE_compare_ones bytes
    rw [hlength] at hlow hhigh
    exact ⟨hlow, hhigh⟩

end Place

/-! ### Saving -/

namespace Store

variable {store after : Store} {repo : RepoId} {identity : PeerId} {new : Namespace}

/-- What answers look-ups can also be written to. -/
theorem exists_save {found : Option Namespace} (h : store.load repo identity = .ok found)
    (new : Namespace) : ∃ after, store.save new = .ok after := by
  cases store with
  | memory namespaces => exact ⟨_, rfl⟩
  | database db =>
      obtain ⟨rows, hrows⟩ := Database.exists_table_of_load h
      obtain ⟨bytes, hbytes⟩ := new.exists_encode
      have hsave := Database.save_eq_ok_iff.mpr ⟨rows, bytes, hrows, hbytes, rfl⟩
      exact ⟨_, map_eq_ok_iff.mpr ⟨_, hsave, rfl⟩⟩

/-- Saving writes to one place only. -/
theorem load_of_save (h : store.save new = .ok after) (repo : RepoId) (identity : PeerId) :
    after.load repo identity =
      if repo = new.repo ∧ identity = new.identity then .ok (some new)
      else store.load repo identity := by
  cases store with
  | memory namespaces =>
      cases h
      have hplace : (⟨repo, identity⟩ : Place) = ⟨new.repo, new.identity⟩ ↔
          repo = new.repo ∧ identity = new.identity := by rw [Place.mk.injEq]
      simp only [load]
      split
      · next heq => rw [hplace.mpr heq, SortedMap.get?_insert_self]
      · next hne => rw [SortedMap.get?_insert_of_ne _ (hplace.not.mpr hne)]
  | database db =>
      rw [save, map_eq_ok_iff] at h
      obtain ⟨db', hdb, rfl⟩ := h
      exact Database.load_of_save hdb repo identity

/-! ### Snapshots -/

/-- A snapshot holds what look-ups find. -/
theorem load_of_snapshot {s : Snapshot} (h : store.snapshot repo = .ok s) (identity : PeerId) :
    store.load repo identity = .ok (s.get? identity) := by
  cases store with
  | memory namespaces =>
      cases h
      refine congrArg Except.ok (Option.ext fun n => ?_)
      have hmap : ((namespaces.entries.filter fun e => e.1.inRange repo).map fun e =>
          (e.1.identity, e.2)) = (namespaces.entries.filter fun e => e.1.inRange repo).filterMap
            fun e => some (e.1.identity, e.2) := by rw [← List.filterMap_eq_map]; rfl
      have hnodup : ((namespaces.entries.filter fun e => e.1.inRange repo).map Prod.fst).Nodup :=
        namespaces.nodup_keys.sublist (List.filter_sublist.map _)
      rw [Snapshot.get?, hmap, SortedMap.get?_ofList_filterMap hnodup]
      · constructor
        · intro hget
          exact ⟨(⟨repo, identity⟩, n), List.mem_filter.mpr
            ⟨SortedMap.mem_entries_iff.mpr hget, Place.inRange_iff.mpr rfl⟩, rfl⟩
        · rintro ⟨⟨⟨_, _⟩, _⟩, he, ⟨⟩⟩
          obtain ⟨hmem, hrepo⟩ := List.mem_filter.mp he
          rw [← Place.inRange_iff.mp hrepo]
          exact SortedMap.mem_entries_iff.mp hmem
      · rintro ⟨⟨_, _⟩, _⟩ he ⟨⟨_, _⟩, _⟩ he' _ _ ⟨⟩ ⟨⟩ heq
        have hrepo := Place.inRange_iff.mp (List.mem_filter.mp he).2
        have hrepo' := Place.inRange_iff.mp (List.mem_filter.mp he').2
        simp only at hrepo hrepo' heq
        rw [hrepo, hrepo', heq]
  | database db =>
      rw [snapshot, map_eq_ok_iff] at h
      obtain ⟨found, hfound, rfl⟩ := h
      exact Database.load_of_loadAll hfound identity

/-- After a namespace was saved, a snapshot differs from the one before in this namespace only. -/
theorem snapshot_of_save {s : Snapshot} (h : store.save new = .ok after)
    (hs : store.snapshot repo = .ok s) :
    ∃ s', after.snapshot repo = .ok s' ∧ ∀ identity, s'.get? identity =
      if repo = new.repo ∧ identity = new.identity then some new else s.get? identity := by
  obtain ⟨s', hs'⟩ : ∃ s', after.snapshot repo = .ok s' := by
    cases store with
    | memory namespaces =>
        cases h
        exact ⟨_, rfl⟩
    | database db =>
        rw [snapshot, map_eq_ok_iff] at hs
        rw [save, map_eq_ok_iff] at h
        obtain ⟨found, hfound, -⟩ := hs
        obtain ⟨db', hdb, rfl⟩ := h
        obtain ⟨found', hfound'⟩ := Database.exists_loadAll_of_save hdb hfound
        exact ⟨_, map_eq_ok_iff.mpr ⟨found', hfound', rfl⟩⟩
  refine ⟨s', hs', fun identity => ?_⟩
  have hload := load_of_snapshot hs' identity
  rw [load_of_save h, load_of_snapshot hs] at hload
  by_cases hplace : repo = new.repo ∧ identity = new.identity
  · rw [if_pos hplace] at hload ⊢
    exact (Except.ok.inj hload).symm
  · rw [if_neg hplace] at hload ⊢
    exact (Except.ok.inj hload).symm

end Store

end SignedRefs
