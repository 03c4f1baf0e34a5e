import SignedRefs.Proofs.Ref.Naming
import SignedRefs.Proofs.Store.Authenticity

/-!
# The Refs of a Stored Namespace

The refs of a namespace are those of its manifest, with the record of the namespace put among them
(`Namespace.refs`). Another way to list them is to gather the refs of the manifest, append the
record and sort. The two agree because a manifest with a record never lists `refs/rad/sigrefs`
itself: otherwise sorting would leave it there twice. That each ref can be read back from its text
is not a matter of the listing at all. It takes an owner that is a public key, and nothing is stored
under any other identity, since only a public key verifies a signature.

## Main results

* `Namespace.refs_ascending`, `Namespace.refs_perm`: the order of the refs and what they are.
* `Namespace.refs_eq_mergeSort`: they are what gathering and sorting gives.
* `Store.Authentic.of_finds`: what a store gives out is authentic.
* `Store.refs_of_run`: the listing of a namespace in a store after any run.
-/

namespace SignedRefs

namespace Namespace

variable (n : Namespace)

/-- The refs of the manifest in their order, and the record after them. -/
def gathered : List (NamespacedRef × ObjectId) :=
  n.manifest.refs.entries.map (fun (name, target) => (⟨n.identity, name⟩, target)) ++
    [(⟨n.identity, .signedRefs⟩, n.record)]

/-- The refs of a namespace stand in ascending order, and no name stands twice. -/
theorem refs_ascending : n.refs.Pairwise fun a b => compare a.1 b.1 = .lt := by
  rw [refs, List.pairwise_map]
  refine (n.manifest.refs.insert .signedRefs n.record).ascending.imp fun {a b} hlt => ?_
  rw [NamespacedRef.compare_mk]
  exact hlt

variable {n} in
/-- The refs are those of the owner, the record included. -/
theorem mem_refs_iff {ref : NamespacedRef} {target : ObjectId} : (ref, target) ∈ n.refs ↔
    ref.identity = n.identity ∧
      (n.manifest.refs.insert .signedRefs n.record).get? ref.name = some target := by
  rw [refs, List.mem_map, ← SortedMap.mem_entries_iff]
  constructor
  · rintro ⟨⟨name, target'⟩, hentry, heq⟩
    cases heq
    exact ⟨rfl, hentry⟩
  · rintro ⟨hidentity, hentry⟩
    exact ⟨(ref.name, target), hentry, by rw [← hidentity]⟩

/-- A manifest with a record does not list it. -/
theorem not_contains_signedRefs : n.manifest.refs.contains .signedRefs = false := by
  obtain ⟨encoded, hencode, -⟩ := bind_eq_ok_iff.mp n.record_eq
  obtain ⟨message, hmessage, -⟩ := SignedManifest.encode_eq_ok_iff.mp hencode
  exact (Manifest.validate_eq_ok_iff.mp (Manifest.signingBytes_eq_ok_iff.mp hmessage).1).1

/-- The refs of a namespace are those of its manifest and its record. -/
theorem refs_perm : n.refs.Perm n.gathered := by
  have hentries := SortedMap.entries_insert_perm n.not_contains_signedRefs n.record
  refine (hentries.map _).trans ?_
  rw [List.map_cons]
  exact (List.perm_append_singleton _ _).symm

/-- Refs with targets in order, by ref and then by target. -/
def compareEntries : NamespacedRef × ObjectId → NamespacedRef × ObjectId → Ordering :=
  compareLex (compareOn Prod.fst) (compareOn Prod.snd)

instance : Std.TransCmp compareEntries :=
  inferInstanceAs (Std.TransCmp (compareLex (compareOn Prod.fst) (compareOn Prod.snd)))

/-- Refs with targets that are equal in this order are the same. -/
theorem eq_of_compareEntries {a b : NamespacedRef × ObjectId} (h : compareEntries a b = .eq) :
    a = b := by
  have h : compareLex (compareOn Prod.fst) (compareOn Prod.snd) a b = .eq := h
  simp only [compareLex_eq_eq, compareOn, Std.LawfulEqOrd.compare_eq_iff_eq] at h
  exact Prod.ext h.1 h.2

/-- Gathering the refs and sorting them gives the same list. -/
theorem refs_eq_mergeSort :
    n.refs = n.gathered.mergeSort fun a b => (compareEntries a b).isLE := by
  have htotal : ∀ a b, ((compareEntries a b).isLE || (compareEntries b a).isLE) = true := by
    intro a b
    have hswap : compareEntries b a = (compareEntries a b).swap := Std.OrientedCmp.eq_swap
    rw [hswap]
    cases compareEntries a b <;> rfl
  have hsorted : (n.gathered.mergeSort fun a b => (compareEntries a b).isLE).Pairwise
      fun a b => (compareEntries a b).isLE = true :=
    List.pairwise_mergeSort (fun _ _ _ => Std.TransCmp.isLE_trans) htotal n.gathered
  have hrefs : n.refs.Pairwise fun a b => (compareEntries a b).isLE = true := by
    refine n.refs_ascending.imp fun {a b} hlt => ?_
    change ((compare a.1 b.1).then (compare a.2 b.2)).isLE = true
    rw [hlt]
    rfl
  refine (n.refs_perm.trans (List.mergeSort_perm _ _).symm).eq_of_pairwise
    (fun a b _ _ hab hba => ?_) hrefs hsorted
  exact eq_of_compareEntries (Std.OrientedCmp.isLE_antisymm hab hba)

end Namespace

namespace Store

/-- A store gives out a namespace, by itself or in a snapshot of the repository. -/
inductive Finds (store : Store) (repo : RepoId) (identity : PeerId) (n : Namespace) : Prop
  | load (h : store.load repo identity = .ok (some n))
  | snapshot (s : Snapshot) (h : store.snapshot repo = .ok s) (hn : s.get? identity = some n)

variable {store : Store} {repo : RepoId} {identity : PeerId} {n : Namespace}

/-- Snapshots give out what look-ups find. -/
theorem Finds.load_eq (h : store.Finds repo identity n) :
    store.load repo identity = .ok (some n) := by
  cases h with
  | load h => exact h
  | snapshot s h hn => rw [load_of_snapshot h, hn]

/-- What is given out by a store with nothing but authentic namespaces is one. -/
theorem Authentic.of_finds (hstore : store.Authentic) (h : store.Finds repo identity n) :
    n.Authentic repo identity := by
  obtain ⟨found, hfound, hall⟩ := hstore repo identity
  rw [h.load_eq] at hfound
  exact hall n (Except.ok.inj hfound).symm

end Store

/-- The owner of an authentic namespace is a public key. -/
theorem Namespace.Authentic.isPublicKey {n : Namespace} {repo : RepoId} {identity : PeerId}
    (h : n.Authentic repo identity) : identity.isPublicKey = true := by
  obtain ⟨message, -, hverify⟩ := h.signature
  rw [PeerId.verify] at hverify
  split at hverify
  · cases hverify
  · next hkey => exact not_not.mp hkey

/-- After any run from a new store, every namespace lists its refs faithfully. The listing is what
gathering the refs and sorting them gives. It is in strictly ascending order and has exactly the
refs of the manifest with their targets and the record of the namespace, whose target is the digest
of the encoded manifest; and each ref is read back from its text. -/
theorem Store.refs_of_run (backend : Backend) (operations : List Operation) {repo : RepoId}
    {identity : PeerId} {n : Namespace}
    (h : (backend.newStore.afterAll operations).Finds repo identity n) :
    n.refs = (n.gathered.mergeSort fun a b => (Namespace.compareEntries a b).isLE) ∧
    (n.refs.Pairwise fun a b => compare a.1 b.1 = .lt) ∧
    (∃ encoded, n.signed.encode = .ok encoded ∧
      n.refs.Perm ((⟨identity, .signedRefs⟩, ObjectId.digest encoded) ::
        n.manifest.refs.entries.map fun (name, target) => (⟨identity, name⟩, target)) ∧
      ∀ target, (⟨identity, .signedRefs⟩, target) ∈ n.refs ↔ target = ObjectId.digest encoded) ∧
    ∀ ref target, (ref, target) ∈ n.refs → NamespacedRef.ofText ref.text = .ok ref := by
  have hauthentic := ((authentic_newStore backend).afterAll operations).of_finds h
  obtain ⟨encoded, hencode, hrecord⟩ := hauthentic.record_eq
  have hidentity : n.identity = identity := hauthentic.identity_eq
  have hperm := n.refs_perm.trans (List.perm_append_singleton _ _)
  rw [hidentity, hrecord] at hperm
  refine ⟨n.refs_eq_mergeSort, n.refs_ascending, ⟨encoded, hencode, hperm, fun target => ?_⟩,
    fun ref target href => ?_⟩
  · rw [Namespace.mem_refs_iff, SortedMap.get?_insert_self, hrecord, Option.some.injEq,
      and_iff_right hidentity.symm, eq_comm]
  · rw [NamespacedRef.ofText_text_eq_ok_iff, (Namespace.mem_refs_iff.mp href).1, hidentity]
    exact hauthentic.isPublicKey

namespace Forked

set_option maxRecDepth 100000 in
/-- Bob's namespace is in the database. -/
theorem finds_bob : ∃ n, (Backend.database.newStore.afterAll puts).Finds repo bob n := by
  have hfound : ((Backend.database.newStore.afterAll puts).load repo bob).toOption.join.isSome =
      true := by decide +kernel
  obtain ⟨n, hn⟩ := Option.isSome_iff_exists.mp hfound
  exact ⟨n, .load (toOption_eq_some_iff.mp (Option.join_eq_some_iff.mp hn))⟩

/-- Bob's record is among the refs, under the digest of what he signed, and is read back. -/
theorem refs_bob : ∃ n encoded, (Backend.database.newStore.afterAll puts).Finds repo bob n ∧
    n.signed.encode = .ok encoded ∧
      (⟨bob, .signedRefs⟩, ObjectId.digest encoded) ∈ n.refs ∧
        NamespacedRef.ofText (NamespacedRef.mk bob .signedRefs).text = .ok ⟨bob, .signedRefs⟩ := by
  obtain ⟨n, hn⟩ := finds_bob
  obtain ⟨-, -, ⟨encoded, hencode, -, hrecord⟩, hread⟩ := Store.refs_of_run .database puts hn
  have hmem := (hrecord _).mpr rfl
  exact ⟨n, encoded, hn, hencode, hmem, hread _ _ hmem⟩

end Forked

end SignedRefs
