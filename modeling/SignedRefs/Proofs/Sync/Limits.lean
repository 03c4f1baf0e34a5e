import SignedRefs.Proofs.Ed25519.Neutral
import SignedRefs.Proofs.Manifest.Length
import SignedRefs.Proofs.Ref.Layout
import SignedRefs.Proofs.Store.Authenticity
import SignedRefs.Proofs.Store.Delivery

/-!
# Responses Within the Limits

A store keeps two of the three limits for responses by cutting what it sends: a list of identities,
and the text of an error. A manifest cannot be cut, and is sent as it is. So a response is within
the limits unless it brings a manifest that takes too many bytes (`SignedManifest.wireSize`), and
the rules for manifests do not rule this out: they allow 4096 refs and names of 255 bytes.

## Main results

* `Response.validate_failure`: a failure is within the limits whatever its text is.
* `Store.respond_manifest_of_load`: what is found is sent.
* `Store.validate_respond_iff`: when a response is within the limits.
* `Oversized.not_served`: a manifest that is accepted, but not within the limits when it is sent.
-/

namespace SignedRefs

/-! ### Failures -/

namespace Response

/-- The bytes of a text are those of its first character and those of the rest. -/
theorem utf8ByteSize_ofList_cons (c : Char) (l : List Char) :
    (String.ofList (c :: l)).utf8ByteSize = c.utf8Size + (String.ofList l).utf8ByteSize := by
  simp only [ObjectId.utf8ByteSize_eq, Bytes.ofText_eq_flatMap, String.toList_ofList,
    List.flatMap_cons, List.length_append, String.length_utf8EncodeChar]

/-- What fits takes no more bytes than there is room for. -/
theorem utf8ByteSize_fitting_le (room : Nat) (l : List Char) :
    (String.ofList (fitting room l)).utf8ByteSize ≤ room := by
  induction l generalizing room with
  | nil => exact Nat.zero_le room
  | cons c rest ih =>
      rw [fitting]
      split_ifs with hroom
      · exact Nat.zero_le room
      · have hrest := ih (room - c.utf8Size)
        rw [utf8ByteSize_ofList_cons]
        omega

/-- A failure is within the limits whatever its text is. -/
theorem validate_failure (code : ErrorCode) (text : String) :
    (failure code text).validate = .ok () := by
  have hfits := utf8ByteSize_fitting_le Limit.errorBytes text.toList
  rw [failure, validate, if_neg (Nat.not_lt.mpr hfits)]

end Response

/-! ### Responses of a store -/

namespace Store

variable {store : Store} {now : Int64} {repo : RepoId} {identity : PeerId}

/-- A request for a manifest changes nothing. -/
theorem respond_manifest (store : Store) (now : Int64) (repo : RepoId) (identity : PeerId) :
    store.respond now (.manifest repo identity) = (store.respondManifest repo identity, store) :=
  rfl

/-- What is found is sent. -/
theorem respond_manifest_of_encode {found : Namespace} {encoded : Bytes}
    (h : store.load repo identity = .ok (some found))
    (hencode : found.signed.encode = .ok encoded) (now : Int64) :
    (store.respond now (.manifest repo identity)).1 = .manifest (some encoded) := by
  simp only [respond_manifest, respondManifest, h, hencode]

/-- What is found is sent, and can be read again. -/
theorem respond_manifest_of_load {found : Namespace}
    (h : store.load repo identity = .ok (some found)) (now : Int64) :
    ∃ encoded, (store.respond now (.manifest repo identity)).1 = .manifest (some encoded) ∧
      SignedManifest.decode encoded = .ok found.signed ∧
        encoded.length = found.signed.wireSize := by
  obtain ⟨encoded, hencode⟩ := found.exists_encode
  exact ⟨encoded, respond_manifest_of_encode h hencode now, SignedManifest.decode_encode hencode,
    SignedManifest.length_of_encode hencode⟩

/-- The answer to a request for the identities keeps the limits. -/
theorem validate_respondNamespaces : (store.respondNamespaces repo).validate = .ok () := by
  rw [respondNamespaces]
  cases store.identities repo with
  | error error => exact Response.validate_failure _ _
  | ok identities =>
      have hlength := List.length_take_le Limit.identities identities
      simp only [Response.validate, Nat.not_lt.mpr hlength, if_false]

/-- The answer to a push keeps the limits. -/
theorem validate_respondPush {encoded : Bytes} :
    (store.respondPush now repo identity encoded).1.validate = .ok () := by
  unfold respondPush
  cases SignedManifest.decode encoded with
  | error error => exact Response.validate_failure _ _
  | ok signed =>
      dsimp only
      cases store.replace now repo identity signed with
      | error error => exact Response.validate_failure _ _
      | ok done => simp only [Response.validate]

/-- A manifest that is found is within the limits if it does not take too many bytes. -/
theorem validate_respondManifest_iff : (store.respondManifest repo identity).validate = .ok () ↔
    ∀ found, store.load repo identity = .ok (some found) →
      found.signed.wireSize ≤ Limit.manifestBytes := by
  cases hload : store.load repo identity with
  | error error => simp [respondManifest, hload, Response.validate_failure]
  | ok found =>
      cases found with
      | none => simp [respondManifest, hload, Response.validate]
      | some found =>
          obtain ⟨encoded, hresponse, -, hlength⟩ := respond_manifest_of_load hload 0
          have hresponse : store.respondManifest repo identity = .manifest (some encoded) :=
            hresponse
          rw [hresponse, Response.validate, hlength]
          simp

/-- A manifest that takes too many bytes is accepted like any other, but not within the limits when
it is sent. -/
theorem not_within_limits (backend : Backend) {signed : SignedManifest} (now : Int64)
    (haccept : Acceptable repo signed.manifest.identity signed none)
    (hsize : Limit.manifestBytes < signed.wireSize) :
    let store := backend.newStore.afterAll [.write (.put now repo signed)]
    (∃ found, store.load repo signed.manifest.identity = .ok (some found) ∧
        found.signed = signed) ∧
      (store.respond now (.manifest repo signed.manifest.identity)).1.validate =
        .error .manifest := by
  intro store
  have hempty := backend.load_newStore repo signed.manifest.identity
  obtain ⟨⟨replaced, after⟩, hreplace⟩ := exists_replace hempty haccept now
  have hstore : store = after := by
    have hput : backend.newStore.put now repo signed = .ok (replaced.current, after) := by
      rw [put, hreplace]
      rfl
    change (backend.newStore.perform (.put now repo signed)).2 = after
    rw [perform, hput]
  obtain ⟨-, -, hsigned, -, -⟩ := replace_eq_ok_iff.mp hreplace
  have hload : store.load repo signed.manifest.identity = .ok (some replaced.current) := by
    rw [hstore, load_of_replace hreplace, if_pos ⟨rfl, rfl⟩]
  obtain ⟨encoded, hresponse, -, hlength⟩ := respond_manifest_of_load hload now
  rw [hsigned] at hlength
  refine ⟨⟨_, hload, hsigned⟩, ?_⟩
  rw [hresponse, Response.validate, hlength, if_pos hsize]

/-- A response is within the limits, whatever the store holds and whatever is asked, unless it
brings a manifest of more than 2²⁰ bytes. No manifest with at most 3615 refs takes so many. -/
theorem validate_respond_iff (store : Store) (now : Int64) (request : Request) :
    ((store.respond now request).1.validate = .ok () ↔
      ∀ repo identity found, request = .manifest repo identity →
        store.load repo identity = .ok (some found) → found.signed.wireSize ≤ 1048576) ∧
    ∀ signed : SignedManifest, signed.manifest.refs.size ≤ 3615 → signed.wireSize ≤ 1048576 := by
  constructor
  · unfold respond
    cases hvalid : request.validate with
    | error fault =>
        refine iff_of_true (Response.validate_failure _ _) ?_
        rintro repo identity found rfl
        cases hvalid
    | ok _ =>
        cases request with
        | namespaces repo =>
            refine iff_of_true validate_respondNamespaces ?_
            rintro _ _ _ ⟨⟩
        | manifest repo identity =>
            rw [validate_respondManifest_iff]
            constructor
            · rintro h _ _ found ⟨⟩ hload
              exact h found hload
            · exact fun h found hload => h repo identity found rfl hload
        | push repo identity encoded =>
            refine iff_of_true validate_respondPush ?_
            rintro _ _ _ ⟨⟩
  · intro signed hsize
    have hlength := signed.wireSize_le
    omega

end Store

namespace OutOfOrder

/-- The first manifest is put into a new database. -/
def putFirst : List Operation := [.write (.put 1700000000000 repo first)]

/-- It is found there, and the response that brings it is within the limits. -/
theorem first_served :
    let store := Backend.database.newStore.afterAll putFirst
    (∃ found, store.load repo alice = .ok (some found) ∧ found.signed = first) ∧
      (store.respond 1700000000001 (.manifest repo alice)).1.validate = .ok () := by
  intro store
  have hheld : store.held repo alice = .ok (some first) := by decide +kernel
  obtain ⟨found, hload, hfound⟩ := Store.held_eq_some_iff.mp hheld
  obtain ⟨hlimits, hsmall⟩ := store.validate_respond_iff 1700000000001 (.manifest repo alice)
  refine ⟨⟨found, hload, hfound⟩, hlimits.mpr ?_⟩
  rintro _ _ found' ⟨⟩ hload'
  rw [hload] at hload'
  cases hload'
  exact hsmall found.signed (by rw [hfound]; decide)

end OutOfOrder

/-! ### Long branch names -/

namespace BranchName

/-- Some characters that are not too many make a name if none of them is forbidden or has a meaning
of its own. -/
theorem wellFormed_ofList {l : List Char} (hne : l ≠ [])
    (hlength : (String.ofList l).utf8ByteSize ≤ 255) (hdot : '.' ∉ l) (hat : '@' ∉ l)
    (hslash : '/' ∉ l) (hforbidden : ∀ c ∈ l, isForbidden c = false) :
    WellFormed (String.ofList l) where
  one_le := by
    rw [Nat.one_le_iff_ne_zero, Ne, String.utf8ByteSize_eq_zero_iff, ← String.toList_eq_nil_iff,
      String.toList_ofList]
    exact hne
  le_max := hlength
  no_trailing_dot h := by
    rw [String.toList_ofList] at h
    exact hdot (List.mem_of_mem_getLast? h)
  components := by
    rw [String.toList_ofList, List.splitOn_eq_singleton hslash, List.forall_mem_singleton]
    refine ⟨hne, fun h => hdot (List.mem_of_mem_head? h), fun h => hdot (h.subset (by decide)),
      fun h => hdot (h.subset (by decide)), fun h => hat (h.subset (by decide)), fun c hc => ?_⟩
    exact isForbidden_eq_false_iff.mp (hforbidden c hc)

end BranchName

namespace Oversized

/-- One of two letters for each of the twelve lowest bits of a number, and a filling. -/
def letters (n : Nat) : List Char :=
  (List.range 12).map (fun i => if n.testBit i then 'b' else 'a') ++ List.replicate 243 'a'

/-- There are two letters. -/
theorem mem_letters {n : Nat} {c : Char} (h : c ∈ letters n) : c = 'a' ∨ c = 'b' := by
  rcases List.mem_append.mp h with hbit | hfill
  · obtain ⟨i, -, rfl⟩ := List.mem_map.mp hbit
    split_ifs
    · exact .inr rfl
    · exact .inl rfl
  · exact .inl (List.eq_of_mem_replicate hfill)

/-- There are 255 letters. -/
theorem length_letters (n : Nat) : (letters n).length = 255 := by
  rw [letters, List.length_append, List.length_map, List.length_range, List.length_replicate]

/-- They take 255 bytes. -/
theorem utf8ByteSize_letters (n : Nat) : (String.ofList (letters n)).utf8ByteSize = 255 := by
  have hsize : ∀ l : List Char, (∀ c ∈ l, c = 'a' ∨ c = 'b') →
      (String.ofList l).utf8ByteSize = l.length := by
    intro l
    induction l with
    | nil => exact fun _ => rfl
    | cons c rest ih =>
        intro h
        obtain ⟨hc, hrest⟩ := List.forall_mem_cons.mp h
        have hone : c.utf8Size = 1 := by rcases hc with rfl | rfl <;> rfl
        rw [Response.utf8ByteSize_ofList_cons, ih hrest, hone, List.length_cons, Nat.add_comm]
  rw [hsize _ fun c => mem_letters, length_letters]

/-- They are a name for a branch. -/
theorem valid_letters (n : Nat) : BranchName.fault? (String.ofList (letters n)) = none := by
  have hmem : ∀ c, c ≠ 'a' → c ≠ 'b' → c ∉ letters n := fun c ha hb h =>
    (mem_letters h).elim ha hb
  refine BranchName.fault?_eq_none_iff_wellFormed.mpr <| BranchName.wellFormed_ofList ?_
    (Nat.le_of_eq (utf8ByteSize_letters n)) (hmem _ ?_ ?_) (hmem _ ?_ ?_) (hmem _ ?_ ?_)
    fun c hc => ?_
  · rw [← List.length_pos_iff, length_letters]
    decide
  all_goals try decide
  rcases mem_letters hc with rfl | rfl <;> decide

/-- The branch with a number. -/
def branch (n : Nat) : RefName := .head ⟨String.ofList (letters n), valid_letters n⟩

/-- A ref with such a name takes 290 bytes. -/
theorem wireSize_branch (n : Nat) : (branch n).wireSize = 290 := by
  have hlength : (Bytes.ofText (branch n).text).length = 266 := by
    have hname : (Bytes.ofText (String.ofList (letters n))).length = 255 := utf8ByteSize_letters n
    have hdirectory : (Bytes.ofText RefName.headsDirectory).length = 11 := by decide
    rw [branch, RefName.text, Bytes.ofText_append, List.length_append, hname, hdirectory]
  rw [RefName.wireSize, hlength]
  rfl

/-- Numbers of twelve bits have different branches. -/
theorem branch_injective {a b : Nat} (ha : a < 4096) (hb : b < 4096) (h : branch a = branch b) :
    a = b := by
  have htext := congrArg BranchName.text (RefName.head.inj h)
  have hletters : letters a = letters b := String.ofList_inj.mp htext
  have hbits := List.map_inj_left.mp (List.append_cancel_right hletters)
  refine Nat.eq_of_testBit_eq fun i => ?_
  by_cases hi : i < 12
  · have hbit := hbits i (List.mem_range.mpr hi)
    by_cases hbita : a.testBit i <;> by_cases hbitb : b.testBit i <;> simp_all
  · have hpow : 4096 ≤ 2 ^ i := Nat.pow_le_pow_right Nat.two_pos (Nat.le_of_not_lt hi)
    rw [Nat.testBit_lt_two_pow (ha.trans_le hpow), Nat.testBit_lt_two_pow (hb.trans_le hpow)]

/-- As many branches as a manifest may have. -/
def branches : List (RefName × ObjectId) :=
  (List.range 4096).map fun n => (branch n, ⟨.replicate 20 1⟩)

/-- The branches have different names. -/
theorem nodup_branches : (branches.map Prod.fst).Nodup := by
  rw [branches, List.map_map]
  exact List.nodup_range.map_on fun a ha b hb =>
    branch_injective (List.mem_range.mp ha) (List.mem_range.mp hb)

/-- There are 4096 branches. -/
theorem length_branches : branches.length = 4096 := by
  unfold branches
  simp only [List.length_map, List.length_range]

/-- The map of these branches, which are never listed one by one. -/
@[irreducible]
def refs : SortedMap RefName ObjectId := .ofList branches

/-- There are as many refs as branches. -/
theorem size_refs : refs.size = 4096 := by
  unfold refs
  exact (SortedMap.size_ofList nodup_branches).trans length_branches

/-- Every ref is one of the branches. -/
theorem exists_of_mem_keys {name : RefName} (h : name ∈ refs.keys) : ∃ n, name = branch n := by
  unfold refs at h
  have hmem := SortedMap.contains_ofList.mp (SortedMap.mem_keys_iff.mp h)
  simp only [branches, List.map_map] at hmem
  obtain ⟨n, -, rfl⟩ := List.mem_map.mp hmem
  exact ⟨n, rfl⟩

/-- The repository. -/
def repo : RepoId := ⟨.replicate 32 9⟩

/-- The owner of the namespace, whose key is the neutral one. -/
def owner : PeerId := ⟨⟨Ed25519.neutralKey, by decide⟩⟩

/-- The signature, which is good for every manifest of the owner. -/
def signature : Signature := ⟨⟨Ed25519.neutralSignature, by decide⟩⟩

/-- The signature of this owner verifies over anything. -/
theorem verify_owner (message : Bytes) : owner.verify message signature = .ok () := by
  have hbytes : owner.bytes = Ed25519.neutralKey := rfl
  have hsignature : signature.bytes = Ed25519.neutralSignature := rfl
  have hkey : owner.isPublicKey = true := by
    rw [PeerId.isPublicKey, Ed25519.isPublicKey, hbytes, Ed25519.decode?_neutralKey]
    rfl
  have haccepts : owner.accepts message signature = true := by
    rw [PeerId.accepts, hbytes, hsignature, Ed25519.verify_neutral]
  rw [PeerId.verify, if_neg (not_not.mpr hkey), if_pos haccepts]

/-- The manifest with all these branches. -/
def signed : SignedManifest := ⟨⟨repo, owner, 1, refs⟩, signature⟩

/-- The manifest takes more than a million bytes. -/
theorem wireSize_signed : signed.wireSize = 1187981 := by
  have hall : ∀ n ∈ refs.keys.map RefName.wireSize, n = 290 := fun n hn => by
    obtain ⟨name, hname, rfl⟩ := List.mem_map.mp hn
    obtain ⟨k, rfl⟩ := exists_of_mem_keys hname
    exact wireSize_branch k
  have hsum : (refs.keys.map RefName.wireSize).sum = 4096 * 290 := by
    rw [List.sum_eq_card_nsmul _ _ hall, List.length_map, ← SortedMap.size_eq_length_keys,
      size_refs, smul_eq_mul]
  have hsequence : Cbor.headLength (1 : UInt64).toNat = 1 := rfl
  have hsize : Cbor.headLength 4096 = 3 := rfl
  rw [SignedManifest.wireSize, signed]
  simp only [size_refs, hsum, hsequence, hsize]

/-- A store that has nothing of this owner accepts it. -/
theorem acceptable_signed : Acceptable repo owner signed none := by
  have hvalid : signed.manifest.validate = .ok () := by
    refine Manifest.validate_eq_ok_iff.mpr ⟨Bool.eq_false_iff.mpr fun h => ?_, ?_⟩
    · obtain ⟨n, hn⟩ := exists_of_mem_keys (SortedMap.mem_keys_iff.mpr h)
      cases hn
    · exact Nat.le_of_eq size_refs
  exact ⟨rfl, rfl, hvalid, ⟨_, Manifest.signingBytes_of_validate hvalid, verify_owner _⟩,
    fun stored h => by cases h⟩

/-- The store accepts the manifest, and does not keep the limits when it sends it. -/
theorem not_served :
    let store := Backend.database.newStore.afterAll [.write (.put 1700000000000 repo signed)]
    (∃ found, store.load repo owner = .ok (some found) ∧ found.signed = signed) ∧
      (store.respond 1700000000000 (.manifest repo owner)).1.validate = .error .manifest := by
  refine Store.not_within_limits .database 1700000000000 acceptable_signed ?_
  rw [wireSize_signed]
  decide

end Oversized

end SignedRefs
