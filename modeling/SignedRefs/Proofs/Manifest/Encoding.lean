import Mathlib.Data.List.Perm.Basic
import SignedRefs.Manifest
import SignedRefs.Proofs.Cbor.Record
import SignedRefs.Proofs.Cbor.RoundTrip
import SignedRefs.Proofs.Ref.Naming

/-!
# The Canonical Form of a Manifest

A manifest that follows the rules has a canonical form, and is read back from it. The four fields
stand in the order of their keys. The refs stand in the order of the forms of their names, which is
not the order of the names, so they are sorted twice on the way.

## Main results

* `hasForm_toValue`, `sort_toValue`: what is written, and in which order.
* `ofValue_eq_ok_iff`: what makes a value a manifest.
* `signingBytes_eq_ok_iff`, `decode_signingBytes`: the bytes that are signed.
* `signingBytes_injective`: what is signed says which manifest it is.
* `SignedManifest.decode_encode`, `SignedManifest.survives_wire`: a signed manifest survives the
  wire.
-/

namespace SignedRefs

open Cbor

namespace Manifest

variable {m : Manifest}

/-! ### Refs as entries -/

/-- Different refs have different entries. -/
theorem refEntry_injective : Function.Injective refEntry := by
  rintro ⟨name, target⟩ ⟨name', target'⟩ h
  simp only [refEntry, Prod.mk.injEq, Value.text.injEq, Value.bytes.injEq] at h
  obtain rfl := RefName.text_injective h.1
  have hvalue : target.value = target'.value := FixedBytes.ext h.2
  cases target; cases target'; cases hvalue
  rfl

/-- A ref is read back from its entry. -/
theorem ofRefEntry_refEntry (ref : RefName × ObjectId) : ofRefEntry (refEntry ref) = .ok ref := by
  obtain ⟨name, target⟩ := ref
  have hvalue : FixedBytes.ofBytes? target.bytes = some target.value :=
    FixedBytes.ofBytes?_eq_some_iff.mpr rfl
  simp only [refEntry, ofRefEntry, RefName.ofText_text, ObjectId.ofBytes, hvalue]

/-- What the entry of a ref looks like: its name may be spelled in some other way. -/
theorem ofRefEntry_eq_ok {entry : Value × Value} {ref : RefName × ObjectId}
    (h : ofRefEntry entry = .ok ref) :
    ∃ name, entry = (.text name, .bytes ref.2.bytes) ∧ RefName.ofText name = .ok ref.1 := by
  obtain ⟨key, value⟩ := entry
  cases key with
  | text name =>
      simp only [ofRefEntry] at h
      split at h
      · cases h
      · next found hname =>
          split at h
          · next target =>
              split at h
              · cases h
              · next id hid =>
                  cases h
                  rw [ObjectId.ofBytes] at hid
                  split at hid
                  · next bytes hbytes =>
                      cases hid
                      exact ⟨name, by rw [← FixedBytes.ofBytes?_eq_some_iff.mp hbytes]; rfl, hname⟩
                  · cases hid
          · cases h
  | _ => cases h

/-! ### Lengths -/

/-- The name of a ref fits, since names are short. -/
theorem fits_refName (name : RefName) : Fits 0 (.text name.text) :=
  Nat.lt_of_le_of_lt name.length_ofText_text_le (by decide)

/-- The rules are that the record is not among the refs and that there are not too many. -/
theorem validate_eq_ok_iff :
    m.validate = .ok () ↔ m.refs.contains .signedRefs = false ∧ m.refs.size ≤ maxRefs := by
  rw [validate]
  cases m.refs.contains .signedRefs with
  | true => simp
  | false =>
      by_cases hsize : maxRefs < m.refs.size
      · simp [hsize]
      · simp [hsize, Nat.le_of_not_lt hsize]

/-! ### What is written -/

/-- The entries of a manifest when its refs are given by these. -/
def withRefs (m : Manifest) (refs : List (Value × Value)) : List (Value × Value) :=
  [Value.entry 0 (.bytes m.repo.bytes), Value.entry 1 (.bytes m.identity.bytes),
    Value.entry 2 (.unsigned m.sequence), Value.entry 3 (.map refs)]

/-- A manifest is written as a map with its refs as one of the values. -/
theorem toValue_eq : m.toValue = .map (m.withRefs (m.refs.entries.map refEntry)) := rfl

/-- No two refs have names with the same form. -/
theorem nodup_forms_refs : ((m.refs.entries.map refEntry).map fun e => form e.1).Nodup := by
  rw [List.map_map]
  have hkeys : m.refs.entries.map ((fun e => form e.1) ∘ refEntry) =
      m.refs.keys.map fun name => form (.text name.text) := by
    rw [SortedMap.keys, List.map_map]
    rfl
  rw [hkeys]
  refine m.refs.nodup_keys.map fun a b hab => RefName.text_injective ?_
  have hsort := sort_eq_of_form_eq (fits_refName a) (fits_refName b) ⟨_, rfl⟩ ⟨_, rfl⟩ hab
  exact Value.text.inj hsort

/-- The refs of a manifest can be written as a map. -/
theorem hasForm_refs : HasForm (.map (m.refs.entries.map refEntry)) := by
  refine ⟨_, encode_map_eq_ok_iff.mpr ⟨fun e he => ?_, nodup_forms_refs, rfl⟩⟩
  obtain ⟨ref, -, rfl⟩ := List.mem_map.mp he
  exact ⟨⟨_, rfl⟩, ⟨_, rfl⟩⟩

/-- The fields stand in the order of their keys. -/
theorem pairwise_withRefs (refs : List (Value × Value)) :
    (m.withRefs refs).Pairwise fun a b => compare (form a.1) (form b.1) = .lt := by
  simp only [withRefs, Value.entry, List.pairwise_cons, List.mem_cons, List.not_mem_nil, or_false,
    forall_eq_or_imp, forall_eq, IsEmpty.forall_iff, implies_true, List.Pairwise.nil, and_true]
  decide

/-- The keys of a manifest have different forms. -/
theorem nodup_forms_withRefs (refs : List (Value × Value)) :
    ((m.withRefs refs).map fun e => form e.1).Nodup := by
  simp only [withRefs, Value.entry, List.map_cons, List.map_nil]
  decide

/-- Every manifest has a form. -/
theorem hasForm_toValue : HasForm m.toValue := by
  rw [toValue_eq]
  refine ⟨_, encode_map_eq_ok_iff.mpr ⟨fun e he => ?_, nodup_forms_withRefs _, rfl⟩⟩
  simp only [withRefs, List.mem_cons, List.not_mem_nil, or_false] at he
  rcases he with rfl | rfl | rfl | rfl
  · exact ⟨⟨_, rfl⟩, ⟨_, rfl⟩⟩
  · exact ⟨⟨_, rfl⟩, ⟨_, rfl⟩⟩
  · exact ⟨⟨_, rfl⟩, ⟨_, rfl⟩⟩
  · exact ⟨⟨_, rfl⟩, hasForm_refs⟩

/-- A manifest without too many refs fits. -/
theorem fits_toValue (h : m.refs.size ≤ maxRefs) : Fits maxDepth m.toValue := by
  have hbytes : ∀ {n : Nat} (value : FixedBytes n), n < UInt64.size →
      value.bytes.length < UInt64.size := fun value hn => by rwa [value.length_eq]
  have hrefs : Fits 255 (.map (m.refs.entries.map refEntry)) := by
    refine ⟨?_, fun e he => ?_⟩
    · rw [List.length_map]
      exact Nat.lt_of_le_of_lt h (by decide)
    · obtain ⟨ref, -, rfl⟩ := List.mem_map.mp he
      exact ⟨fits_refName ref.1, hbytes ref.2.value (by decide)⟩
  rw [toValue_eq]
  refine ⟨show 4 < UInt64.size by decide, fun e he => ?_⟩
  simp only [withRefs, List.mem_cons, List.not_mem_nil, or_false] at he
  rcases he with rfl | rfl | rfl | rfl
  · exact ⟨trivial, hbytes m.repo.value (by decide)⟩
  · exact ⟨trivial, hbytes m.identity.key (by decide)⟩
  · exact ⟨trivial, trivial⟩
  · exact ⟨trivial, hrefs⟩

/-- The refs of a manifest in the order in which they are written. -/
def writtenRefs (m : Manifest) : List (Value × Value) := inOrder (m.refs.entries.map refEntry)

/-- What is written are the entries of the refs, in another order. -/
theorem writtenRefs_perm : m.writtenRefs.Perm (m.refs.entries.map refEntry) :=
  inOrder_perm nodup_forms_refs

/-- Sorting a manifest's form moves its refs only. -/
theorem sort_toValue : sort m.toValue = .map (m.withRefs m.writtenRefs) := by
  have hrefs : sort (.map (m.refs.entries.map refEntry)) = .map m.writtenRefs := by
    rw [sort_map nodup_forms_refs, writtenRefs]
    congr 1
    refine (List.map_congr_left fun e he => ?_).trans (List.map_id _)
    obtain ⟨ref, -, rfl⟩ := List.mem_map.mp (writtenRefs_perm.mem_iff.mp he)
    rfl
  rw [toValue_eq, sort_map (nodup_forms_withRefs _), inOrder_of_pairwise (pairwise_withRefs _)]
  simp only [withRefs, Value.entry, List.map_cons, List.map_nil, hrefs]
  rfl

/-! ### What is read -/

/-- What the four fields of a manifest are. -/
structure HasFields (m : Manifest) (entries : List (Value × Value))
    (refEntries : List (Value × Value)) : Prop where
  /-- The repository. -/
  repo : (Fields.mk "manifest" entries).get? 0 = some (.bytes m.repo.bytes)
  /-- The owner. -/
  identity : (Fields.mk "manifest" entries).get? 1 = some (.bytes m.identity.bytes)
  /-- The number. -/
  sequence : (Fields.mk "manifest" entries).get? 2 = some (.unsigned m.sequence)
  /-- The refs. -/
  refs : (Fields.mk "manifest" entries).get? 3 = some (.map refEntries)

/-- A value is a manifest if it has the four fields, its refs can be read, and the rules are
followed. -/
theorem ofValue_eq_ok_iff {value : Value} :
    ofValue value = .ok m ↔ ∃ entries refEntries refs, value = .map entries ∧
      m.HasFields entries refEntries ∧
        List.Forall₂ (fun e r => ofRefEntry e = .ok r) refEntries refs ∧
          SortedMap.ofList refs = m.refs ∧ m.validate = .ok () := by
  cases value with
  | map entries =>
      simp only [ofValue, bind_eq_ok_iff, mapError_eq_ok_iff, Fields.ofValue, Except.ok.injEq,
        exists_eq_left', Fields.map_eq_ok_iff, Fields.bytes_eq_ok_iff, Fields.unsigned_eq_ok_iff,
        mapM_eq_ok_iff, pure, Except.pure, Value.map.injEq]
      constructor
      · rintro ⟨refEntries, hrefs, refs, hread, repo, hrepo, identity, hidentity, sequence,
          hsequence, _, hvalid, rfl⟩
        exact ⟨entries, refEntries, refs, rfl, ⟨hrepo, hidentity, hsequence, hrefs⟩, hread, rfl,
          hvalid⟩
      · rintro ⟨_, refEntries, refs, rfl, hfields, hread, hmap, hvalid⟩
        obtain ⟨⟨repo⟩, ⟨identity⟩, sequence, map⟩ := m
        cases hmap
        exact ⟨refEntries, hfields.refs, refs, hread, repo, hfields.repo, identity,
          hfields.identity, sequence, hfields.sequence, (), hvalid, rfl⟩
  | _ =>
      refine iff_of_false (fun h => by cases h) ?_
      rintro ⟨_, _, _, h, -⟩
      cases h

/-- The entries of a manifest have its fields. -/
theorem hasFields_withRefs (refs : List (Value × Value)) :
    m.HasFields (m.withRefs refs) refs := ⟨rfl, rfl, rfl, rfl⟩

/-- The refs that are written are read back, in some order. -/
theorem exists_refs_written : ∃ refs : List (RefName × ObjectId), refs.Perm m.refs.entries ∧
    List.Forall₂ (fun e r => ofRefEntry e = .ok r) m.writtenRefs refs := by
  have hall : ∀ e ∈ m.writtenRefs, ∃ r, ofRefEntry e = .ok r ∧ refEntry r = e := fun e he => by
    obtain ⟨ref, -, rfl⟩ := List.mem_map.mp (writtenRefs_perm.mem_iff.mp he)
    exact ⟨ref, ofRefEntry_refEntry ref, rfl⟩
  have hexists : ∀ l : List (Value × Value),
      (∀ e ∈ l, ∃ r, ofRefEntry e = .ok r ∧ refEntry r = e) →
        ∃ refs, refs.map refEntry = l ∧ List.Forall₂ (fun e r => ofRefEntry e = .ok r) l refs := by
    intro l
    induction l with
    | nil => exact fun _ => ⟨[], rfl, .nil⟩
    | cons e l ih =>
        intro hall
        obtain ⟨r, hr, rfl⟩ := hall e List.mem_cons_self
        obtain ⟨refs, rfl, hrefs⟩ := ih fun e he => hall e (List.mem_cons_of_mem _ he)
        exact ⟨r :: refs, rfl, .cons hr hrefs⟩
  obtain ⟨refs, hmap, hread⟩ := hexists m.writtenRefs hall
  refine ⟨refs, ?_, hread⟩
  rw [← List.map_perm_map_iff refEntry_injective, hmap]
  exact writtenRefs_perm

/-- A manifest that follows the rules is read back from its sorted form. -/
theorem ofValue_sort_toValue (h : m.validate = .ok ()) : ofValue (sort m.toValue) = .ok m := by
  obtain ⟨refs, hperm, hread⟩ := exists_refs_written (m := m)
  have hnodup : (refs.map Prod.fst).Nodup := (hperm.map _).nodup_iff.mpr m.refs.nodup_keys
  refine ofValue_eq_ok_iff.mpr ⟨_, _, refs, sort_toValue, hasFields_withRefs _, hread, ?_, h⟩
  rw [SortedMap.ofList_eq_of_perm hnodup hperm, SortedMap.ofList_entries]

/-! ### The bytes that are signed -/

/-- A manifest can be signed if it follows the rules, and what is signed is its encoded form. -/
theorem signingBytes_eq_ok_iff {bytes : Bytes} :
    m.signingBytes = .ok bytes ↔ m.validate = .ok () ∧ encode m.toValue = .ok bytes := by
  rw [signingBytes, bind_eq_ok_iff]
  simp only [mapError_eq_ok_iff]
  exact ⟨fun ⟨_, hvalid, hencode⟩ => ⟨hvalid, hencode⟩,
    fun ⟨hvalid, hencode⟩ => ⟨(), hvalid, hencode⟩⟩

/-- A manifest has signing bytes if it follows the rules. -/
theorem signingBytes_of_validate (h : m.validate = .ok ()) :
    m.signingBytes = .ok (form m.toValue) :=
  signingBytes_eq_ok_iff.mpr ⟨h, hasForm_toValue.encode_eq⟩

/-- What is signed is read back. -/
theorem decode_signingBytes {bytes : Bytes} (h : m.signingBytes = .ok bytes) :
    decode bytes = .ok (sort m.toValue) := by
  obtain ⟨hvalid, hencode⟩ := signingBytes_eq_ok_iff.mp h
  exact decode_of_encode (fits_toValue (validate_eq_ok_iff.mp hvalid).2) hencode

/-- No two manifests have the same signing bytes. -/
theorem signingBytes_injective {m' : Manifest} {bytes : Bytes} (h : m.signingBytes = .ok bytes)
    (h' : m'.signingBytes = .ok bytes) : m = m' := by
  have hsort : sort m.toValue = sort m'.toValue :=
    Except.ok.inj ((decode_signingBytes h).symm.trans (decode_signingBytes h'))
  have hread := ofValue_sort_toValue (signingBytes_eq_ok_iff.mp h).1
  rw [hsort, ofValue_sort_toValue (signingBytes_eq_ok_iff.mp h').1] at hread
  exact (Except.ok.inj hread).symm

end Manifest

/-! ### Signed manifests -/

namespace SignedManifest

variable {s : SignedManifest}

/-- A signed manifest is sent as what was signed, with the signature behind it. -/
theorem encode_eq_ok_iff {bytes : Bytes} :
    s.encode = .ok bytes ↔
      ∃ body, s.manifest.signingBytes = .ok body ∧ bytes = body ++ s.signature.bytes := by
  rw [encode, bind_eq_ok_iff]
  simp only [pure, Except.pure, Except.ok.injEq, eq_comm]

/-- A signed manifest can be written if it follows the rules. -/
theorem encode_of_validate (h : s.manifest.validate = .ok ()) :
    s.encode = .ok (form s.manifest.toValue ++ s.signature.bytes) :=
  encode_eq_ok_iff.mpr ⟨_, Manifest.signingBytes_of_validate h, rfl⟩

/-- A signed manifest is read if a signature can be split off and what is left of the bytes reads as
the manifest. -/
theorem decode_eq_ok_iff {bytes : Bytes} :
    decode bytes = .ok s ↔ ∃ body value, splitSignature? bytes = some (body, s.signature) ∧
      Cbor.decode body = .ok value ∧ Manifest.ofValue value = .ok s.manifest := by
  obtain ⟨manifest, signature⟩ := s
  unfold decode
  cases splitSignature? bytes with
  | none =>
      refine iff_of_false (fun h => by cases h) ?_
      rintro ⟨body, value, h, -⟩
      cases h
  | some parts =>
      obtain ⟨body, signature'⟩ := parts
      simp only [bind_eq_ok_iff, mapError_eq_ok_iff, pure, Except.pure, Except.ok.injEq,
        Option.some.injEq, Prod.mk.injEq, SignedManifest.mk.injEq]
      constructor
      · rintro ⟨value, hvalue, _, hmanifest, rfl, rfl⟩
        exact ⟨body, value, ⟨rfl, rfl⟩, hvalue, hmanifest⟩
      · rintro ⟨_, value, ⟨rfl, rfl⟩, hvalue, hmanifest⟩
        exact ⟨value, hvalue, manifest, hmanifest, rfl, rfl⟩

/-- A signed manifest survives the wire. -/
theorem decode_encode {bytes : Bytes} (h : s.encode = .ok bytes) : decode bytes = .ok s := by
  obtain ⟨body, hbody, rfl⟩ := encode_eq_ok_iff.mp h
  have hdecode := Manifest.decode_signingBytes hbody
  have hne : body ≠ [] := by
    rintro rfl
    cases hdecode
  exact decode_eq_ok_iff.mpr ⟨body, _, splitSignature?_append hne s.signature, hdecode,
    Manifest.ofValue_sort_toValue (Manifest.signingBytes_eq_ok_iff.mp hbody).1⟩

/-- The rules are all that a signed manifest has to follow to be written and read back unchanged,
whoever signed it, and what is signed says which manifest it is. -/
theorem survives_wire :
    (∀ m : Manifest, m.validate = .ok () ↔
        m.refs.contains .signedRefs = false ∧ m.refs.size ≤ 4096) ∧
      (∀ s : SignedManifest, s.manifest.validate = .ok () →
        ∃ bytes, s.encode = .ok bytes ∧ decode bytes = .ok s) ∧
      ∀ (m m' : Manifest) (bytes : Bytes), m.signingBytes = .ok bytes →
        m'.signingBytes = .ok bytes → m = m' := by
  refine ⟨fun m => Manifest.validate_eq_ok_iff, fun s hvalid => ?_, fun m m' bytes h h' => ?_⟩
  · have hencode := encode_of_validate hvalid
    exact ⟨_, hencode, decode_encode hencode⟩
  · exact Manifest.signingBytes_injective h h'

namespace Mixed

/-- The name is one for a branch. -/
theorem valid_branch : BranchName.fault? "prüfung" = none := by decide

/-- A manifest whose branch comes before its identity document by name, but not by form. -/
def signed : SignedManifest where
  manifest :=
    { repo := ⟨.replicate 32 0xab⟩
      identity := ⟨.replicate 32 0xcd⟩
      sequence := 0xffffffffffffffff
      refs := .ofList [(.head ⟨"prüfung", valid_branch⟩, ⟨.replicate 20 4⟩),
        (.identityDocument, ⟨.replicate 20 5⟩)] }
  signature := ⟨.replicate 64 0xff⟩

/-- What is sent for it. -/
def sent : Bytes :=
  [0xa4, 0x00, 0x58, 0x20] ++ List.replicate 32 0xab ++
    [0x01, 0x58, 0x20] ++ List.replicate 32 0xcd ++ [0x02, 0x1b] ++ List.replicate 8 0xff ++
      [0x03, 0xa2, 0x6b] ++ Bytes.ofText "refs/rad/id" ++ [0x54] ++ List.replicate 20 5 ++
        [0x73] ++ Bytes.ofText "refs/heads/prüfung" ++ [0x54] ++ List.replicate 20 4 ++
          List.replicate 64 0xff

/-- The manifest follows the rules and is read back. -/
theorem signed_survives : signed.manifest.validate = .ok () ∧ signed.encode = .ok sent ∧
    decode sent = .ok signed := by
  have hvalid : signed.manifest.validate = .ok () := by decide +kernel
  have hsent : signed.encode = .ok sent := by decide +kernel
  obtain ⟨bytes, hencode, hdecode⟩ := survives_wire.2.1 signed hvalid
  obtain rfl := Except.ok.inj (hsent.symm.trans hencode)
  exact ⟨hvalid, hsent, hdecode⟩

end Mixed

end SignedManifest

end SignedRefs
