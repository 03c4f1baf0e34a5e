import SignedRefs.Proofs.Manifest.Encoding

/-!
# Bytes That Read as a Manifest

The reader of manifests looks its four fields up by their keys and reads the names of refs by their
meaning. So a body may say more than the manifest keeps: it may have further entries, and the id of
a patch may be spelled with capital digits, even twice in different ways. Such bytes read as a
manifest whose form is another one. All others are `Plain`, and they are exactly the forms of what
they read as.

## Main results

* `perm_withRefs`: four entries that have the fields are the fields.
* `encode_eq_iff_plain`: which bytes a signed manifest is written as again.
-/

namespace SignedRefs

open Cbor

namespace Manifest

variable {m : Manifest} {entries refEntries : List (Value × Value)}

/-- The four fields are all entries of a map that has four. -/
theorem perm_withRefs (h : m.HasFields entries refEntries) (hlength : entries.length = 4) :
    (m.withRefs refEntries).Perm entries := by
  have hsub : m.withRefs refEntries ⊆ entries := by
    intro e he
    simp only [withRefs, List.mem_cons, List.not_mem_nil, or_false] at he
    rcases he with rfl | rfl | rfl | rfl
    · exact Fields.mem_of_get? h.repo
    · exact Fields.mem_of_get? h.identity
    · exact Fields.mem_of_get? h.sequence
    · exact Fields.mem_of_get? h.refs
  have hnodup : (m.withRefs refEntries).Nodup := .of_map _ (nodup_forms_withRefs refEntries)
  exact (hnodup.subperm hsub).perm_of_length_le (Nat.le_of_eq hlength)

/-- Refs that are spelled as they are written are the entries that are written for them. -/
theorem refEntries_eq_map {refs : List (RefName × ObjectId)}
    (hread : List.Forall₂ (fun e r => ofRefEntry e = .ok r) refEntries refs)
    (hspelled : ∀ name target, (.text name, target) ∈ refEntries →
      RefName.patchesDirectory.toList <+: name.toList → LowerCase name) :
    refEntries = refs.map refEntry := by
  induction hread with
  | nil => rfl
  | @cons e ref entries refs hentry _ ih =>
      obtain ⟨name, rfl, hname⟩ := ofRefEntry_eq_ok hentry
      have htext := (RefName.text_eq_iff hname).mpr fun hpatch =>
        hspelled name _ List.mem_cons_self hpatch
      have hrest := ih fun name target hmem hpatch =>
        hspelled name target (List.mem_cons_of_mem _ hmem) hpatch
      rw [List.map_cons, ← hrest, refEntry, htext]

/-- The form of a map with the four fields, its refs spelled as they are written, is that of the
manifest. The names of the refs have different forms, so they differ themselves. -/
theorem encode_toValue_of_fields {refs : List (RefName × ObjectId)} {bytes : Bytes}
    (h : m.HasFields entries (refs.map refEntry)) (hlength : entries.length = 4)
    (hrefs : SortedMap.ofList refs = m.refs) (hencode : encode (.map entries) = .ok bytes) :
    encode m.toValue = .ok bytes := by
  obtain ⟨hall, -, -⟩ := encode_map_eq_ok_iff.mp hencode
  obtain ⟨inner, hinner⟩ := (hall _ (Fields.mem_of_get? h.refs)).2
  have hnodup : (refs.map Prod.fst).Nodup := by
    obtain ⟨-, hforms, -⟩ := encode_map_eq_ok_iff.mp hinner
    rw [List.map_map] at hforms
    refine List.Nodup.of_map (fun name => form (.text name.text)) ?_
    rwa [List.map_map]
  have hperm : refs.Perm m.refs.entries := hrefs ▸ (SortedMap.entries_ofList_perm hnodup).symm
  have hsame : encode (.map (refs.map refEntry)) = encode (.map (m.refs.entries.map refEntry)) := by
    rw [hinner, encode_map_of_perm hinner (hperm.map refEntry)]
  have hwith : encode (.map (m.withRefs (refs.map refEntry))) = .ok bytes :=
    encode_map_of_perm hencode (perm_withRefs h hlength).symm
  rw [toValue_eq, ← hwith]
  refine encode_map_congr ?_
  exact .cons ⟨rfl, rfl⟩ <| .cons ⟨rfl, rfl⟩ <| .cons ⟨rfl, rfl⟩ <| .cons ⟨rfl, hsame.symm⟩ .nil

end Manifest

namespace SignedManifest

/-- Bytes say nothing that a manifest does not keep: their body has the four fields and no other
entry, and no patch id among the names of the refs has a capital digit. -/
def Plain (bytes : Bytes) : Prop :=
  ∃ body signature entries refEntries, splitSignature? bytes = some (body, signature) ∧
    Cbor.decode body = .ok (.map entries) ∧ entries.length = 4 ∧
      (Fields.mk "manifest" entries).get? 3 = some (.map refEntries) ∧
        ∀ name target, (.text name, target) ∈ refEntries →
          RefName.patchesDirectory.toList <+: name.toList → LowerCase name

variable {s : SignedManifest} {bytes : Bytes}

/-- What is written is plain. -/
theorem plain_of_encode (h : s.encode = .ok bytes) : Plain bytes := by
  obtain ⟨body, hbody, rfl⟩ := encode_eq_ok_iff.mp h
  have hdecode := Manifest.decode_signingBytes hbody
  have hne : body ≠ [] := by
    rintro rfl
    cases hdecode
  rw [Manifest.sort_toValue] at hdecode
  refine ⟨body, s.signature, _, s.manifest.writtenRefs, splitSignature?_append hne s.signature,
    hdecode, rfl, rfl, fun name target hmem hpatch => ?_⟩
  obtain ⟨ref, -, heq⟩ := List.mem_map.mp (Manifest.writtenRefs_perm.mem_iff.mp hmem)
  cases heq
  exact (RefName.text_eq_iff (RefName.ofText_text ref.1)).mp rfl hpatch

/-- A signed manifest that was read is written as the same bytes exactly if these are plain. -/
theorem encode_eq_iff_plain (h : decode bytes = .ok s) : s.encode = .ok bytes ↔ Plain bytes := by
  refine ⟨plain_of_encode, ?_⟩
  rintro ⟨body, signature, entries, refEntries, hsplit, hbody, hlength, hget, hspelled⟩
  obtain ⟨body', value, hsplit', hvalue, hmanifest⟩ := decode_eq_ok_iff.mp h
  obtain ⟨rfl, rfl⟩ : body = body' ∧ signature = s.signature := by
    rw [hsplit] at hsplit'
    exact Prod.mk.inj (Option.some.inj hsplit')
  rw [hbody] at hvalue
  cases hvalue
  obtain ⟨_, refEntries', refs, ⟨⟩, hfields, hread, hrefs, hvalid⟩ :=
    Manifest.ofValue_eq_ok_iff.mp hmanifest
  obtain rfl : refEntries = refEntries' := by
    have heq := hget.symm.trans hfields.refs
    exact Value.map.inj (Option.some.inj heq)
  obtain rfl := Manifest.refEntries_eq_map hread hspelled
  have hencode := Manifest.encode_toValue_of_fields hfields hlength hrefs (encode_of_decode hbody)
  exact encode_eq_ok_iff.mpr ⟨body, Manifest.signingBytes_eq_ok_iff.mpr ⟨hvalid, hencode⟩,
    (append_of_splitSignature? hsplit).1.symm⟩

/-! ### Bytes that are not plain -/

/-- The name of a patch in capital digits or in others. -/
def spelled (digit : Char) : String :=
  RefName.patchesDirectory ++ String.ofList (List.replicate 40 digit)

/-- A manifest with one patch. -/
def sample : SignedManifest where
  manifest :=
    { repo := ⟨.replicate 32 0⟩
      identity := ⟨.replicate 32 0⟩
      sequence := 1
      refs := .ofList [(.patch ⟨.replicate 20 0xaa⟩, ⟨.replicate 20 2⟩)] }
  signature := ⟨.replicate 64 0⟩

/-- It with refs that are spelled like this, and with some entries more. -/
def disguised (refs more : List (Value × Value)) : Bytes :=
  form (.map (sample.manifest.withRefs refs ++ more)) ++ sample.signature.bytes

/-- It with an entry that does not belong to it. -/
def padded : Bytes :=
  disguised (sample.manifest.refs.entries.map Manifest.refEntry) [Value.entry 4 .null]

/-- It with its patch spelled twice, pointing to another change first. -/
def doubled : Bytes :=
  disguised [(.text (spelled 'A'), .bytes (List.replicate 20 1)),
    (.text (spelled 'a'), .bytes (List.replicate 20 2))] []

/-- With one more entry the manifest is still read. -/
theorem decode_padded : decode padded = .ok sample := by decide +kernel

/-- With a name in two spellings the manifest is still read. -/
theorem decode_doubled : decode doubled = .ok sample := by decide +kernel

/-- Bytes that read as a manifest need not be its form, and one manifest can be read from several
byte strings. -/
theorem decode_not_injective :
    decode padded = .ok sample ∧ decode doubled = .ok sample ∧ padded ≠ doubled ∧
      sample.encode ≠ .ok padded ∧ sample.encode ≠ .ok doubled := by
  refine ⟨decode_padded, decode_doubled, ?_, ?_, ?_⟩ <;> decide +kernel

/-- The form of the manifest is plain, the other two byte strings are not. -/
theorem plain_form_of_sample :
    (∃ bytes, sample.encode = .ok bytes ∧ Plain bytes) ∧ ¬Plain padded ∧ ¬Plain doubled := by
  have hencode : sample.encode = .ok (disguised (sample.manifest.refs.entries.map
      Manifest.refEntry) []) := by decide +kernel
  exact ⟨⟨_, hencode, (encode_eq_iff_plain (decode_encode hencode)).mp hencode⟩,
    fun h => absurd ((encode_eq_iff_plain decode_padded).mpr h) (by decide +kernel),
    fun h => absurd ((encode_eq_iff_plain decode_doubled).mpr h) (by decide +kernel)⟩

end SignedManifest

end SignedRefs
