import SignedRefs.Proofs.Change.Encoding

/-!
# Bytes That Read as a Change

The reader of changes looks up the fields that the kind calls for and takes a null for a parent that
is left out. So a body may say more than the change keeps: that there is no parent, a field of
another kind, or anything under a key that no kind has. Such bytes read as a change whose form is
another one, and the name of the change is not that of the bytes. All others are `Bare`, and they
are exactly the forms of what they read as.

## Main results

* `Change.perm_entries`: the keys of a kind leave no room for other entries.
* `encode_eq_iff_bare`: which bytes a signed change is written as again.
* `decode_withEntry`, `exists_other_bytes`: every change can be read from other bytes.
-/

namespace SignedRefs

open Cbor

namespace Change

variable {c : Change}

/-- A map with the fields of a change and no keys but those of its kind has its entries. -/
theorem perm_entries {entries : List (Value × Value)} (h : c.Lawful)
    (hnodup : (entries.map Prod.fst).Nodup) (hholds : (Fields.mk "change" entries).Holds c.entries)
    (hkeys : ∀ e ∈ entries, ∃ key ∈ keysOf (kindOf c.action), e.1 = .unsigned key) :
    entries.Perm c.entries := by
  refine (flat_entries h).perm_of_subset hnodup hholds.subset fun e he => ?_
  obtain ⟨key, hkey, heq⟩ := hkeys e he
  rw [keys_entries h, heq]
  exact List.mem_map_of_mem hkey

variable {key : UInt64} {value : Value}

/-- With an entry under another key, a change is still a flat record. -/
theorem flat_cons (h : c.Lawful) (hkey : key ∉ keysOf (kindOf c.action)) (hvalue : IsLeaf value) :
    Flat (Value.entry key value :: c.entries) := by
  refine (flat_entries h).cons ?_ hvalue
  rwa [keys_entries h, List.mem_map_of_injective fun _ _ => Value.unsigned.inj]

/-- With such an entry, a change is still read as itself, unless the entry is a parent where there
is none. -/
theorem ofValue_of_perm_cons {entries : List (Value × Value)} (h : c.Lawful)
    (hflat : Flat (Value.entry key value :: c.entries)) (hparent : key ≠ 0 ∨ value = .null)
    (hperm : entries.Perm (Value.entry key value :: c.entries)) :
    ofValue (.map entries) = .ok c := by
  obtain ⟨hentry, hholds⟩ := Fields.holds_cons_entry.mp (hflat.holds_of_perm hperm "change")
  refine ofValue_eq_ok_iff.mpr ⟨entries, rfl, h, hholds, h.hasParent hholds fun hzero => ?_⟩
  by_cases hkey : key = 0
  · right
    rwa [← hkey, ← hparent.resolve_left (not_not_intro hkey)]
  · left
    refine Fields.get?_eq_none_iff.mpr fun value' hmem => ?_
    rcases List.mem_cons.mp (hperm.mem_iff.mp hmem) with heq | hmem
    · exact hkey (Value.unsigned.inj (congrArg Prod.fst heq)).symm
    · exact entry_notMem_entries h hzero value' hmem

end Change

namespace SignedChange

/-- Bytes say nothing that a change does not keep: every key in their body is one that the changes
of its kind have. -/
def Bare (bytes : Bytes) : Prop :=
  ∃ body signature entries kind, splitSignature? bytes = some (body, signature) ∧
    Cbor.decode body = .ok (.map entries) ∧
      (Fields.mk "change" entries).get? 3 = some (.unsigned kind) ∧
        ∀ e ∈ entries, ∃ key ∈ Change.keysOf kind, e.1 = .unsigned key

variable {s : SignedChange} {bytes : Bytes}

/-- What is written is bare. -/
theorem bare_of_encode (h : s.encode = .ok bytes) : Bare bytes := by
  obtain ⟨body, hbody, rfl⟩ := encode_eq_ok_iff.mp h
  have hlawful := (Change.signingBytes_eq_ok_iff.mp hbody).1
  obtain ⟨entries, hperm, hdecode⟩ := Change.decode_signingBytes hbody
  have hholds := (Change.flat_entries hlawful).holds_of_perm hperm "change"
  refine ⟨body, s.signature, entries, _, splitSignature?_of_decode hdecode s.signature, hdecode,
    Change.get?_kind hholds, fun e he => ?_⟩
  have hkey := List.mem_map_of_mem (f := Prod.fst) (hperm.mem_iff.mp he)
  rw [Change.keys_entries hlawful] at hkey
  obtain ⟨key, hkey, heq⟩ := List.mem_map.mp hkey
  exact ⟨key, hkey, heq.symm⟩

/-- Bare bytes are the form of the change that they read as. -/
theorem encode_of_bare (h : decode bytes = .ok s) (hbare : Bare bytes) :
    s.encode = .ok bytes := by
  obtain ⟨body, signature, entries, kind, hsplit, hbody, hkind, hkeys⟩ := hbare
  obtain ⟨body', value, hsplit', hvalue, hchange⟩ := decode_eq_ok_iff.mp h
  obtain ⟨rfl, rfl⟩ : body = body' ∧ signature = s.signature := by
    rw [hsplit] at hsplit'
    exact Prod.mk.inj (Option.some.inj hsplit')
  rw [hbody] at hvalue
  cases hvalue
  obtain ⟨_, ⟨⟩, hlawful, hholds, -⟩ := Change.ofValue_eq_ok_iff.mp hchange
  obtain rfl : Change.kindOf s.change.action = kind := by
    have heq := (Change.get?_kind hholds).symm.trans hkind
    exact Value.unsigned.inj (Option.some.inj heq)
  have hperm := Change.perm_entries hlawful (nodup_keys_of_decode hbody) hholds hkeys
  have hencode := encode_map_of_perm (encode_of_decode hbody) hperm
  exact encode_eq_ok_iff.mpr ⟨body, Change.signingBytes_eq_ok_iff.mpr ⟨hlawful, hencode⟩,
    (append_of_splitSignature? hsplit).1.symm⟩

/-- A signed change that was read is written as the same bytes exactly if these are bare. Then it
is named by these bytes, and no other bare bytes read as it. -/
theorem encode_eq_iff_bare (h : decode bytes = .ok s) :
    (s.encode = .ok bytes ↔ Bare bytes) ∧
      (Bare bytes → s.id = .ok (.digest bytes) ∧
        ∀ bytes', decode bytes' = .ok s → Bare bytes' → bytes' = bytes) := by
  refine ⟨⟨bare_of_encode, encode_of_bare h⟩, fun hbare => ?_⟩
  have hencode := encode_of_bare h hbare
  constructor
  · rw [id, hencode]
    rfl
  · intro bytes' h' hbare'
    have heq := (encode_of_bare h' hbare').symm.trans hencode
    exact Except.ok.inj heq

/-! ### Bytes that are not bare -/

/-- The form of a change, but with one entry more. -/
def withEntry (s : SignedChange) (key : UInt64) (value : Value) : Bytes :=
  form (.map (Value.entry key value :: s.change.entries)) ++ s.signature.bytes

/-- The reader does not mind another entry, unless it is a parent where there is none, and the
change is not written with it: what is written has one entry less than what was read. -/
theorem decode_withEntry (h : s.change.Lawful) {key : UInt64} {value : Value}
    (hkey : key ∉ Change.keysOf (Change.kindOf s.change.action)) (hvalue : IsLeaf value)
    (hparent : key ≠ 0 ∨ value = .null) :
    decode (s.withEntry key value) = .ok s ∧ s.encode ≠ .ok (s.withEntry key value) := by
  have hflat := Change.flat_cons h hkey hvalue
  obtain ⟨entries, hperm, hdecode⟩ := hflat.exists_decode
    (Nat.lt_of_le_of_lt (Nat.succ_le_succ (Change.length_entries_le h))
      (by decide : 8 < UInt64.size))
  constructor
  · exact decode_eq_ok_iff.mpr ⟨_, _, splitSignature?_of_decode hdecode s.signature, hdecode,
      Change.ofValue_of_perm_cons h hflat hparent hperm⟩
  · intro hencode
    obtain ⟨body, hbody, heq⟩ := encode_eq_ok_iff.mp hencode
    obtain rfl := List.append_cancel_right heq
    obtain ⟨entries', hperm', hdecode'⟩ := Change.decode_signingBytes hbody
    obtain rfl : entries = entries' := by
      rw [hdecode] at hdecode'
      exact Value.map.inj (Except.ok.inj hdecode')
    have hlength := (hperm.symm.trans hperm').length_eq
    simp at hlength

/-- Every signed change that can be written is also read from bytes that are not bare. -/
theorem exists_other_bytes (h : s.change.Lawful) :
    ∃ bytes, decode bytes = .ok s ∧ s.encode ≠ .ok bytes ∧ ¬Bare bytes := by
  have hkey : 9 ∉ Change.keysOf (Change.kindOf s.change.action) := by
    unfold Change.keysOf
    split <;> decide
  obtain ⟨hdecode, hencode⟩ := decode_withEntry h hkey isLeaf_null (.inr rfl)
  exact ⟨_, hdecode, hencode, fun hbare => hencode (encode_of_bare hdecode hbare)⟩

/-- A change that opens a patch. -/
def opening : SignedChange where
  change :=
    { parent := none
      author := ⟨.replicate 32 0⟩
      timestamp := 0
      action := .openPatch ⟨"main", by decide⟩ "title" ⟨.replicate 20 1⟩ ⟨.replicate 20 2⟩ }
  signature := ⟨.replicate 64 0⟩

/-- It with a parent that is null. -/
def nullParent : Bytes := opening.withEntry 0 .null

/-- It with a reason, as if a patch were closed. -/
def reasoned : Bytes := opening.withEntry 8 (.text "reason")

/-- It with a key that no kind has. -/
def unknown : Bytes := opening.withEntry 9 .null

/-- The change is lawful. -/
theorem lawful_opening : opening.change.Lawful := .opening (by decide)

/-- With a parent that is null the change is read as if it had none, and written otherwise. -/
theorem decode_nullParent : decode nullParent = .ok opening ∧ opening.encode ≠ .ok nullParent :=
  decode_withEntry lawful_opening (by decide) isLeaf_null (.inr rfl)

/-- With a reason that its kind does not have the change is read without it, and written otherwise.
-/
theorem decode_reasoned : decode reasoned = .ok opening ∧ opening.encode ≠ .ok reasoned :=
  decode_withEntry lawful_opening (by decide) (isLeaf_text (by decide)) (.inl (by decide))

/-- With an unknown key the change is read without it, and written otherwise. -/
theorem decode_unknown : decode unknown = .ok opening ∧ opening.encode ≠ .ok unknown :=
  decode_withEntry lawful_opening (by decide) isLeaf_null (.inr rfl)

/-- One change can be read from several byte strings, and its name is not that of the bytes. -/
theorem read_from_other_bytes :
    (decode nullParent = .ok opening ∧ decode reasoned = .ok opening ∧
        decode unknown = .ok opening) ∧
      (nullParent ≠ reasoned ∧ nullParent ≠ unknown ∧ reasoned ≠ unknown) ∧
      (opening.encode ≠ .ok nullParent ∧ opening.encode ≠ .ok reasoned ∧
        opening.encode ≠ .ok unknown) ∧
      opening.id ≠ .ok (.digest reasoned) := by
  obtain ⟨hnull, hnull'⟩ := decode_nullParent
  obtain ⟨hreason, hreason'⟩ := decode_reasoned
  obtain ⟨hunknown, hunknown'⟩ := decode_unknown
  have hne : nullParent ≠ reasoned ∧ nullParent ≠ unknown ∧ reasoned ≠ unknown := by decide
  have hid : opening.id ≠ .ok (.digest reasoned) := by decide +kernel
  exact ⟨⟨hnull, hreason, hunknown⟩, hne, ⟨hnull', hreason', hunknown'⟩, hid⟩

/-- The form of the change is bare, the other byte strings are not. -/
theorem bare_form_of_opening :
    (∃ bytes, opening.encode = .ok bytes ∧ decode bytes = .ok opening ∧ Bare bytes) ∧
      ¬Bare nullParent ∧ ¬Bare reasoned ∧ ¬Bare unknown := by
  have hencode := encode_of_lawful (s := opening) lawful_opening
  have hdecode := decode_encode hencode
  refine ⟨⟨_, hencode, hdecode, (encode_eq_iff_bare hdecode).1.mp hencode⟩, ?_, ?_, ?_⟩
  · exact fun h => decode_nullParent.2 ((encode_eq_iff_bare decode_nullParent.1).1.mpr h)
  · exact fun h => decode_reasoned.2 ((encode_eq_iff_bare decode_reasoned.1).1.mpr h)
  · exact fun h => decode_unknown.2 ((encode_eq_iff_bare decode_unknown.1).1.mpr h)

end SignedChange

end SignedRefs
