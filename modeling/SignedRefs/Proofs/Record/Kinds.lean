import SignedRefs.Proofs.Change.Encoding
import SignedRefs.Proofs.Manifest.Encoding

/-!
# Two Kinds of Records Under One Key

The same key signs manifests and changes, and nothing in the bytes names the type of the record.
Still no byte string is one of each: the field 3 is the map of the refs in a manifest and the number
of the kind in a change, and the readers of both insist on that whatever other entries there are. So
the message under a signature says which record was signed.

## Main results

* `Manifest.ofValue_ne_change`: no value is both a manifest and a change.
* `Manifest.signingBytes_ne_change`: no message is signed for both.
* `signatures_apart`: what an owner signed as one kind of record is none of the other kind.
-/

namespace SignedRefs

open Cbor

variable {m : Manifest} {c : Change} {keys : Keypair} {bytes : Bytes}

/-- No value is both a manifest and a change: its third field cannot be a map and a number. -/
theorem Manifest.ofValue_ne_change {value : Value} (hm : Manifest.ofValue value = .ok m) :
    Change.ofValue value ≠ .ok c := by
  intro hc
  obtain ⟨entries, refEntries, refs, rfl, hfields, -⟩ := Manifest.ofValue_eq_ok_iff.mp hm
  obtain ⟨_, ⟨⟩, -, hholds, -⟩ := Change.ofValue_eq_ok_iff.mp hc
  have hrefs : (Fields.mk "change" entries).get? 3 = some (.map refEntries) := hfields.refs
  rw [Change.get?_kind hholds] at hrefs
  cases hrefs

/-- No message is signed for both a manifest and a change. -/
theorem Manifest.signingBytes_ne_change (hm : m.signingBytes = .ok bytes) :
    c.signingBytes ≠ .ok bytes := by
  intro hc
  have hsort := Manifest.decode_signingBytes hm
  obtain ⟨entries, hperm, hdecode⟩ := Change.decode_signingBytes hc
  rw [hdecode, Except.ok.injEq] at hsort
  have hreadM := Manifest.ofValue_sort_toValue (Manifest.signingBytes_eq_ok_iff.mp hm).1
  have hreadC := Change.ofValue_of_perm (Change.signingBytes_eq_ok_iff.mp hc).1 hperm
  rw [← hsort] at hreadM
  exact Manifest.ofValue_ne_change hreadM hreadC

/-- No byte string is read both as a signed manifest and as a signed change. -/
theorem SignedManifest.decode_ne_change {s : SignedManifest} {s' : SignedChange}
    (h : SignedManifest.decode bytes = .ok s) : SignedChange.decode bytes ≠ .ok s' := by
  intro h'
  obtain ⟨body, value, hsplit, hbody, hmanifest⟩ := SignedManifest.decode_eq_ok_iff.mp h
  obtain ⟨body', value', hsplit', hbody', hchange⟩ := SignedChange.decode_eq_ok_iff.mp h'
  obtain ⟨rfl, -⟩ := Prod.mk.inj (Option.some.inj (hsplit.symm.trans hsplit'))
  obtain rfl := Except.ok.inj (hbody.symm.trans hbody')
  exact Manifest.ofValue_ne_change hmanifest hchange

/-- The key of an owner signs the bytes of the manifest. -/
theorem Manifest.sign_eq_ok_iff {s : SignedManifest} :
    m.sign keys = .ok s ↔ keys.peerId = m.identity ∧
      ∃ message, m.signingBytes = .ok message ∧ s = ⟨m, keys.sign message⟩ := by
  rw [Manifest.sign]
  by_cases hid : keys.peerId = m.identity
  · simp only [hid, ne_eq, not_true_eq_false, if_false, bind_eq_ok_iff, pure, Except.pure,
      Except.ok.injEq, true_and, eq_comm (a := s)]
  · simp [hid]

/-- The key of an author signs the bytes of the change. -/
theorem Change.sign_eq_ok_iff {s : SignedChange} :
    c.sign keys = .ok s ↔ keys.peerId = c.author ∧
      ∃ message, c.signingBytes = .ok message ∧ s = ⟨c, keys.sign message⟩ := by
  rw [Change.sign]
  by_cases hid : keys.peerId = c.author
  · simp only [hid, ne_eq, not_true_eq_false, if_false, bind_eq_ok_iff, pure, Except.pure,
      Except.ok.injEq, true_and, eq_comm (a := s)]
  · simp [hid]

/-- Manifests and changes that follow the rules have different bytes to sign, nothing is read as
both, and what a key signed as one of them is the message of none of the other. -/
theorem signatures_apart :
    (∀ (m : Manifest) (c : Change), m.validate = .ok () → c.validate = .ok () →
        ∃ message message', m.signingBytes = .ok message ∧ c.signingBytes = .ok message' ∧
          message ≠ message') ∧
      (∀ (bytes : Bytes) (s : SignedManifest) (s' : SignedChange),
        SignedManifest.decode bytes = .ok s → SignedChange.decode bytes ≠ .ok s') ∧
      (∀ (keys : Keypair) (m : Manifest) (s : SignedManifest), m.sign keys = .ok s →
        ∃ message, m.signingBytes = .ok message ∧ s.signature = keys.sign message ∧
          ∀ c : Change, c.signingBytes ≠ .ok message) ∧
      ∀ (keys : Keypair) (c : Change) (s : SignedChange), c.sign keys = .ok s →
        ∃ message, c.signingBytes = .ok message ∧ s.signature = keys.sign message ∧
          ∀ m : Manifest, m.signingBytes ≠ .ok message := by
  refine ⟨fun m c hm hc => ?_, fun bytes s s' h => SignedManifest.decode_ne_change h,
    fun keys m s h => ?_, fun keys c s h => ?_⟩
  · have hmanifest := Manifest.signingBytes_of_validate hm
    have hchange := Change.signingBytes_of_lawful (Change.validate_eq_ok_iff.mp hc)
    refine ⟨_, _, hmanifest, hchange, fun heq => ?_⟩
    rw [← heq] at hchange
    exact Manifest.signingBytes_ne_change hmanifest hchange
  · obtain ⟨-, message, hmessage, rfl⟩ := Manifest.sign_eq_ok_iff.mp h
    exact ⟨message, hmessage, rfl, fun c => Manifest.signingBytes_ne_change hmessage⟩
  · obtain ⟨-, message, hmessage, rfl⟩ := Change.sign_eq_ok_iff.mp h
    exact ⟨message, hmessage, rfl, fun m hm => Manifest.signingBytes_ne_change hm hmessage⟩

namespace OneKey

/-- A key. -/
def owner : Keypair := ⟨.replicate 32 1⟩

/-- Its first manifest. -/
def manifest : Manifest where
  repo := ⟨.replicate 32 0xab⟩
  identity := owner.peerId
  sequence := 1
  refs := .empty

/-- A change by the same key. -/
def change : Change where
  parent := some ⟨.replicate 20 7⟩
  author := owner.peerId
  timestamp := 1000
  action := .close "done"

/-- The two are signed over different bytes, some bytes are read as a manifest and not as a change,
and neither signature is made over what is signed of the other. -/
theorem neither_replayed :
    (∃ message message', manifest.signingBytes = .ok message ∧
        change.signingBytes = .ok message' ∧ message ≠ message') ∧
      (∃ bytes s, SignedManifest.decode bytes = .ok s ∧
        ∀ s', SignedChange.decode bytes ≠ .ok s') ∧
      (∃ s message, manifest.sign owner = .ok s ∧ s.signature = owner.sign message ∧
        change.signingBytes ≠ .ok message) ∧
      ∃ s message, change.sign owner = .ok s ∧ s.signature = owner.sign message ∧
        manifest.signingBytes ≠ .ok message := by
  have hm : manifest.validate = .ok () := by decide
  have hc : change.validate = .ok () := by decide
  obtain ⟨message, message', hmessage, hmessage', hne⟩ := signatures_apart.1 manifest change hm hc
  have hsignM := Manifest.sign_eq_ok_iff.mpr ⟨rfl, message, hmessage, rfl⟩
  have hsignC := Change.sign_eq_ok_iff.mpr ⟨rfl, message', hmessage', rfl⟩
  refine ⟨⟨message, message', hmessage, hmessage', hne⟩, ?_, ?_, ?_⟩
  · have hdecode := SignedManifest.decode_encode
      (SignedManifest.encode_of_validate (s := ⟨manifest, owner.sign message⟩) hm)
    exact ⟨_, _, hdecode, fun s' => signatures_apart.2.1 _ _ s' hdecode⟩
  · obtain ⟨signed, -, hsignature, hnone⟩ := signatures_apart.2.2.1 owner manifest _ hsignM
    exact ⟨_, signed, hsignM, hsignature, hnone change⟩
  · obtain ⟨signed, -, hsignature, hnone⟩ := signatures_apart.2.2.2 owner change _ hsignC
    exact ⟨_, signed, hsignC, hsignature, hnone manifest⟩

end OneKey

end SignedRefs
