import SignedRefs.Proofs.Network.Community
import SignedRefs.Proofs.Node.Log
import SignedRefs.Proofs.Store.Independence

/-!
# Numbering the Own Namespace

A node numbers what it writes: the next manifest has the number that follows on the stored one. What
is stored need not be its own work, though. Whoever has the keys can push a manifest with any
number, and the store accepts the last one, 2⁶⁴ - 1, like every other. After it the numbers start
again with 0, which the store refuses for ever.

So it depends on the number that is stored whether a node can write. This number goes up by one when
the node writes, and otherwise only to one that is brought.

## Main results

* `Node.load_after_cases`: what an event can do to the own namespace.
* `Node.exists_load_afterAll`: what a run makes of it, and how far the numbers have come.
* `Node.load_afterAll_of_last`, `Node.writeRefs_of_last`: when all numbers are used up, the last
  manifest stays, and everything else is refused.
* `Node.numbering_of_run`: when the next number follows and a ref can be set.
* `Exhausted.no_number_left`: a manifest with the last number is pushed.
-/

namespace SignedRefs

/-- Whether a node writes its own namespace in a repository. -/
def NodeEvent.isWrite (repo : RepoId) : NodeEvent → Bool
  | .write _ repo' _ => repo' = repo
  | _ => false

/-- A signed manifest that an event brings is one of an identity for a repository. -/
structure NodeEvent.BringsOwn (event : NodeEvent) (repo : RepoId) (identity : PeerId)
    (signed : SignedManifest) : Prop where
  /-- The event brings it. -/
  brings : event.Brings signed
  /-- It is for the repository. -/
  repo_eq : signed.manifest.repo = repo
  /-- It is one of the identity. -/
  identity_eq : signed.manifest.identity = identity
  /-- The identity signed it. -/
  verify : signed.verify = .ok ()

/-- The manifest of an authentic namespace verifies. -/
theorem Namespace.Authentic.verify {n : Namespace} {repo : RepoId} {identity : PeerId}
    (h : n.Authentic repo identity) : n.signed.verify = .ok () := by
  have hidentity : n.signed.manifest.identity = identity := h.identity_eq
  rw [SignedManifest.verify_eq_ok_iff, hidentity]
  exact h.signature

namespace Node

variable {node node' : Node} {now : Int64} {repo : RepoId} {found : Option Namespace}
  {edit : SortedMap RefName ObjectId → SortedMap RefName ObjectId}

/-- Events leave a node its identity. -/
theorem afterAll_id (node : Node) (events : List NodeEvent) :
    (node.afterAll events).id = node.id := by
  induction events generalizing node with
  | nil => rfl
  | cons event rest ih => exact (ih (node.after event)).trans (node.after_id event)

/-! ### The next number -/

/-- The next number follows on the stored one unless this is the last. -/
theorem sequence_nextManifest_iff (node : Node) (repo : RepoId) (found : Option Namespace)
    (edit : SortedMap RefName ObjectId → SortedMap RefName ObjectId) :
    (node.nextManifest repo found edit).sequence.toNat = Namespace.lastNumber found + 1 ↔
      Namespace.lastNumber found ≠ 2 ^ 64 - 1 := by
  constructor
  · intro hnext hlast
    have hlt := (node.nextManifest repo found edit).sequence.toNat_lt
    omega
  · intro hne
    have hlt := Namespace.lastNumber_lt found
    exact sequence_nextManifest node repo edit (by omega)

/-- After the last number comes 0. -/
theorem sequence_nextManifest_of_last {n : Namespace} (hlast : n.sequence.toNat = 2 ^ 64 - 1) :
    (node.nextManifest repo (some n) edit).sequence = 0 := by
  have hmax : n.sequence = 0xffffffffffffffff := UInt64.toNat_inj.mp hlast
  rw [nextManifest, hmax]
  rfl

/-! ### What happens to the own namespace -/

/-- After an event a node finds what it found before in its own namespace, or an authentic one with
a higher number, since what is brought passes the same check as what is written. This was brought,
or it is the next one and the node has written it. -/
theorem load_after_cases (hload : node.store.load repo node.id = .ok found) (event : NodeEvent) :
    (node.after event).store.load repo node.id = .ok found ∨
      ∃ next, (node.after event).store.load repo node.id = .ok (some next) ∧
        next.Authentic repo node.id ∧ (∀ n, found = some n → n.sequence < next.sequence) ∧
          (event.BringsOwn repo node.id next.signed ∨ event.isWrite repo = true ∧
            next.sequence.toNat = Namespace.lastNumber found + 1) := by
  rcases node.after_cases event with hsame | ⟨now, repo', identity, signed, replaced, store,
    hreplace, hafter, horigin⟩
  · exact .inl (by rw [hsame, hload])
  · have hstored := Store.load_of_replace hreplace repo node.id
    by_cases hplace : repo = repo' ∧ node.id = identity
    · rw [if_pos hplace] at hstored
      obtain ⟨rfl, rfl⟩ := hplace
      obtain ⟨hprevious, haccept, hsigned, -, -⟩ := Store.replace_eq_ok_iff.mp hreplace
      obtain rfl := Except.ok.inj (hprevious.symm.trans hload)
      have hauthentic := Store.authentic_of_acceptable haccept hsigned
      have hnewer : ∀ n, replaced.previous = some n → n.sequence < replaced.current.sequence := by
        rw [Namespace.sequence_of_signed hsigned]
        exact haccept.newer
      refine .inr ⟨replaced.current, by rw [hafter, hstored], hauthentic, hnewer, ?_⟩
      rcases horigin with hbrings | ⟨-, edit, rfl, current, hcurrent, hsign, hfollows⟩
      · rw [← hsigned] at hbrings
        exact .inl ⟨hbrings, hauthentic.repo_eq, hauthentic.identity_eq, hauthentic.verify⟩
      · refine .inr ⟨decide_eq_true rfl, ?_⟩
        obtain rfl := Except.ok.inj (hcurrent.symm.trans hload)
        rw [Manifest.manifest_of_sign hsign] at hfollows
        rw [Namespace.sequence_of_signed hsigned, Manifest.manifest_of_sign hsign]
        exact sequence_nextManifest node repo edit (lastNumber_lt_of_newer hfollows)
    · rw [if_neg hplace] at hstored
      exact .inl (by rw [hafter, hstored, hload])

/-- So the number is at most one that was brought or the one before, and one more if the node has
written. -/
theorem exists_load_after (hload : node.store.load repo node.id = .ok found)
    (hfound : ∀ n, found = some n → n.Authentic repo node.id) (event : NodeEvent) :
    ∃ next, (node.after event).store.load repo node.id = .ok next ∧
      (∀ n, next = some n → n.Authentic repo node.id) ∧
        ∀ k, (∀ signed, event.BringsOwn repo node.id signed →
            signed.manifest.sequence.toNat ≤ k) →
          Namespace.lastNumber next ≤
            max k (Namespace.lastNumber found) + if event.isWrite repo then 1 else 0 := by
  rcases load_after_cases hload event with hsame | ⟨next, hnext, hauthentic, -, horigin⟩
  · exact ⟨found, hsame, hfound, fun k _ => by omega⟩
  · refine ⟨some next, hnext, fun n hn => ?_, fun k hk => ?_⟩
    · cases hn
      exact hauthentic
    · have hlast : Namespace.lastNumber (some next) = next.sequence.toNat := rfl
      rcases horigin with hbrings | ⟨hwrite, hnumber⟩
      · have hle : next.sequence.toNat ≤ k := hk next.signed hbrings
        omega
      · rw [if_pos hwrite]
        omega

/-- After a run the number is at most the highest that was brought or the one before, and one more
for every time that the node has written. -/
theorem exists_load_afterAll (hload : node.store.load repo node.id = .ok found)
    (hfound : ∀ n, found = some n → n.Authentic repo node.id) (events : List NodeEvent) :
    ∃ last, (node.afterAll events).store.load repo node.id = .ok last ∧
      (∀ n, last = some n → n.Authentic repo node.id) ∧
        ∀ k, (∀ event ∈ events, ∀ signed, event.BringsOwn repo node.id signed →
            signed.manifest.sequence.toNat ≤ k) →
          Namespace.lastNumber last ≤
            max k (Namespace.lastNumber found) + events.countP (NodeEvent.isWrite repo) := by
  induction events generalizing node found with
  | nil => exact ⟨found, hload, hfound, fun k _ => Nat.le_max_right _ _⟩
  | cons event rest ih =>
      obtain ⟨next, hnext, hauthentic, hstep⟩ := exists_load_after hload hfound event
      rw [← node.after_id event] at hnext hauthentic hstep ⊢
      obtain ⟨last, hlast, hauthentic', hrest⟩ := ih hnext hauthentic
      refine ⟨last, hlast, hauthentic', fun k hk => ?_⟩
      have hfirst := hstep k (hk event List.mem_cons_self)
      have hlater := hrest k fun event' hmem => hk event' (List.mem_cons_of_mem _ hmem)
      rw [List.countP_cons]
      omega

/-! ### When all numbers are used up -/

/-- Nothing that happens replaces a manifest with the last number. -/
theorem load_after_of_last (hload : node.store.load repo node.id = .ok found)
    (hlast : Namespace.lastNumber found = 2 ^ 64 - 1) (event : NodeEvent) :
    (node.after event).store.load repo node.id = .ok found := by
  rcases load_after_cases hload event with hsame | ⟨next, -, -, hnewer, -⟩
  · exact hsame
  · cases found with
    | none => cases hlast
    | some n =>
        have hlast : n.sequence.toNat = 2 ^ 64 - 1 := hlast
        have hlt := UInt64.lt_iff_toNat_lt.mp (hnewer n rfl)
        have hbound := next.sequence.toNat_lt
        omega

/-- Nor does a run. -/
theorem load_afterAll_of_last (hload : node.store.load repo node.id = .ok found)
    (hlast : Namespace.lastNumber found = 2 ^ 64 - 1) (events : List NodeEvent) :
    (node.afterAll events).store.load repo node.id = .ok found := by
  induction events generalizing node with
  | nil => exact hload
  | cons event rest ih =>
      have hnext := load_after_of_last hload hlast event
      rw [← node.after_id event] at hnext ⊢
      exact ih hnext

/-- What is written has a number, so nothing can be written when all numbers are used up. -/
theorem exists_error_of_last (hload : node.store.load repo node.id = .ok found)
    (hlast : Namespace.lastNumber found = 2 ^ 64 - 1) (now : Int64)
    (edit : SortedMap RefName ObjectId → SortedMap RefName ObjectId) :
    ∃ error, node.writeRefs now repo edit = .error error := by
  cases hwrite : node.writeRefs now repo edit with
  | error error => exact ⟨error, rfl⟩
  | ok done =>
      obtain ⟨-, hnumber, -⟩ := load_of_writeRefs hload hwrite
      have hlt := done.1.sequence.toNat_lt
      omega

/-- What the node signs instead is refused as not newer, even if nothing else is wrong with it. -/
theorem writeRefs_of_last {n : Namespace} (hload : node.store.load repo node.id = .ok (some n))
    (hlast : n.sequence.toNat = 2 ^ 64 - 1)
    (hvalid : (node.nextManifest repo (some n) edit).validate = .ok ())
    (hverifies : node.Verifies (node.nextManifest repo (some n) edit)) (now : Int64) :
    node.writeRefs now repo edit = .error (.store (.stale node.id n 0)) := by
  obtain ⟨message, hmessage, hsign⟩ := sign_nextManifest hvalid
  obtain ⟨hrepo, hidentity⟩ := place_of_sign hsign
  have hfits : Delivery.Fits ⟨repo, node.id, _⟩ :=
    ⟨hidentity, hrepo, hvalid, ⟨message, hmessage, hverifies message hmessage⟩, nofun⟩
  obtain ⟨new, hcheck⟩ := (Store.exists_check_iff now).mpr hfits
  have hzero : new.sequence = 0 := by
    obtain ⟨-, -, -, hsigned, -⟩ := Store.check_eq_ok_iff.mp hcheck
    rw [Namespace.sequence_of_signed hsigned]
    exact sequence_nextManifest_of_last hlast
  have hstale := Store.replace_of_stale hcheck hload (by rw [hzero]; exact UInt64.zero_le)
  rw [hzero] at hstale
  have hnamespace : node.namespace? repo = .ok (some n) := mapError_eq_ok_iff.mpr hload
  have hput : node.store.put now repo ⟨node.nextManifest repo (some n) edit,
      node.keys.sign message⟩ = .error (.stale node.id n 0) := by
    rw [Store.put, hidentity, hstale]
    rfl
  simp only [writeRefs, hnamespace, hsign, hput, Bind.bind, Except.bind, Except.mapError]

/-! ### After any run -/

/-- After any run of writes, fetches and answered requests the number that follows in the own
namespace is one more than the stored one exactly if this is not the last number, 2⁶⁴ - 1. Exactly
then a ref can be set, if the rules allow it and what is signed for it verifies, and what is stored
afterwards has the number that follows. When the last number is stored, whatever happens later the
node cannot write in the repository any more. This takes that many writes, unless a manifest of the
node itself is brought: the stored number is at most the highest of these and one more for each
write. -/
theorem numbering_of_run (node : Node) (backend : Backend) (events : List NodeEvent)
    (repo : RepoId) :
    let last := { node with store := backend.newStore }.afterAll events
    ∃ found, last.store.load repo last.id = .ok found ∧
      (∀ edit, (last.nextManifest repo found edit).sequence.toNat =
          Namespace.lastNumber found + 1 ↔ Namespace.lastNumber found ≠ 2 ^ 64 - 1) ∧
      (∀ now name target, name ≠ .signedRefs →
        ((Namespace.lastRefs found).insert name target).size ≤ 4096 →
          last.Verifies (last.nextManifest repo found fun refs => refs.insert name target) →
            ((∃ written after, last.setRef now repo name target = .ok (written, after) ∧
                after.store.load repo last.id = .ok (some written) ∧
                written.sequence.toNat = Namespace.lastNumber found + 1) ↔
              Namespace.lastNumber found ≠ 2 ^ 64 - 1)) ∧
      (Namespace.lastNumber found = 2 ^ 64 - 1 →
        ∀ more now edit, ∃ error, (last.afterAll more).writeRefs now repo edit = .error error) ∧
      ∀ k, (∀ event ∈ events, ∀ signed, event.BringsOwn repo node.id signed →
          signed.manifest.sequence.toNat ≤ k) →
        Namespace.lastNumber found ≤ k + events.countP (NodeEvent.isWrite repo) := by
  intro last
  have hempty : ({ node with store := backend.newStore } : Node).store.load repo
      ({ node with store := backend.newStore } : Node).id = .ok none :=
    backend.load_newStore repo node.id
  obtain ⟨found, hload, hfound, hnumber⟩ :=
    exists_load_afterAll hempty (fun n hn => by cases hn) events
  have hid : last.id = node.id := afterAll_id _ events
  change last.store.load repo node.id = .ok found at hload
  rw [← hid] at hload
  have hlisted : (Namespace.lastRefs found).contains .signedRefs = false := by
    cases found with
    | none => rfl
    | some n => exact (hfound n rfl).not_listed
  refine ⟨found, hload, fun edit => sequence_nextManifest_iff last repo found edit,
    fun now name target hname hsize hverifies => ⟨?_, fun hne => ?_⟩,
    fun hlast more now edit => ?_, fun k hk => ?_⟩
  · rintro ⟨written, after, hset, -, hsequence⟩ hlast
    obtain ⟨error, herror⟩ := exists_error_of_last hload hlast now fun refs =>
      refs.insert name target
    rw [setRef, herror] at hset
    cases hset
  · have hfew := Namespace.lastNumber_lt found
    obtain ⟨written, after, hwrite⟩ := exists_writeRefs hload
      ((validate_nextManifest_iff hlisted).mpr ⟨hname, hsize⟩) hverifies (by omega) now
    obtain ⟨hfound', hsequence, -⟩ := load_of_writeRefs hload hwrite
    exact ⟨written, after, hwrite, hfound', hsequence⟩
  · have hstays := load_afterAll_of_last hload hlast more
    rw [← afterAll_id last more] at hstays
    exact exists_error_of_last hstays hlast now edit
  · have hbound := hnumber k hk
    rw [show Namespace.lastNumber none = 0 from rfl] at hbound
    omega

end Node

/-! ### The last numbers -/

namespace Exhausted

open Forked

/-- A branch. -/
def main : RefName := .head ⟨"main", valid_main⟩

/-- The branch points at a commit. -/
def refs (n : UInt8) : SortedMap RefName ObjectId := .ofList [(main, commit n)]

/-- Pointing the branch at the second commit replaces the first. -/
theorem insert_refs : (refs 1).insert main (commit 2) = refs 2 := by decide

/-- A manifest of Alice with a number. -/
def manifest (number : UInt64) (n : Nat) : SignedManifest :=
  ⟨⟨repo, alice, number, refs 1⟩, signature n⟩

/-- Alice's manifest with the last number but one. -/
def lastButOne : SignedManifest := manifest 0xfffffffffffffffe
  0x5837e2d2a00c387b736043661d6716f534c27bb696e30cb53a55cc43b9939d9c7255c340572ba858649e1c04aeac1c8276688414660c8b1bec1adc603e3f2303

/-- Her manifest with the last number. -/
def last : SignedManifest := manifest 0xffffffffffffffff
  0xa15b4675a94c7057ebec0d71a501dad56d3fa661755c00e7a72044159288d15563d8621d27ceae6e95ad924a892f621651da349bf396984c39262a3b0f710f05

/-- Her manifest with a number when she has pointed the branch at another commit. -/
def next (number : UInt64) : Manifest := ⟨repo, alice, number, refs 2⟩

/-- A manifest is pushed to Alice's node from elsewhere. -/
def push (signed : SignedManifest) : NodeEvent :=
  .serve 1700000000000 <| .push repo alice <|
    match signed.encode with
    | .ok bytes => bytes
    | .error _ => []

/-- Her node afterwards. -/
def pushed (signed : SignedManifest) : Node := fresh.afterAll [push signed]

set_option maxRecDepth 100000 in
/-- Both manifests are accepted, and what Alice signs next verifies. -/
theorem facts_pushed :
    (pushed lastButOne).store.held repo alice = .ok (some lastButOne) ∧
      (pushed last).store.held repo alice = .ok (some last) ∧
      ((next 0xffffffffffffffff).signingBytes >>= fun message =>
        alice.verify message (fresh.keys.sign message)) = .ok () ∧
      ((next 0).signingBytes >>= fun message =>
        alice.verify message (fresh.keys.sign message)) = .ok () := by
  decide +kernel

/-- The push brings this manifest and no other. -/
theorem eq_of_brings {signed brought : SignedManifest} (h : (push signed).Brings brought) :
    brought = signed := by
  obtain ⟨repo', identity, encoded, hpush, hdecode⟩ := h
  cases hencode : signed.encode with
  | error error =>
      rw [hencode] at hpush
      cases hpush
      cases hdecode
  | ok bytes =>
      rw [hencode] at hpush
      cases hpush
      rw [SignedManifest.decode_encode hencode] at hdecode
      exact (Except.ok.inj hdecode).symm

/-- Whatever is pushed, the node is Alice's. -/
theorem id_pushed (signed : SignedManifest) : (pushed signed).id = alice :=
  (fresh.afterAll_id _).trans facts_started.1

/-- What is held is found in Alice's own namespace. -/
theorem exists_load_pushed {signed : SignedManifest}
    (h : (pushed signed).store.held repo alice = .ok (some signed)) :
    ∃ n, (pushed signed).store.load repo (pushed signed).id = .ok (some n) ∧
      n.signed = signed := by
  rw [id_pushed]
  exact Store.held_eq_some_iff.mp h

section

variable {number : UInt64} {sig : Nat} {n : Namespace} (hn : n.signed = manifest number sig)

include hn

/-- Pointing the branch at the second commit replaces the first in a namespace with such a manifest.
-/
theorem insert_refs_of_signed : n.manifest.refs.insert main (commit 2) = refs 2 := by
  rw [Namespace.manifest, hn]
  exact insert_refs

/-- What comes after one of these manifests when the branch is pointed at another commit. -/
theorem nextManifest_eq (signed : SignedManifest) :
    ((pushed signed).nextManifest repo (some n) fun refs => refs.insert main (commit 2)) =
      next (number + 1) := by
  rw [Node.nextManifest, Namespace.sequence_of_signed hn, insert_refs_of_signed hn, id_pushed]
  rfl

/-- What Alice signs next verifies if this signature does. -/
theorem verifies_next (signed : SignedManifest)
    (h : ((next (number + 1)).signingBytes >>= fun message =>
      alice.verify message (fresh.keys.sign message)) = .ok ()) :
    (pushed signed).Verifies ((pushed signed).nextManifest repo (some n) fun refs =>
      refs.insert main (commit 2)) := by
  rw [nextManifest_eq hn]
  refine Node.verifies_of_bind ?_
  rw [id_pushed]
  exact h

/-- There is one ref in the end. -/
theorem size_insert : (n.manifest.refs.insert main (commit 2)).size ≤ 4096 := by
  rw [insert_refs_of_signed hn]
  decide

end

/-- A manifest with the last number is accepted. The number that follows is 0, and although nothing
is wrong with the ref that Alice sets and her signature verifies, she cannot set it. -/
theorem no_number_left :
    let node := fresh.afterAll [push last]
    ∃ n, node.store.load repo node.id = .ok (some n) ∧ n.sequence.toNat = 2 ^ 64 - 1 ∧
      (∀ edit, (node.nextManifest repo (some n) edit).sequence = 0) ∧ main ≠ .signedRefs ∧
      (n.manifest.refs.insert main (commit 2)).size ≤ 4096 ∧
      node.Verifies (node.nextManifest repo (some n) fun refs => refs.insert main (commit 2)) ∧
      node.setRef 1700000000001 repo main (commit 2) = .error (.store (.stale alice n 0)) := by
  intro node
  obtain ⟨-, hheld, -, hsigned⟩ := facts_pushed
  obtain ⟨n, hload, hn⟩ := exists_load_pushed hheld
  have hlast : n.sequence.toNat = 2 ^ 64 - 1 := by
    rw [Namespace.sequence_of_signed hn]
    rfl
  have hverifies := verifies_next hn last hsigned
  refine ⟨n, hload, hlast, fun edit => Node.sequence_nextManifest_of_last hlast, nofun,
    size_insert hn, hverifies, ?_⟩
  rw [← id_pushed last]
  refine Node.writeRefs_of_last hload hlast ?_ hverifies _
  rw [nextManifest_eq hn]
  decide

/-- After the last number but one the ref can be set, and it gets the last number. -/
theorem last_number_written :
    let node := fresh.afterAll [push lastButOne]
    ∃ n, node.store.load repo node.id = .ok (some n) ∧
      (∀ event ∈ [push lastButOne], ∀ signed, event.BringsOwn repo fresh.id signed →
        signed.manifest.sequence.toNat ≤ 2 ^ 64 - 2) ∧
      n.sequence.toNat ≤ 2 ^ 64 - 2 ∧ main ≠ .signedRefs ∧
      (n.manifest.refs.insert main (commit 2)).size ≤ 4096 ∧
      ∃ written after, node.setRef 1700000000001 repo main (commit 2) = .ok (written, after) ∧
        written.sequence.toNat = 2 ^ 64 - 1 := by
  intro node
  obtain ⟨hheld, -, hsigned, -⟩ := facts_pushed
  obtain ⟨n, hload, hn⟩ := exists_load_pushed hheld
  have hnumber : Namespace.lastNumber (some n) = 2 ^ 64 - 2 := by
    change n.sequence.toNat = 2 ^ 64 - 2
    rw [Namespace.sequence_of_signed hn]
    rfl
  have hbrought : ∀ event ∈ [push lastButOne], ∀ signed, event.BringsOwn repo fresh.id signed →
      signed.manifest.sequence.toNat ≤ 2 ^ 64 - 2 := by
    intro event hevent signed hown
    rw [List.mem_singleton.mp hevent] at hown
    rw [eq_of_brings hown.brings]
    decide
  obtain ⟨found, hfound, -, hset, -, hbound⟩ :=
    Node.numbering_of_run fresh .memory [push lastButOne] repo
  obtain rfl := Except.ok.inj (hload.symm.trans hfound)
  obtain ⟨written, after, hwrite, -, hsequence⟩ := (hset 1700000000001 main (commit 2) nofun
    (size_insert hn) (verifies_next hn lastButOne hsigned)).mpr (by omega)
  exact ⟨n, hload, hbrought, hbound _ hbrought, nofun, size_insert hn, written, after, hwrite,
    by omega⟩

end Exhausted

end SignedRefs
