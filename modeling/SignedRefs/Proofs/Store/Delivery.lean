import SignedRefs.Proofs.Store.Acceptance

/-!
# Delivering in Any Order

Signed manifests reach a store late, twice, in the wrong order and among forged ones. Which of them
it accepts, and what each of these replaces, depends on the order. What it holds in the end does
not: in every place it is the newest of what could be written there and of what was there before
(`Newest`). Only the time at which a manifest is said to be received may differ.

The invariant is over the part of the list that has been delivered. It is kept by one more delivery,
whether accepted or not, and it determines what is held as soon as no two fitting manifests for one
place share a number.

## Main results

* `Newest.trans`, `Newest.unique`: the newest of two parts, and when there is only one.
* `Store.newest_of_perform`, `Store.newest_of_deliver`: what is held after one delivery and after
  several.
* `Store.held_of_deliveries`: the order of deliveries does not matter.
-/

namespace SignedRefs

/-- A signed manifest that is to be written under a repository and an identity. -/
structure Delivery where
  /-- The repository. -/
  repo : RepoId
  /-- The identity. -/
  identity : PeerId
  /-- The signed manifest. -/
  signed : SignedManifest
deriving DecidableEq

namespace Delivery

/-- The write that a delivery is when it arrives. -/
def write (d : Delivery) (now : Int64) : Write := .replace now d.repo d.identity d.signed

/-- A delivery could be written if nothing was stored in its place. -/
def Fits (d : Delivery) : Prop := Acceptable d.repo d.identity d.signed none

end Delivery

/-! ### The newest manifest -/

/-- Of the manifest that was there before and of those that were delivered, `after` is the one with
the highest number. If none that was delivered has a higher number, the one before stays. -/
structure Newest (before : Option SignedManifest) (delivered : SignedManifest → Prop)
    (after : Option SignedManifest) : Prop where
  /-- It was there before, or it was delivered. -/
  origin : after = before ∨ ∃ m, after = some m ∧ delivered m
  /-- It is the one before or has a higher number. -/
  above_before : ∀ m, before = some m →
    after = some m ∨ ∃ n, after = some n ∧ m.manifest.sequence < n.manifest.sequence
  /-- Nothing that was delivered has a higher number. -/
  above_delivered : ∀ m, delivered m →
    ∃ n, after = some n ∧ m.manifest.sequence ≤ n.manifest.sequence

namespace Newest

variable {before middle after other : Option SignedManifest}
  {delivered later : SignedManifest → Prop}

/-- Where nothing is delivered, the one before is the newest. -/
theorem refl (h : ∀ m, ¬delivered m) : Newest before delivered before :=
  ⟨.inl rfl, fun _ hm => .inl hm, fun m hm => absurd hm (h m)⟩

/-- What was delivered in two parts is compared in two steps, as whatever is in the middle is below
what comes after it. -/
theorem trans (h : Newest before delivered middle) (h' : Newest middle later after) :
    Newest before (fun m => delivered m ∨ later m) after := by
  have hmiddle : ∀ n, middle = some n →
      ∃ l, after = some l ∧ n.manifest.sequence ≤ l.manifest.sequence := fun n hn => by
    rcases h'.above_before n hn with hsame | ⟨l, hl, hlt⟩
    · exact ⟨n, hsame, UInt64.le_refl _⟩
    · exact ⟨l, hl, UInt64.le_of_lt hlt⟩
  refine ⟨?_, fun m hm => ?_, fun m hm => ?_⟩
  · rcases h'.origin with rfl | ⟨m, hm, hlater⟩
    · rcases h.origin with hbefore | ⟨m, hm, hdelivered⟩
      · exact .inl hbefore
      · exact .inr ⟨m, hm, .inl hdelivered⟩
    · exact .inr ⟨m, hm, .inr hlater⟩
  · rcases h.above_before m hm with hsame | ⟨n, hn, hlt⟩
    · exact h'.above_before m hsame
    · obtain ⟨l, hl, hle⟩ := hmiddle n hn
      exact .inr ⟨l, hl, UInt64.lt_of_lt_of_le hlt hle⟩
  · rcases hm with hdelivered | hlater
    · obtain ⟨n, hn, hle⟩ := h.above_delivered m hdelivered
      obtain ⟨l, hl, hle'⟩ := hmiddle n hn
      exact ⟨l, hl, UInt64.le_trans hle hle'⟩
    · exact h'.above_delivered m hlater

/-- What is the newest depends only on what was delivered. -/
theorem congr (h : Newest before delivered after) (hsame : ∀ m, later m ↔ delivered m) :
    Newest before later after := by
  obtain rfl : later = delivered := funext fun m => propext (hsame m)
  exact h

/-- The one before may be delivered once more. -/
theorem mono (h : Newest before delivered after) (hmore : ∀ m, delivered m → later m)
    (hlater : ∀ m, later m → delivered m ∨ before = some m) : Newest before later after := by
  refine ⟨?_, h.above_before, fun m hm => ?_⟩
  · rcases h.origin with hbefore | ⟨m, hm, hdelivered⟩
    · exact .inl hbefore
    · exact .inr ⟨m, hm, hmore m hdelivered⟩
  · rcases hlater m hm with hdelivered | hbefore
    · exact h.above_delivered m hdelivered
    · rcases h.above_before m hbefore with hsame | ⟨n, hn, hlt⟩
      · exact ⟨m, hsame, UInt64.le_refl _⟩
      · exact ⟨n, hn, UInt64.le_of_lt hlt⟩

/-- If what was delivered has different numbers, only one is the newest: what was delivered is not
the newest beside the one before, unless they are the same. -/
theorem unique (h : Newest before delivered after) (h' : Newest before delivered other)
    (hdistinct : ∀ m n, delivered m → delivered n →
      m.manifest.sequence = n.manifest.sequence → m = n) : after = other := by
  have hbefore : ∀ {a : Option SignedManifest} {m}, Newest before delivered before →
      Newest before delivered a → a = some m → delivered m → before = a := by
    intro a m hb ha heq hm
    obtain ⟨n, hn, hle⟩ := hb.above_delivered m hm
    rcases ha.above_before n hn with hsame | ⟨l, hl, hlt⟩
    · rw [hn, hsame]
    · rw [heq] at hl
      cases hl
      exact absurd hle (UInt64.not_le.mpr hlt)
  rcases h.origin with rfl | ⟨m, hm, hdelivered⟩
  · rcases h'.origin with rfl | ⟨n, hn, hdelivered⟩
    · rfl
    · exact hbefore h h' hn hdelivered
  · rcases h'.origin with rfl | ⟨n, hn, hdelivered'⟩
    · exact (hbefore h' h hm hdelivered).symm
    · obtain ⟨l, hl, hle⟩ := h'.above_delivered m hdelivered
      obtain ⟨l', hl', hle'⟩ := h.above_delivered n hdelivered'
      rw [hn] at hl
      rw [hm] at hl'
      cases hl
      cases hl'
      rw [hm, hn, hdistinct m n hdelivered hdelivered' (UInt64.le_antisymm hle hle')]

end Newest

/-! ### Delivering -/

namespace Store

/-- The signed manifest that is stored in a place. -/
def held (store : Store) (repo : RepoId) (identity : PeerId) :
    Except StoreError (Option SignedManifest) :=
  (store.load repo identity).map (Option.map Namespace.signed)

/-- The store after deliveries, each of which arrives at some time. -/
def deliver (store : Store) (deliveries : List (Int64 × Delivery)) : Store :=
  (store.run (deliveries.map fun e => e.2.write e.1)).2

variable {store : Store} {repo : RepoId} {identity : PeerId}

/-- A manifest is held if a namespace with it is stored. -/
theorem held_eq_some_iff {signed : SignedManifest} :
    store.held repo identity = .ok (some signed) ↔
      ∃ stored, store.load repo identity = .ok (some stored) ∧ stored.signed = signed := by
  rw [held]
  cases store.load repo identity with
  | error error => simp [Except.map]
  | ok found => cases found <;> simp [Except.map]

/-- What is written is held in its place, and everything else where it was. -/
theorem held_of_replace {after : Store} {now : Int64} {signed : SignedManifest}
    {replaced : Replaced} (h : store.replace now repo identity signed = .ok (replaced, after))
    (repo' : RepoId) (identity' : PeerId) :
    after.held repo' identity' =
      if repo' = repo ∧ identity' = identity then .ok (some signed)
      else store.held repo' identity' := by
  obtain ⟨-, -, hsigned, -, -⟩ := replace_eq_ok_iff.mp h
  rw [held, load_of_replace h]
  split
  · rw [← hsigned]
    rfl
  · rfl

/-- A manifest is acceptable if it fits and has a higher number than what is stored. -/
theorem acceptable_iff_fits {signed : SignedManifest} {before : Option Namespace} :
    Acceptable repo identity signed before ↔ Delivery.Fits ⟨repo, identity, signed⟩ ∧
      ∀ stored, before = some stored → stored.sequence < signed.manifest.sequence := by
  constructor
  · rintro ⟨hidentity, hrepo, hvalid, hsignature, hnewer⟩
    exact ⟨⟨hidentity, hrepo, hvalid, hsignature, fun _ h => by cases h⟩, hnewer⟩
  · rintro ⟨⟨hidentity, hrepo, hvalid, hsignature, -⟩, hnewer⟩
    exact ⟨hidentity, hrepo, hvalid, hsignature, hnewer⟩

/-- What passes the checks fits. -/
theorem exists_check_iff (now : Int64) {signed : SignedManifest} :
    (∃ new, check now repo identity signed = .ok new) ↔
      Delivery.Fits ⟨repo, identity, signed⟩ := by
  constructor
  · rintro ⟨new, hcheck⟩
    obtain ⟨-, -, -, hsigned, hnow⟩ := check_eq_ok_iff.mp hcheck
    exact (acceptable_iff hsigned hnow).mpr ⟨hcheck, nofun⟩
  · intro hfits
    obtain ⟨new, hnew⟩ := Namespace.exists_ofSigned hfits.valid now
    obtain ⟨hsigned, hnow⟩ := Namespace.ofSigned_eq_ok_iff.mp hnew
    exact ⟨new, ((acceptable_iff hsigned hnow).mp hfits).1⟩

/-- After a delivery the newest of what it brings and of what was there before is held in every
place. If what fits was refused, its number is not higher than the one that is stored. -/
theorem newest_of_perform {before : Option SignedManifest}
    (h : store.held repo identity = .ok before) (now : Int64) (d : Delivery) :
    ∃ after, (store.perform (d.write now)).2.held repo identity = .ok after ∧
      Newest before (fun m => d = ⟨repo, identity, m⟩ ∧ d.Fits) after := by
  obtain ⟨found, hload, rfl⟩ := map_eq_ok_iff.mp h
  simp only [Delivery.write, perform]
  cases hreplace : store.replace now d.repo d.identity d.signed with
  | error error =>
      refine ⟨_, h, .inl rfl, fun _ hm => .inl hm, ?_⟩
      rintro m ⟨rfl, hfits⟩
      obtain ⟨haccepted, -⟩ := replace_of_load hload now m
      have hrefused : ¬Acceptable repo identity m found := fun haccept => by
        obtain ⟨done, hdone⟩ := haccepted.mpr haccept
        rw [hreplace] at hdone
        cases hdone
      rw [acceptable_iff_fits] at hrefused
      obtain ⟨stored, hstored, hle⟩ := not_forall₂.mp (not_and.mp hrefused hfits)
      exact ⟨stored.signed, by rw [hstored]; rfl, UInt64.not_lt.mp hle⟩
  | ok done =>
      obtain ⟨replaced, after⟩ := done
      obtain ⟨hprevious, haccept, -, -, -⟩ := replace_eq_ok_iff.mp hreplace
      rw [held_of_replace hreplace]
      by_cases hplace : repo = d.repo ∧ identity = d.identity
      · obtain ⟨rfl, rfl⟩ := hplace
        rw [hprevious] at hload
        cases hload
        rw [if_pos ⟨rfl, rfl⟩]
        refine ⟨some d.signed, rfl, .inr ⟨_, rfl, rfl, (acceptable_iff_fits.mp haccept).1⟩,
          fun m hm => .inr ?_, ?_⟩
        · obtain ⟨stored, hstored, rfl⟩ := Option.map_eq_some_iff.mp hm
          exact ⟨d.signed, rfl, haccept.newer stored hstored⟩
        · rintro m ⟨hd, -⟩
          exact ⟨d.signed, rfl, by rw [hd]; exact UInt64.le_refl _⟩
      · rw [if_neg hplace]
        refine ⟨_, h, .refl fun m hm => hplace ?_⟩
        rw [hm.1]
        exact ⟨rfl, rfl⟩

/-- After deliveries the newest of what they bring and of what was there before is held in every
place. -/
theorem newest_of_deliver {before : Option SignedManifest}
    (h : store.held repo identity = .ok before) (deliveries : List (Int64 × Delivery)) :
    ∃ after, (store.deliver deliveries).held repo identity = .ok after ∧
      Newest before (fun m => ⟨repo, identity, m⟩ ∈ deliveries.map Prod.snd ∧
        Delivery.Fits ⟨repo, identity, m⟩) after := by
  induction deliveries generalizing store before with
  | nil => exact ⟨before, h, .refl fun m hm => List.not_mem_nil hm.1⟩
  | cons e rest ih =>
      obtain ⟨middle, hmiddle, hfirst⟩ := newest_of_perform h e.1 e.2
      obtain ⟨after, hafter, hrest⟩ := ih hmiddle
      refine ⟨after, hafter, (hfirst.trans hrest).congr fun m => ?_⟩
      rw [List.map_cons, List.mem_cons, or_and_right, eq_comm]
      exact or_congr_left (and_congr_right fun heq => by rw [heq])

/-- Where a look-up fails, it still fails in the same way after a delivery. -/
theorem load_error_of_perform {error : StoreError} (h : store.load repo identity = .error error)
    (now : Int64) (d : Delivery) :
    (store.perform (d.write now)).2.load repo identity = .error error := by
  simp only [Delivery.write, perform]
  cases hreplace : store.replace now d.repo d.identity d.signed with
  | error _ => exact h
  | ok done =>
      have hprevious := (replace_eq_ok_iff.mp hreplace).1
      refine (load_of_replace hreplace repo identity).trans ?_
      rw [if_neg, h]
      rintro ⟨rfl, rfl⟩
      rw [h] at hprevious
      cases hprevious

/-- Where look-ups fail, nothing that is delivered changes this. -/
theorem load_error_of_deliver {error : StoreError} (h : store.load repo identity = .error error)
    (deliveries : List (Int64 × Delivery)) :
    (store.deliver deliveries).load repo identity = .error error := by
  induction deliveries generalizing store with
  | nil => exact h
  | cons e rest ih => exact ih (load_error_of_perform h e.1 e.2)

/-- Deliveries may arrive in any order and at any time: if no two of them that fit in one place
share a number without being the same, the same signed manifests are held in the end. In each place
it is the newest of those that fit there and of the one before; a place that cannot be looked up
stays so. -/
theorem held_of_deliveries (store : Store) (one other : List (Int64 × Delivery))
    (horder : (one.map Prod.snd).Perm (other.map Prod.snd))
    (hdistinct : ∀ d ∈ one.map Prod.snd, ∀ d' ∈ one.map Prod.snd, d.Fits → d'.Fits →
      d.repo = d'.repo → d.identity = d'.identity →
        d.signed.manifest.sequence = d'.signed.manifest.sequence → d.signed = d'.signed)
    (repo : RepoId) (identity : PeerId) :
    (store.deliver one).held repo identity = (store.deliver other).held repo identity ∧
      (∀ before, store.held repo identity = .ok before →
        ∃ after, (store.deliver one).held repo identity = .ok after ∧
          Newest before (fun m => ⟨repo, identity, m⟩ ∈ one.map Prod.snd ∧
            Delivery.Fits ⟨repo, identity, m⟩) after) ∧
      ∀ error, store.load repo identity = .error error →
        (store.deliver one).load repo identity = .error error := by
  refine ⟨?_, fun before h => newest_of_deliver h one, fun error h => load_error_of_deliver h one⟩
  cases hload : store.load repo identity with
  | error error =>
      rw [held, held, load_error_of_deliver hload, load_error_of_deliver hload]
  | ok found =>
      have hheld : store.held repo identity = .ok (found.map Namespace.signed) :=
        map_eq_ok_iff.mpr ⟨found, hload, rfl⟩
      obtain ⟨after, hafter, hone⟩ := newest_of_deliver hheld one
      obtain ⟨after', hafter', hother⟩ := newest_of_deliver hheld other
      have hsame := hother.congr fun m => and_congr_left fun _ => horder.mem_iff
      rw [hafter, hafter', hone.unique hsame fun m n hm hn =>
        hdistinct _ hm.1 _ hn.1 hm.2 hn.2 rfl rfl]

end Store

namespace OutOfOrder

/-- The repository. -/
def repo : RepoId := ⟨.replicate 32 9⟩

/-- The owner of the namespace. -/
def alice : PeerId :=
  ⟨.ofNat 32 0x8a88e3dd7409f195fd52db2d3cba5d72ca6709bf1d94121bf3748801b40f6f5c⟩

/-- The name is one for a branch. -/
theorem valid_main : BranchName.fault? "main" = none := by decide

/-- Alice's manifest with a number, in which her branch points at a commit of that number. -/
def signed (number : UInt8) (signature : Nat) : SignedManifest :=
  ⟨⟨repo, alice, number.toUInt64, .ofList [(.head ⟨"main", valid_main⟩, ⟨.replicate 20 number⟩)]⟩,
    ⟨.ofNat 64 signature⟩⟩

/-- Her first manifest. -/
def first : SignedManifest := signed 1
  0x03fba512c165c284330f235739fc33f75cd967acac78124dae8be25205a987ab27c43ebda9917f0f35c361973f4fae3c56e410c7bf1ad2a4102260db82b27e05

/-- Her second manifest. -/
def second : SignedManifest := signed 2
  0x5c672a066ed5ad10b967b6c2f6a232c6c690c1b17cf82380295672ab4776960e097cfc5f19223f16a019b01249b70367fe1be448f5d34c8dcef95f32abf8ae06

/-- A third one, which she did not sign. -/
def forged : SignedManifest := ⟨(signed 3 0).manifest, second.signature⟩

/-- All of them, the first one last. -/
def deliveries : List (Int64 × Delivery) :=
  [(1700000000000, ⟨repo, alice, forged⟩), (1700000000001, ⟨repo, alice, second⟩),
    (1700000000002, ⟨repo, alice, first⟩)]

/-- The second one is held, whether it comes before the first one or after it. -/
theorem second_held :
    (Store.inDatabase.deliver deliveries).held repo alice = .ok (some second) ∧
      (Store.inDatabase.deliver deliveries.reverse).held repo alice = .ok (some second) := by
  have horder : (deliveries.map Prod.snd).Perm (deliveries.reverse.map Prod.snd) :=
    (List.reverse_perm deliveries).symm.map _
  have hnumbers : ∀ d ∈ deliveries.map Prod.snd, ∀ d' ∈ deliveries.map Prod.snd,
      d.signed.manifest.sequence = d'.signed.manifest.sequence → d.signed = d'.signed := by decide
  have hheld : (Store.inDatabase.deliver deliveries).held repo alice = .ok (some second) := by
    decide +kernel
  obtain ⟨hsame, -, -⟩ := Store.held_of_deliveries .inDatabase deliveries deliveries.reverse horder
    (fun d hd d' hd' _ _ _ _ => hnumbers d hd d' hd') repo alice
  exact ⟨hheld, hsame ▸ hheld⟩

end OutOfOrder

end SignedRefs
