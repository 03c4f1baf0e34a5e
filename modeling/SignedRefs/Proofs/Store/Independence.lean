import SignedRefs.Proofs.Store.Delivery
import SignedRefs.Proofs.Store.Authenticity

/-!
# What a Request Depends on

The answer to a request for an identity's manifest is compared with what is stored for this
identity, and with nothing else; the time on the clock goes into what is stored, but into no
decision. So the answers for two identities can be taken in either order, and what each of them
leads to is what it would have led to alone.

## Main results

* `Answer.exists_effect`: an answer does to every store the same that finds the same in its place.
* `Answer.apply_comm`: answers for two identities commute.
* `Answer.apply_now`: another time changes neither outcomes nor the signed manifests that are held.
* `Store.NotBehind.of_accepts`: no number in a store goes down.
-/

namespace SignedRefs

/-- What is stored fits in its place. -/
theorem Namespace.Authentic.fits {n : Namespace} {repo : RepoId} {identity : PeerId}
    (h : n.Authentic repo identity) : Delivery.Fits ⟨repo, identity, n.signed⟩ :=
  ⟨h.identity_eq, h.repo_eq, h.valid, h.signature, nofun⟩

namespace Store

variable {store : Store} {now : Int64} {repo : RepoId} {identity : PeerId} {signed : SignedManifest}
  {new : Namespace}

/-! ### Saving -/

/-- The store with a namespace saved, if there is one and the store can save it. -/
def saved (store : Store) : Option Namespace → Store
  | none => store
  | some new => (store.save new).toOption.getD store

/-- What is saved is found in its place only. -/
theorem load_saved_of_ne {new? : Option Namespace}
    (hne : ∀ new ∈ new?, ¬(repo = new.repo ∧ identity = new.identity)) :
    (store.saved new?).load repo identity = store.load repo identity := by
  cases new? with
  | none => rfl
  | some new =>
      rw [saved]
      cases hsave : store.save new with
      | error error => rfl
      | ok after => exact (load_of_save hsave repo identity).trans (if_neg (hne new rfl))

/-- A database whose table is missing cannot save anything. -/
theorem saved_database_none (version : Nat) (new? : Option Namespace) :
    (database ⟨version, none⟩).saved new? = database ⟨version, none⟩ := by
  cases new? with
  | none => rfl
  | some new =>
      obtain ⟨bytes, hbytes⟩ := new.exists_encode
      simp only [saved, save, Database.save, hbytes]
      rfl

/-- Where a database saves a namespace. -/
theorem saved_database_some {version : Nat} {rows : SortedMap RowKey Row} {bytes : Bytes}
    (h : new.signed.encode = .ok bytes) :
    (database ⟨version, some rows⟩).saved (some new) = database ⟨version,
      some (rows.insert (Database.key new.repo new.identity) ⟨bytes, new.receivedAt⟩)⟩ := by
  simp only [saved, save, Database.save, h]
  rfl

/-- Namespaces for different places can be saved in either order. -/
theorem saved_comm (store : Store) {new? other? : Option Namespace}
    (hne : ∀ new ∈ new?, ∀ other ∈ other?,
      ¬(new.repo = other.repo ∧ new.identity = other.identity)) :
    (store.saved new?).saved other? = (store.saved other?).saved new? := by
  cases new? with
  | none => rfl
  | some new =>
      cases other? with
      | none => rfl
      | some other =>
          have hplaces := hne new rfl other rfl
          cases store with
          | memory namespaces =>
              have hkeys : (⟨new.repo, new.identity⟩ : Place) ≠ ⟨other.repo, other.identity⟩ := by
                rw [Ne, Place.mk.injEq]
                exact hplaces
              exact congrArg memory (namespaces.insert_comm hkeys new other)
          | database db =>
              obtain ⟨version, table⟩ := db
              obtain ⟨bytes, hbytes⟩ := new.exists_encode
              obtain ⟨bytes', hbytes'⟩ := other.exists_encode
              cases table with
              | none => simp only [saved_database_none]
              | some rows =>
                  have hkeys := Database.key_eq_iff.not.mpr hplaces
                  simp only [saved_database_some hbytes, saved_database_some hbytes',
                    rows.insert_comm hkeys]

/-! ### Replacing -/

/-- What fails a check is refused. -/
theorem replace_of_check_error {error : StoreError}
    (h : check now repo identity signed = .error error) :
    store.replace now repo identity signed = .error error := by
  rw [replace, h]
  rfl

/-- Where the look-up fails, so does the write. -/
theorem replace_of_load_error {error : StoreError}
    (hcheck : check now repo identity signed = .ok new)
    (hload : store.load repo identity = .error error) :
    store.replace now repo identity signed = .error error := by
  rw [replace, hcheck, hload]
  rfl

/-- What passes the checks is refused if its number is not higher than the stored one. -/
theorem replace_of_stale {stored : Namespace} (hcheck : check now repo identity signed = .ok new)
    (hload : store.load repo identity = .ok (some stored))
    (hstale : new.sequence ≤ stored.sequence) :
    store.replace now repo identity signed = .error (.stale identity stored new.sequence) := by
  simp [replace, hcheck, hload, hstale, bind, Except.bind, throw, throwThe, MonadExceptOf.throw]

/-- What a replacement does depends on what is found in its place. -/
theorem exists_replace_effect (now : Int64) (repo : RepoId) (identity : PeerId)
    (signed : SignedManifest) (found : Except StoreError (Option Namespace)) :
    ∃ result : Except StoreError Replaced,
      (∀ replaced, result = .ok replaced →
        replaced.current.repo = repo ∧ replaced.current.identity = identity) ∧
      ∀ store : Store, store.load repo identity = found →
        store.replace now repo identity signed =
          result.map fun replaced => (replaced, store.saved (some replaced.current)) := by
  cases hcheck : check now repo identity signed with
  | error error =>
      refine ⟨.error error, ?_, fun store _ => replace_of_check_error hcheck⟩
      rintro _ ⟨⟩
  | ok new =>
      obtain ⟨hidentity, hrepo, -, hsigned, -⟩ := check_eq_ok_iff.mp hcheck
      have hplace : new.repo = repo ∧ new.identity = identity := by
        rw [Namespace.repo_of_signed hsigned, Namespace.identity_of_signed hsigned]
        exact ⟨hrepo, hidentity⟩
      cases found with
      | error error =>
          refine ⟨.error error, ?_, fun store hload => replace_of_load_error hcheck hload⟩
          rintro _ ⟨⟩
      | ok found =>
          have hsave : ∀ store : Store, store.load repo identity = .ok found →
              store.save new = .ok (store.saved (some new)) := fun store hload => by
            obtain ⟨after, hsave⟩ := exists_save hload new
            rw [saved, hsave]
            rfl
          cases found with
          | none =>
              refine ⟨.ok ⟨none, new⟩, ?_, fun store hload => ?_⟩
              · rintro _ ⟨⟩
                exact hplace
              · simp [replace, hcheck, hload, hsave store hload, bind, Except.bind, pure,
                  Except.pure, Except.map]
          | some current =>
              by_cases hstale : new.sequence ≤ current.sequence
              · refine ⟨.error (.stale identity current new.sequence), ?_,
                  fun store hload => replace_of_stale hcheck hload hstale⟩
                rintro _ ⟨⟩
              · refine ⟨.ok ⟨some current, new⟩, ?_, fun store hload => ?_⟩
                · rintro _ ⟨⟩
                  exact hplace
                · simp [replace, hcheck, hload, hstale, hsave store hload, bind, Except.bind, pure,
                    Except.pure, Except.map]

/-- The checks give the same at another time, received then. -/
theorem check_now (now now' : Int64) (repo : RepoId) (identity : PeerId) (signed : SignedManifest) :
    check now' repo identity signed =
      (check now repo identity signed).map fun new => { new with receivedAt := now' } := by
  have hofSigned : Namespace.ofSigned signed now' =
      (Namespace.ofSigned signed now).map fun new => { new with receivedAt := now' } := by
    unfold Namespace.ofSigned
    split
    all_goals rfl
  simp only [check, hofSigned]
  split_ifs
  · rfl
  · rfl
  · cases signed.verify with
    | error error => rfl
    | ok _ =>
        cases Namespace.ofSigned signed now with
        | error error => rfl
        | ok new => rfl

/-- A replacement is decided in the same way at another time. When the checks are passed, only the
number of the stored one can forbid it. -/
theorem replace_now (store : Store) (now now' : Int64) (repo : RepoId) (identity : PeerId)
    (signed : SignedManifest) :
    (∃ error, store.replace now repo identity signed = .error error ∧
      store.replace now' repo identity signed = .error error) ∨
    ∃ replaced after replaced' after',
      store.replace now repo identity signed = .ok (replaced, after) ∧
      store.replace now' repo identity signed = .ok (replaced', after') ∧
        replaced.previous = replaced'.previous ∧
          replaced.current.signed = replaced'.current.signed := by
  have hcheck' := check_now now now' repo identity signed
  cases hcheck : check now repo identity signed with
  | error error =>
      rw [hcheck] at hcheck'
      exact .inl ⟨error, replace_of_check_error hcheck, replace_of_check_error hcheck'⟩
  | ok new =>
      rw [hcheck] at hcheck'
      cases hload : store.load repo identity with
      | error error =>
          exact .inl ⟨error, replace_of_load_error hcheck hload,
            replace_of_load_error hcheck' hload⟩
      | ok found =>
          by_cases haccept : Acceptable repo identity signed found
          · obtain ⟨⟨replaced, after⟩, hreplace⟩ := exists_replace hload haccept now
            obtain ⟨⟨replaced', after'⟩, hreplace'⟩ := exists_replace hload haccept now'
            obtain ⟨hprevious, -, hsigned, -, -⟩ := replace_eq_ok_iff.mp hreplace
            obtain ⟨hprevious', -, hsigned', -, -⟩ := replace_eq_ok_iff.mp hreplace'
            rw [hprevious] at hprevious'
            exact .inr ⟨replaced, after, replaced', after', hreplace, hreplace',
              Except.ok.inj hprevious', hsigned.trans hsigned'.symm⟩
          · obtain ⟨stored, rfl, hstale⟩ := exists_stored_of_not_acceptable hcheck haccept
            exact .inl ⟨.stale identity stored new.sequence, replace_of_stale hcheck hload hstale,
              (replace_of_stale hcheck' hload hstale :)⟩

/-- What an encoded manifest does depends on what is found in its place. -/
theorem exists_applyEncoded_effect (now : Int64) (repo : RepoId) (identity : PeerId)
    (encoded : Bytes) (found : Except StoreError (Option Namespace)) :
    ∃ outcome, ∃ new? : Option Namespace,
      (∀ new ∈ new?, new.repo = repo ∧ new.identity = identity) ∧
      ∀ store : Store, store.load repo identity = found →
        store.applyEncoded now repo identity encoded = (outcome, store.saved new?) := by
  unfold applyEncoded
  cases SignedManifest.decode encoded with
  | error error => exact ⟨_, none, fun _ hnew => (nomatch hnew), fun _ _ => rfl⟩
  | ok signed =>
      dsimp only
      obtain ⟨result, hplace, heffect⟩ := exists_replace_effect now repo identity signed found
      cases result with
      | error error =>
          refine ⟨.ofStoreError signed error, none, fun _ hnew => (nomatch hnew),
            fun store hload => ?_⟩
          rw [heffect store hload]
          rfl
      | ok replaced =>
          refine ⟨?outcome, some replaced.current, ?place, fun store hload => ?effect⟩
          case place =>
            rintro _ ⟨⟩
            exact hplace replaced rfl
          case effect =>
            rw [heffect store hload]
            exact rfl

/-- An encoded manifest has the same outcome at another time, and the same is held. -/
theorem applyEncoded_now (store : Store) (now now' : Int64) (repo : RepoId) (identity : PeerId)
    (encoded : Bytes) :
    (store.applyEncoded now repo identity encoded).1 =
        (store.applyEncoded now' repo identity encoded).1 ∧
      ∀ repo' identity', (store.applyEncoded now repo identity encoded).2.held repo' identity' =
        (store.applyEncoded now' repo identity encoded).2.held repo' identity' := by
  unfold applyEncoded
  cases SignedManifest.decode encoded with
  | error error => exact ⟨rfl, fun _ _ => rfl⟩
  | ok signed =>
      dsimp only
      rcases store.replace_now now now' repo identity signed with ⟨error, herror, herror'⟩ |
        ⟨replaced, after, replaced', after', hreplace, hreplace', hprevious, hsigned⟩
      · rw [herror, herror']
        exact ⟨rfl, fun _ _ => rfl⟩
      · simp only [hreplace, hreplace', hprevious, Namespace.manifest, Namespace.sequence, hsigned]
        refine ⟨trivial, fun repo' identity' => ?_⟩
        rw [held_of_replace hreplace, held_of_replace hreplace']

end Store

/-! ### Answers -/

namespace Answer

/-- An answer does to every store the same that finds the same in its place: it has the same
outcome, and saves the same namespace there or none. -/
theorem exists_effect (answer : Answer) (now : Int64) (repo : RepoId) (identity : PeerId)
    (found : Except StoreError (Option Namespace)) :
    ∃ outcome, ∃ new? : Option Namespace,
      (∀ new ∈ new?, new.repo = repo ∧ new.identity = identity) ∧
      ∀ store : Store, store.load repo identity = found →
        answer.apply store now repo identity = (outcome, store.saved new?) := by
  cases answer with
  | timedOut => exact ⟨_, none, fun _ hnew => (nomatch hnew), fun _ _ => rfl⟩
  | replied reply =>
      simp only [apply]
      cases reply.manifest with
      | error error =>
          cases error
          all_goals exact ⟨_, none, fun _ hnew => (nomatch hnew), fun _ _ => rfl⟩
      | ok found? =>
          cases found? with
          | none => exact ⟨_, none, fun _ hnew => (nomatch hnew), fun _ _ => rfl⟩
          | some encoded => exact Store.exists_applyEncoded_effect now repo identity encoded found

variable {repo : RepoId} {identity identity' : PeerId}

/-- An answer touches one place only. -/
theorem load_apply_of_ne (answer : Answer) (store : Store) (now : Int64) {repo' : RepoId}
    (hne : ¬(repo' = repo ∧ identity' = identity)) :
    (answer.apply store now repo identity).2.load repo' identity' = store.load repo' identity' := by
  obtain ⟨outcome, new?, hplace, heffect⟩ :=
    answer.exists_effect now repo identity (store.load repo identity)
  rw [heffect store rfl]
  refine Store.load_saved_of_ne fun new hnew => ?_
  obtain ⟨hrepo, hidentity⟩ := hplace new hnew
  rwa [hrepo, hidentity]

/-- Answers for two identities can be taken in either order: each of the two finds the same in its
place, whether it comes first or second. -/
theorem apply_comm (answer answer' : Answer) (store : Store) (now now' : Int64) (repo : RepoId)
    (hne : identity ≠ identity') :
    let first := answer.apply store now repo identity
    let second := answer'.apply first.2 now' repo identity'
    let first' := answer'.apply store now' repo identity'
    let second' := answer.apply first'.2 now repo identity
    first.1 = second'.1 ∧ second.1 = first'.1 ∧ second.2 = second'.2 := by
  intro first second first' second'
  obtain ⟨outcome, new?, hplace, heffect⟩ :=
    answer.exists_effect now repo identity (store.load repo identity)
  obtain ⟨outcome', new?', hplace', heffect'⟩ :=
    answer'.exists_effect now' repo identity' (store.load repo identity')
  have hfirst : first = (outcome, store.saved new?) := heffect store rfl
  have hfirst' : first' = (outcome', store.saved new?') := heffect' store rfl
  have hsecond : second = (outcome', first.2.saved new?') :=
    heffect' first.2 (answer.load_apply_of_ne store now fun h => hne h.2.symm)
  have hsecond' : second' = (outcome, first'.2.saved new?) :=
    heffect first'.2 (answer'.load_apply_of_ne store now' fun h => hne h.2)
  rw [hsecond, hsecond', hfirst, hfirst']
  refine ⟨rfl, rfl, store.saved_comm fun new hnew other hother => ?_⟩
  rw [(hplace new hnew).2, (hplace' other hother).2]
  exact fun h => hne h.2

/-- An answer has the same outcome at another time, and the same is held. -/
theorem apply_now (answer : Answer) (store : Store) (now now' : Int64) (repo : RepoId)
    (identity : PeerId) :
    (answer.apply store now repo identity).1 = (answer.apply store now' repo identity).1 ∧
      ∀ repo' identity', (answer.apply store now repo identity).2.held repo' identity' =
        (answer.apply store now' repo identity).2.held repo' identity' := by
  cases answer with
  | timedOut => exact ⟨rfl, fun _ _ => rfl⟩
  | replied reply =>
      simp only [apply]
      cases reply.manifest with
      | error error =>
          cases error
          all_goals exact ⟨rfl, fun _ _ => rfl⟩
      | ok found? =>
          cases found? with
          | none => exact ⟨rfl, fun _ _ => rfl⟩
          | some encoded => exact store.applyEncoded_now now now' repo identity encoded

end Answer

/-! ### Numbers -/

/-- What is stored in a place stays there, or something with a number that is not lower takes its
place. -/
def Store.NotBehind (before after : Store) : Prop :=
  ∀ repo identity stored, before.load repo identity = .ok (some stored) →
    ∃ stored', after.load repo identity = .ok (some stored') ∧ stored.sequence ≤ stored'.sequence

namespace Store.NotBehind

variable {before middle after : Store}

/-- No number is lower if nothing has happened. -/
theorem refl (store : Store) : store.NotBehind store :=
  fun _ _ stored h => ⟨stored, h, UInt64.le_refl _⟩

/-- If no number gets lower in two steps, none does in both. -/
theorem trans (h : before.NotBehind middle) (h' : middle.NotBehind after) :
    before.NotBehind after := by
  intro repo identity stored hstored
  obtain ⟨stored', hstored', hle⟩ := h repo identity stored hstored
  obtain ⟨stored'', hstored'', hle'⟩ := h' repo identity stored' hstored'
  exact ⟨stored'', hstored'', UInt64.le_trans hle hle'⟩

/-- Accepting a manifest makes no number lower. -/
theorem of_accepts (h : before.Accepts after) : before.NotBehind after := by
  obtain ⟨now, repo, identity, signed, replaced, hreplace⟩ := h
  obtain ⟨hload, haccept, hsigned, -, -⟩ := replace_eq_ok_iff.mp hreplace
  intro repo' identity' stored hstored
  rw [load_of_replace hreplace]
  by_cases hplace : repo' = repo ∧ identity' = identity
  · obtain ⟨rfl, rfl⟩ := hplace
    rw [hload] at hstored
    refine ⟨replaced.current, if_pos ⟨rfl, rfl⟩, UInt64.le_of_lt ?_⟩
    rw [Namespace.sequence_of_signed hsigned]
    exact haccept.newer stored (Except.ok.inj hstored)
  · exact ⟨stored, by rw [if_neg hplace, hstored], UInt64.le_refl _⟩

end Store.NotBehind

end SignedRefs
