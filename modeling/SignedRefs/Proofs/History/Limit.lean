import Mathlib.Data.Set.Card
import SignedRefs.Proofs.History.Collection

/-!
# The Limit of a History

Collecting a history fails when more names are met than allowed, or when the graph does not answer
about one of them. What can be met is fixed by the graph and the tips (`closure`), and the names
that stand for nothing authentic count like all others. So a history is collected only if the
closure is small enough, and the limit is reported only if it is not; but a graph that fails to
answer may do so before the limit is reached.

## Main results

* `encard_seen`: how many names a walk has met.
* `encard_closure_le_of_collect`: a history is collected only if the closure is small enough.
* `Stops.of_collect`: why collecting fails.
* `collect_of_silent`: a graph that does not answer is reported first.
* `collect_eq_error_iff`: where the graph answers, the limit is reported exactly if the closure is
  too large.
-/

namespace SignedRefs

namespace History

/-- The names that a walk from the tips can meet. -/
def closure (graph : ObjectGraph) (root : ObjectId) (tips : List ObjectId) : Set ObjectId :=
  {id | Met graph root tips id}

/-- Why collecting a history fails. -/
inductive Stops (graph : ObjectGraph) (root : ObjectId) (tips : List ObjectId) : PatchError → Prop
  /-- More names can be met than are allowed. -/
  | limit (hlarge : (maxChanges : ℕ∞) < (closure graph root tips).encard) :
      Stops graph root tips (.tooManyChanges root maxChanges)
  /-- The graph does not answer about a name that can be met. -/
  | fault {id : ObjectId} {fault : GraphFault} (hmet : Met graph root tips id)
      (hfault : graph.change? id = .error fault) : Stops graph root tips (.graph fault)

variable {graph : ObjectGraph} {root : ObjectId} {tips : List ObjectId}

/-- Nothing else keeps a change from being looked up than that the graph does not answer. -/
theorem change?_of_authentic?_error {id : ObjectId} {fault : GraphFault}
    (h : authentic? graph id = .error fault) : graph.change? id = .error fault := by
  rw [authentic?] at h
  cases hchange : graph.change? id with
  | error other =>
      rw [hchange] at h
      cases h
      rfl
  | ok found =>
      rw [hchange] at h
      cases found with
      | none => cases h
      | some signed =>
          simp only [bind, Except.bind] at h
          split at h <;> cases h

/-! ### Counting names -/

/-- A walk has met as many names as it counts. -/
theorem encard_seen (walk : Walk) :
    {id | walk.seen.contains id = true}.encard = walk.seen.size := by
  have hkeys : {id | walk.seen.contains id = true} = (walk.seen.keys.toFinset : Set ObjectId) := by
    ext id
    rw [Set.mem_ofPred_eq, List.coe_toFinset, Set.mem_ofPred_eq, SortedMap.mem_keys_iff]
  rw [hkeys, Set.encard_coe_eq_coe_finsetCard,
    List.toFinset_card_of_nodup (SortedMap.nodup_keys _), ← SortedMap.size_eq_length_keys]

/-- All tips can be met. -/
theorem length_le_encard_closure (hnodup : tips.Nodup) :
    (tips.length : ℕ∞) ≤ (closure graph root tips).encard := by
  have hsub : {id | id ∈ tips} ⊆ closure graph root tips := fun tip htip => ⟨tip, htip, .refl⟩
  rw [← List.coe_toFinset] at hsub
  have hle := Set.encard_le_encard hsub
  rwa [Set.encard_coe_eq_coe_finsetCard, List.toFinset_card_of_nodup hnodup] at hle

/-- A walk that has used up its room and meets another name has more before it than allowed. -/
theorem Sound.lt_encard_closure {walk : Walk} {id : ObjectId} (h : Sound graph root tips walk)
    (hmet : Met graph root tips id) (hid : walk.seen.contains id = false)
    (hfull : walk.seen.size = maxChanges) :
    (maxChanges : ℕ∞) < (closure graph root tips).encard := by
  have hnew : id ∉ {x | walk.seen.contains x = true} := fun hin => by
    rw [Set.mem_ofPred_eq, hid] at hin
    cases hin
  have hsub : insert id {x | walk.seen.contains x = true} ⊆ closure graph root tips := by
    rintro x (rfl | hx)
    · exact hmet
    · exact h.met x hx
  have hle := Set.encard_le_encard hsub
  rw [Set.encard_insert_of_notMem hnew, encard_seen, hfull] at hle
  exact lt_of_lt_of_le (by exact_mod_cast Nat.lt_succ_self maxChanges) hle

/-! ### Failing -/

/-- Following a chain fails for one of the two reasons. -/
theorem Stops.of_follow {room : Nat} {id : ObjectId} {walk : Walk} {error : PatchError}
    (h : Sound graph root tips walk) (hmet : Met graph root tips id)
    (hroom : walk.seen.size + room = maxChanges)
    (hfollow : follow graph root room id walk = .error error) : Stops graph root tips error := by
  induction room generalizing id walk with
  | zero =>
      rw [follow] at hfollow
      split at hfollow
      · cases hfollow
      · next hseen =>
          cases hfollow
          exact .limit (h.lt_encard_closure hmet (Bool.eq_false_iff.mpr hseen) hroom)
  | succ room ih =>
      rw [follow] at hfollow
      split at hfollow
      · cases hfollow
      · next hseen =>
          have hnew : walk.seen.contains id = false := Bool.eq_false_iff.mpr hseen
          simp only at hfollow
          cases hauth : authentic? graph id with
          | error fault =>
              rw [hauth] at hfollow
              cases hfollow
              exact .fault hmet (change?_of_authentic?_error hauth)
          | ok answer =>
              rw [hauth] at hfollow
              cases answer with
              | none => cases hfollow
              | some change =>
                  simp only at hfollow
                  cases hstep : (if id = root then none else change.parent) with
                  | none =>
                      rw [hstep] at hfollow
                      cases hfollow
                  | some parent =>
                      rw [hstep] at hfollow
                      have hext : Extends (walk, room + 1)
                        (⟨walk.seen.insert id, walk.found.insert id change⟩, room) := .meet hnew
                      exact ih (h.keep hmet hauth) (hmet.parent ((buildsOn_iff hauth).mpr hstep))
                        (hext.room.trans hroom) hfollow

/-- Following the chains of several tips fails for one of the two reasons. -/
theorem Stops.of_followAll {more : List ObjectId} {walk : Walk} {room : Nat} {error : PatchError}
    (h : Sound graph root tips walk) (hmet : ∀ tip ∈ more, Met graph root tips tip)
    (hclosed : Closed graph root walk []) (hroom : walk.seen.size + room = maxChanges)
    (hfollow : followAll graph root more walk room = .error error) :
    Stops graph root tips error := by
  induction more generalizing walk room with
  | nil => cases hfollow
  | cons tip more ih =>
      have htip := hmet tip List.mem_cons_self
      rw [followAll] at hfollow
      cases hone : follow graph root room tip walk with
      | error first =>
          rw [hone] at hfollow
          cases hfollow
          exact .of_follow h htip hroom hone
      | ok middle =>
          rw [hone] at hfollow
          have hclosed₁ : Closed graph root walk [tip] := fun x p hx hp =>
            (hclosed x p hx hp).imp id fun hp => (List.not_mem_nil hp).elim
          obtain ⟨hsound, hclosed', -, hext⟩ := sound_follow h htip hclosed₁ hone
          exact ih hsound (fun x hx => hmet x (List.mem_cons_of_mem _ hx)) hclosed'
            (hext.room.trans hroom) hfollow

/-- Collecting a history fails for one of the two reasons. -/
theorem Stops.of_collect {error : PatchError} (h : collect graph root tips = .error error) :
    Stops graph root tips error := by
  rw [collect] at h
  cases hall : followAll graph root (SortedSet.ofList tips).toList.reverse ⟨.empty, .empty⟩
      maxChanges with
  | ok walk =>
      rw [hall] at h
      cases h
  | error first =>
      rw [hall] at h
      cases h
      have hmet : ∀ tip ∈ (SortedSet.ofList tips).toList.reverse, Met graph root tips tip :=
        fun tip htip => ⟨tip, mem_ordered_tips.mp htip, .refl⟩
      have hclosed : Closed graph root ⟨.empty, .empty⟩ [] := fun id p hid _ => by cases hid
      exact .of_followAll sound_empty hmet hclosed (Nat.zero_add _) hall

/-- A history is collected only if no more names can be met than are allowed. -/
theorem encard_closure_le_of_collect {history : History}
    (h : collect graph root tips = .ok history) :
    (closure graph root tips).encard ≤ maxChanges := by
  obtain ⟨walk, -, -, hseen, hsize⟩ := exists_walk_of_collect h
  have hclosure : closure graph root tips = {id | walk.seen.contains id = true} :=
    Set.ext fun id => (hseen id).symm
  rw [hclosure, encard_seen]
  exact_mod_cast hsize

/-- Where the graph answers about all that can be met, the limit is reported exactly if that is
too much. -/
theorem collect_eq_error_iff
    (hanswers : ∀ id, Met graph root tips id → ∃ found, graph.change? id = .ok found) :
    collect graph root tips = .error (.tooManyChanges root maxChanges) ↔
      (maxChanges : ℕ∞) < (closure graph root tips).encard := by
  constructor
  · intro h
    cases Stops.of_collect h with
    | limit hlarge => exact hlarge
  · intro hlarge
    cases hcollect : collect graph root tips with
    | ok history => exact absurd hlarge (not_lt.mpr (encard_closure_le_of_collect hcollect))
    | error error =>
        cases Stops.of_collect hcollect with
        | limit => rfl
        | fault hmet hfault =>
            obtain ⟨found, hfound⟩ := hanswers _ hmet
            rw [hfault] at hfound
            cases hfound

/-- Where the graph answers about no tip, collecting fails at the first one. -/
theorem collect_of_silent (hsilent : ∀ tip ∈ tips, ∃ fault, graph.change? tip = .error fault)
    (hne : tips ≠ []) : ∃ fault, collect graph root tips = .error (.graph fault) := by
  cases hordered : (SortedSet.ofList tips).toList.reverse with
  | nil =>
      obtain ⟨tip, htip⟩ := List.exists_mem_of_ne_nil tips hne
      have hmem := mem_ordered_tips.mpr htip
      rw [hordered] at hmem
      cases hmem
  | cons tip more =>
      obtain ⟨fault, hfault⟩ := hsilent tip (mem_ordered_tips.mp (by simp [hordered]))
      have hauth : authentic? graph tip = .error fault := by
        rw [authentic?, hfault]
        rfl
      have hfollow : follow graph root maxChanges tip ⟨.empty, .empty⟩ =
          .error (.graph fault) := by
        rw [maxChanges, follow]
        simp [hauth]
      refine ⟨fault, ?_⟩
      rw [collect, hordered, followAll, hfollow]
      rfl

/-- Where the graph answers about all names, only the limit keeps a history from being collected. -/
theorem collect_error (hanswers : ∀ id, ∃ found, graph.change? id = .ok found)
    {error : PatchError} (h : collect graph root tips = .error error) :
    error = .tooManyChanges root maxChanges := by
  cases Stops.of_collect h with
  | limit => rfl
  | @fault id _ _ hfault =>
      obtain ⟨found, hfound⟩ := hanswers id
      rw [hfault] at hfound
      cases hfound

end History

end SignedRefs
