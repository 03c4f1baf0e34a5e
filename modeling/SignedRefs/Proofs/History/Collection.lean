import SignedRefs.Proofs.History.Descent

/-!
# Collecting a History

`History.collect` starts at the tips and follows parents. What it can meet is fixed by the graph
alone (`Met`): the tips, and the parents of authentic changes other than the root. The walk keeps
`Sound` (what it has met it was led to, and it holds exactly the authentic changes among that) and
`Closed` (the parents of what it has met were met too, but for the name it is about to look up), and
so ends with all of it. Each name met takes one place away, whatever it stands for.

## Main results

* `sound_follow`, `sound_followAll`: what following a chain, or all chains, leaves of a walk.
* `get?_of_collect`: a collected history holds the authentic changes among what can be met.
* `size_of_collect`: it is no larger than allowed.
* `descends_of_collect`: what descends from the root in it is `Replayed`, as far as the graph goes.
-/

namespace SignedRefs

namespace History

open Relation

/-- The graph holds an authentic change under a name. -/
def Authentic (graph : ObjectGraph) (id : ObjectId) (change : Change) : Prop :=
  authentic? graph id = .ok (some change)

/-- The authentic change under `id`, other than the root, builds on `parent`. -/
def BuildsOn (graph : ObjectGraph) (root id parent : ObjectId) : Prop :=
  id ≠ root ∧ ∃ change, Authentic graph id change ∧ change.parent = some parent

/-- A walk from the tips can meet a name. -/
def Met (graph : ObjectGraph) (root : ObjectId) (tips : List ObjectId) (id : ObjectId) : Prop :=
  ∃ tip ∈ tips, ReflTransGen (BuildsOn graph root) tip id

variable {graph : ObjectGraph} {root : ObjectId} {tips : List ObjectId}

/-- What an authentic change is: the graph knows it under the name that it has, and its author
signed it. -/
theorem authentic_iff {id : ObjectId} {change : Change} :
    Authentic graph id change ↔ ∃ signed, graph.change? id = .ok (some signed) ∧
      signed.id = .ok id ∧ signed.verify = .ok () ∧ signed.change = change := by
  rw [Authentic, authentic?]
  cases graph.change? id with
  | error fault =>
      constructor
      · intro h
        cases h
      · rintro ⟨signed, h, -⟩
        cases h
  | ok found =>
      cases found with
      | none =>
          constructor
          · intro h
            cases h
          · rintro ⟨signed, h, -⟩
            cases h
      | some signed =>
          constructor
          · intro h
            simp only [bind, Except.bind] at h
            split at h
            · next found hid hverify =>
                cases heq : decide (found = id) with
                | true =>
                    obtain rfl := of_decide_eq_true heq
                    rw [if_pos rfl] at h
                    cases h
                    exact ⟨signed, rfl, hid, hverify, rfl⟩
                | false =>
                    rw [if_neg (of_decide_eq_false heq)] at h
                    cases h
            · cases h
          · rintro ⟨_, ⟨⟩, hid, hverify, rfl⟩
            simp only [bind, Except.bind, hid, hverify, if_true]
            rfl

/-- An authentic change follows the rules for changes. -/
theorem Authentic.validate {id : ObjectId} {change : Change} (h : Authentic graph id change) :
    change.validate = .ok () := by
  obtain ⟨signed, -, -, hverify, rfl⟩ := authentic_iff.mp h
  rw [SignedChange.verify, Change.signingBytes] at hverify
  cases hvalid : signed.change.validate with
  | ok => rfl
  | error error =>
      rw [hvalid] at hverify
      cases hverify

/-- A change that opens a patch builds on nothing. -/
theorem Authentic.parent_of_openPatch {id : ObjectId} {change : Change}
    (h : Authentic graph id change) {target : BranchName} {title : String} {base head : ObjectId}
    (haction : change.action = .openPatch target title base head) : change.parent = none := by
  have hvalid := h.validate
  rw [Change.validate, Change.fault?, haction] at hvalid
  cases hparent : change.parent with
  | none => rfl
  | some parent =>
      rw [hparent] at hvalid
      cases hvalid

/-- There is one authentic change under a name. -/
theorem Authentic.unique {id : ObjectId} {c d : Change} (hc : Authentic graph id c)
    (hd : Authentic graph id d) : c = d := by
  rw [Authentic, hc] at hd
  cases hd
  rfl

/-- A change builds on one other change. -/
theorem BuildsOn.unique {id p q : ObjectId} (hp : BuildsOn graph root id p)
    (hq : BuildsOn graph root id q) : p = q := by
  obtain ⟨-, c, hc, hcp⟩ := hp
  obtain ⟨-, d, hd, hdq⟩ := hq
  rw [hc.unique hd, hdq] at hcp
  exact (Option.some.inj hcp).symm

/-- The root builds on nothing. -/
theorem not_buildsOn_root {p : ObjectId} : ¬BuildsOn graph root root p := fun h => h.1 rfl

/-- An authentic change builds on its parent, unless it is the root. -/
theorem buildsOn_iff {id p : ObjectId} {change : Change} (hauth : Authentic graph id change) :
    BuildsOn graph root id p ↔ (if id = root then none else change.parent) = some p := by
  by_cases hroot : id = root
  · simp [BuildsOn, hroot]
  · rw [BuildsOn, if_neg hroot, and_iff_right hroot]
    constructor
    · rintro ⟨c, hc, hp⟩
      rwa [← hc.unique hauth]
    · intro hp
      exact ⟨change, hauth, hp⟩

/-- What is not authentic builds on nothing. -/
theorem not_buildsOn_of_authentic?_eq_none {id p : ObjectId}
    (hauth : authentic? graph id = .ok none) : ¬BuildsOn graph root id p := by
  rintro ⟨-, change, hc, -⟩
  rw [Authentic, hauth] at hc
  cases hc

/-- A walk that can meet a change can meet the one that it builds on. -/
theorem Met.parent {id p : ObjectId} (h : Met graph root tips id)
    (hp : BuildsOn graph root id p) : Met graph root tips p := by
  obtain ⟨tip, htip, hpath⟩ := h
  exact ⟨tip, htip, hpath.tail hp⟩

/-! ### The walk -/

/-- What a walk holds is right: it was led to all that it has met, was answered there, and keeps the
authentic changes among it. -/
structure Sound (graph : ObjectGraph) (root : ObjectId) (tips : List ObjectId) (walk : Walk) :
    Prop where
  /-- It was led to what it has met. -/
  met : ∀ id, walk.seen.contains id = true → Met graph root tips id
  /-- It keeps the authentic changes among it. -/
  found_iff : ∀ id change,
    walk.found.get? id = some change ↔ walk.seen.contains id = true ∧ Authentic graph id change

/-- The parents of what a walk has met were met too, or are among the names given. -/
def Closed (graph : ObjectGraph) (root : ObjectId) (walk : Walk) (next : List ObjectId) : Prop :=
  ∀ id p, walk.seen.contains id = true → BuildsOn graph root id p →
    walk.seen.contains p = true ∨ p ∈ next

/-- One walk goes on where another stops, and no name was met for free. -/
structure Extends (before : Walk × Nat) (after : Walk × Nat) : Prop where
  /-- Nothing is forgotten. -/
  seen : ∀ id, before.1.seen.contains id = true → after.1.seen.contains id = true
  /-- Each new name takes a place away. -/
  room : after.1.seen.size + after.2 = before.1.seen.size + before.2

/-- A walk goes on where it stops. -/
theorem Extends.refl (walk : Walk × Nat) : Extends walk walk := ⟨fun _ h => h, rfl⟩

/-- What goes on from a walk goes on from those before it. -/
theorem Extends.trans {a b c : Walk × Nat} (hab : Extends a b) (hbc : Extends b c) :
    Extends a c :=
  ⟨fun id h => hbc.seen id (hab.seen id h), hbc.room.trans hab.room⟩

/-- A walk that meets a name without an authentic change. -/
theorem Sound.skip {walk : Walk} {id : ObjectId} (h : Sound graph root tips walk)
    (hmet : Met graph root tips id) (hauth : authentic? graph id = .ok none) :
    Sound graph root tips { walk with seen := walk.seen.insert id } := by
  have hnot : ∀ change, ¬Authentic graph id change := fun change hc => by
    rw [Authentic, hauth] at hc
    cases hc
  refine ⟨fun x hx => ?_, fun x change => ?_⟩
  · rcases SortedMap.contains_insert.mp hx with rfl | hx
    · exact hmet
    · exact h.met x hx
  · rw [h.found_iff]
    constructor
    · rintro ⟨hx, hc⟩
      exact ⟨SortedMap.contains_insert.mpr (.inr hx), hc⟩
    · rintro ⟨hx, hc⟩
      rcases SortedMap.contains_insert.mp hx with rfl | hx
      · exact absurd hc (hnot change)
      · exact ⟨hx, hc⟩

/-- A walk that meets an authentic change. -/
theorem Sound.keep {walk : Walk} {id : ObjectId} {change : Change}
    (h : Sound graph root tips walk) (hmet : Met graph root tips id)
    (hauth : Authentic graph id change) :
    Sound graph root tips ⟨walk.seen.insert id, walk.found.insert id change⟩ := by
  refine ⟨fun x hx => ?_, fun x c => ?_⟩
  · rcases SortedMap.contains_insert.mp hx with rfl | hx
    · exact hmet
    · exact h.met x hx
  · by_cases hxid : x = id
    · subst hxid
      rw [SortedMap.get?_insert_self]
      constructor
      · rintro heq
        cases heq
        exact ⟨SortedMap.contains_insert.mpr (.inl rfl), hauth⟩
      · rintro ⟨-, hc⟩
        rw [hauth.unique hc]
    · rw [SortedMap.get?_insert_of_ne _ hxid, h.found_iff]
      refine and_congr_left fun _ => ?_
      change _ ↔ (SortedMap.insert walk.seen id ()).contains x = true
      rw [SortedMap.contains_insert]
      exact ⟨.inr, fun hx => hx.resolve_left hxid⟩

/-- A name that was met need not be given. -/
theorem Closed.of_seen {walk : Walk} {id : ObjectId} (h : Closed graph root walk [id])
    (hid : walk.seen.contains id = true) : Closed graph root walk [] := by
  intro x p hx hp
  rcases h x p hx hp with hseen | hnext
  · exact .inl hseen
  · exact .inl (List.mem_singleton.mp hnext ▸ hid)

/-- When the expected name is met, its own parent is expected next. -/
theorem Closed.meet {walk : Walk} {id : ObjectId} {found : History} {next : List ObjectId}
    (h : Closed graph root walk [id]) (hnext : ∀ p, BuildsOn graph root id p → p ∈ next) :
    Closed graph root ⟨walk.seen.insert id, found⟩ next := by
  intro x p hx hp
  rcases SortedMap.contains_insert.mp hx with rfl | hx
  · exact .inr (hnext p hp)
  · refine .inl (SortedMap.contains_insert.mpr ?_)
    rcases h x p hx hp with hseen | hid
    · exact .inr hseen
    · exact .inl (List.mem_singleton.mp hid)

/-- Meeting a new name takes one place away. -/
theorem Extends.meet {walk : Walk} {id : ObjectId} {found : History} {room : Nat}
    (hid : walk.seen.contains id = false) :
    Extends (walk, room + 1) (⟨walk.seen.insert id, found⟩, room) := by
  refine ⟨fun x hx => SortedMap.contains_insert.mpr (.inr hx), ?_⟩
  change (SortedMap.insert walk.seen id ()).size + room = walk.seen.size + (room + 1)
  rw [SortedMap.size_insert_of_not_contains hid]
  omega

/-- What following a chain leaves of a walk: it stays right, and has met the first name and the
parents of all it has met. -/
theorem sound_follow {room : Nat} {id : ObjectId} {walk : Walk} {after : Walk × Nat}
    (h : Sound graph root tips walk) (hmet : Met graph root tips id)
    (hclosed : Closed graph root walk [id])
    (hfollow : follow graph root room id walk = .ok after) :
    Sound graph root tips after.1 ∧ Closed graph root after.1 [] ∧
      after.1.seen.contains id = true ∧ Extends (walk, room) after := by
  induction room generalizing id walk with
  | zero =>
      rw [follow] at hfollow
      split at hfollow
      · next hseen =>
          cases hfollow
          exact ⟨h, hclosed.of_seen hseen, hseen, .refl _⟩
      · cases hfollow
  | succ room ih =>
      rw [follow] at hfollow
      split at hfollow
      · next hseen =>
          cases hfollow
          exact ⟨h, hclosed.of_seen hseen, hseen, .refl _⟩
      · next hseen =>
          have hnew : walk.seen.contains id = false := Bool.eq_false_iff.mpr hseen
          have hid : (walk.seen.insert id).contains id = true :=
            SortedMap.contains_insert.mpr (.inl rfl)
          simp only at hfollow
          cases hauth : authentic? graph id with
          | error fault =>
              rw [hauth] at hfollow
              cases hfollow
          | ok answer =>
              rw [hauth] at hfollow
              cases answer with
              | none =>
                  cases hfollow
                  have hend : ∀ p, BuildsOn graph root id p → p ∈ ([] : List ObjectId) :=
                    fun p hp => (not_buildsOn_of_authentic?_eq_none hauth hp).elim
                  exact ⟨h.skip hmet hauth, hclosed.meet hend, hid, .meet hnew⟩
              | some change =>
                  have hparent : ∀ p, BuildsOn graph root id p ↔
                      (if id = root then none else change.parent) = some p :=
                    fun p => buildsOn_iff hauth
                  simp only at hfollow
                  cases hstep : (if id = root then none else change.parent) with
                  | none =>
                      rw [hstep] at hfollow hparent
                      cases hfollow
                      refine ⟨h.keep hmet hauth, hclosed.meet fun p hp => ?_, hid, .meet hnew⟩
                      cases (hparent p).mp hp
                  | some parent =>
                      rw [hstep] at hfollow hparent
                      have hbuilds : BuildsOn graph root id parent := (hparent parent).mpr rfl
                      obtain ⟨hsound, hclosed', -, hext⟩ := ih (h.keep hmet hauth)
                        (hmet.parent hbuilds)
                        (hclosed.meet fun p hp => List.mem_singleton.mpr (hp.unique hbuilds))
                        hfollow
                      exact ⟨hsound, hclosed', hext.seen id hid, (Extends.meet hnew).trans hext⟩

/-- What following the chains of several tips leaves of a walk. -/
theorem sound_followAll {more : List ObjectId} {walk after : Walk} {room : Nat}
    (h : Sound graph root tips walk) (hmet : ∀ tip ∈ more, Met graph root tips tip)
    (hclosed : Closed graph root walk [])
    (hfollow : followAll graph root more walk room = .ok after) :
    Sound graph root tips after ∧ Closed graph root after [] ∧
      (∀ tip ∈ more, after.seen.contains tip = true) ∧
      ∃ left, Extends (walk, room) (after, left) := by
  induction more generalizing walk room with
  | nil =>
      cases hfollow
      exact ⟨h, hclosed, fun tip htip => (List.not_mem_nil htip).elim, room, .refl _⟩
  | cons tip more ih =>
      rw [followAll] at hfollow
      cases hone : follow graph root room tip walk with
      | error error =>
          rw [hone] at hfollow
          cases hfollow
      | ok middle =>
          obtain ⟨walk', room'⟩ := middle
          rw [hone] at hfollow
          have hclosed₁ : Closed graph root walk [tip] := fun x p hx hp =>
            (hclosed x p hx hp).imp id fun hp => (List.not_mem_nil hp).elim
          obtain ⟨hsound', hclosed', htip, hext'⟩ :=
            sound_follow h (hmet tip List.mem_cons_self) hclosed₁ hone
          obtain ⟨hsound, hclosed, hmore, left, hext⟩ := ih hsound'
            (fun x hx => hmet x (List.mem_cons_of_mem _ hx)) hclosed' hfollow
          refine ⟨hsound, hclosed, fun x hx => ?_, left, hext'.trans hext⟩
          rcases List.mem_cons.mp hx with rfl | hx
          · exact hext.seen _ htip
          · exact hmore x hx

/-! ### The collected history -/

/-- A walk that has met nothing holds nothing wrong. -/
theorem sound_empty : Sound graph root tips ⟨.empty, .empty⟩ := by
  refine ⟨fun id hid => ?_, fun id change => ?_⟩
  · cases hid
  · constructor
    · intro hget
      cases hget
    · rintro ⟨hid, -⟩
      cases hid

/-- The walk starts from each of the tips. -/
theorem mem_ordered_tips {tip : ObjectId} :
    tip ∈ (SortedSet.ofList tips).toList.reverse ↔ tip ∈ tips := by
  rw [List.mem_reverse, SortedSet.toList, SortedMap.mem_keys_iff, SortedSet.contains_ofList]

/-- A collected history is what a walk has found that has met all that can be met. -/
theorem exists_walk_of_collect {history : History}
    (h : collect graph root tips = .ok history) :
    ∃ walk : Walk, walk.found = history ∧ Sound graph root tips walk ∧
      (∀ id, walk.seen.contains id = true ↔ Met graph root tips id) ∧
      walk.seen.size ≤ maxChanges := by
  rw [collect] at h
  cases hall : followAll graph root (SortedSet.ofList tips).toList.reverse ⟨.empty, .empty⟩
      maxChanges with
  | error error =>
      rw [hall] at h
      cases h
  | ok walk =>
      rw [hall] at h
      cases h
      have hmet : ∀ tip ∈ (SortedSet.ofList tips).toList.reverse, Met graph root tips tip :=
        fun tip htip => ⟨tip, mem_ordered_tips.mp htip, .refl⟩
      have hclosed : Closed graph root ⟨.empty, .empty⟩ [] := fun id p hid _ => by cases hid
      obtain ⟨hsound, hclosed, htips, left, hext⟩ := sound_followAll sound_empty hmet hclosed hall
      refine ⟨walk, rfl, hsound, fun id => ⟨hsound.met id, ?_⟩, ?_⟩
      · rintro ⟨tip, htip, hpath⟩
        induction hpath with
        | refl => exact htips tip (mem_ordered_tips.mpr htip)
        | tail _ hp ih =>
            rcases hclosed _ _ ih hp with hseen | hnone
            · exact hseen
            · exact (List.not_mem_nil hnone).elim
      · have hroom : walk.seen.size + left = 0 + maxChanges := hext.room
        omega

/-- A collected history holds the authentic changes among what can be met. -/
theorem get?_of_collect {history : History} (h : collect graph root tips = .ok history)
    {id : ObjectId} {change : Change} :
    history.get? id = some change ↔ Met graph root tips id ∧ Authentic graph id change := by
  obtain ⟨walk, rfl, hsound, hseen, -⟩ := exists_walk_of_collect h
  rw [hsound.found_iff, hseen]

/-- A collected history is no larger than allowed. -/
theorem size_of_collect {history : History} (h : collect graph root tips = .ok history) :
    history.size ≤ maxChanges := by
  obtain ⟨walk, rfl, hsound, hseen, hsize⟩ := exists_walk_of_collect h
  refine Nat.le_trans ?_ hsize
  rw [SortedMap.size_eq_length_keys, SortedMap.size_eq_length_keys]
  refine ((SortedMap.nodup_keys _).subperm fun id hid => ?_).length_le
  obtain ⟨change, hget⟩ := SortedMap.contains_eq_true_iff.mp (SortedMap.mem_keys_iff.mp hid)
  exact SortedMap.mem_keys_iff.mpr ((hsound.found_iff id change).mp hget).1

/-! ### What is replayed -/

/-- A name is replayed if a walk from the tips can meet it and authentic changes lead from it down
to the root, which is authentic itself. -/
structure Replayed (graph : ObjectGraph) (root : ObjectId) (tips : List ObjectId)
    (id : ObjectId) : Prop where
  /-- A walk from the tips can meet it. -/
  met : Met graph root tips id
  /-- Its way down ends at the root. -/
  descends : ReflTransGen (BuildsOn graph root) id root
  /-- The root is authentic. -/
  root_authentic : ∃ change, Authentic graph root change

/-- What a replayed change builds on is replayed. -/
theorem Replayed.parent {id p : ObjectId} (h : Replayed graph root tips id)
    (hp : BuildsOn graph root id p) : Replayed graph root tips p := by
  refine ⟨h.met.parent hp, ?_, h.root_authentic⟩
  rcases ReflTransGen.cases_head h.descends with rfl | ⟨q, hq, hdesc⟩
  · exact absurd hp not_buildsOn_root
  · exact hp.unique hq ▸ hdesc

/-- What a replayed change builds on is replayed as well. -/
theorem Replayed.ancestor {id a : ObjectId} (h : Replayed graph root tips id)
    (ha : TransGen (BuildsOn graph root) id a) : Replayed graph root tips a := by
  induction ha with
  | single hp => exact h.parent hp
  | tail _ hp ih => exact ih.parent hp

/-- A collected history links as the graph does, as far as it goes. -/
theorem links_of_collect {history : History} (h : collect graph root tips = .ok history)
    {id p : ObjectId} :
    history.Links root id p ↔ Met graph root tips id ∧ BuildsOn graph root id p := by
  simp only [Links, BuildsOn, get?_of_collect h]
  constructor
  · rintro ⟨hne, change, ⟨hmet, hc⟩, hp⟩
    exact ⟨hmet, hne, change, hc, hp⟩
  · rintro ⟨hmet, hne, change, hc, hp⟩
    exact ⟨hne, change, ⟨hmet, hc⟩, hp⟩

/-- The strict ancestors in a collected history are those in the graph. -/
theorem transGen_links_of_collect {history : History} (h : collect graph root tips = .ok history)
    {id a : ObjectId} (hmet : Met graph root tips id) :
    TransGen (history.Links root) id a ↔ TransGen (BuildsOn graph root) id a := by
  constructor
  · intro ha
    have hsub : history.Links root ≤ BuildsOn graph root := fun _ _ hlink =>
      ((links_of_collect h).mp hlink).2
    exact TransGen.mono hsub _ _ ha
  · intro ha
    suffices hboth : TransGen (history.Links root) id a ∧ Met graph root tips a from hboth.1
    induction ha with
    | single hp => exact ⟨.single ((links_of_collect h).mpr ⟨hmet, hp⟩), hmet.parent hp⟩
    | tail _ hp ih =>
        exact ⟨ih.1.tail ((links_of_collect h).mpr ⟨ih.2, hp⟩), ih.2.parent hp⟩

/-- In a collected history with the root, what descends from the root is what is replayed. -/
theorem descends_of_collect {history : History} (h : collect graph root tips = .ok history)
    (hroot : history.contains root = true) {id : ObjectId} :
    history.Descends root id ↔ Replayed graph root tips id := by
  obtain ⟨opening, hopening⟩ := SortedMap.contains_eq_true_iff.mp hroot
  obtain ⟨hrootMet, hrootAuth⟩ := (get?_of_collect h).mp hopening
  constructor
  · intro hdesc
    have hmet : Met graph root tips id := by
      obtain ⟨change, hget⟩ := SortedMap.contains_eq_true_iff.mp (hdesc.contains hroot)
      exact ((get?_of_collect h).mp hget).1
    have hsub : history.Links root ≤ BuildsOn graph root := fun _ _ hlink =>
      ((links_of_collect h).mp hlink).2
    exact ⟨hmet, ReflTransGen.mono hsub _ _ hdesc, opening, hrootAuth⟩
  · rintro ⟨hmet, hdesc, -⟩
    rcases reflTransGen_iff_eq_or_transGen.mp hdesc with rfl | hdesc
    · exact .refl
    · exact ((transGen_links_of_collect h hmet).mpr hdesc).to_reflTransGen

/-- What is replayed is authentic. -/
theorem Replayed.exists_authentic {id : ObjectId} (h : Replayed graph root tips id) :
    ∃ change, Authentic graph id change := by
  rcases ReflTransGen.cases_head h.descends with rfl | ⟨p, ⟨-, change, hc, -⟩, -⟩
  · exact h.root_authentic
  · exact ⟨change, hc⟩

end History

end SignedRefs
