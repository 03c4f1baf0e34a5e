import SignedRefs.Proofs.Graph.Ancestry

/-!
# Ancestry in Recorded Graphs

A graph is built by recording commits one after another. Nothing is asked of them: a commit may be
recorded again with other parents, its parents may be unknown, and commits may be their own
ancestors. What counts is the last record of each commit (`LastRecord`), and ancestry is
reachability over the links of those records.

`MemoryGraph.isAncestor` bounds its search by the number of links and visits the parents of a commit
in the order in which they were recorded. The walk without a bound takes commits from the top of a
stack, onto which parents are pushed in that order, so that the last one is visited first. `Walk`
mirrors it, turn by turn. It comes to an end from every start, within the bound, and its answer is
that of the search. The invariant is the one of the search (`Searching`), which does not depend on
the order of what is pending.

## Main results

* `get?_addCommits`, `isParent_addCommits_iff`: what a graph built from records knows.
* `Walk.unique`, `exists_walk`: the walk has one course, which ends, and its answer is right.
* `ancestry_of_commits`: ancestry in a graph built from any records.
-/

namespace SignedRefs

namespace MemoryGraph

open Relation

/-! ### Records -/

/-- The graph built by recording commits with their parents, one after another. -/
def addCommits (records : List (ObjectId × List ObjectId)) : MemoryGraph :=
  records.foldl (fun g record => g.addCommit record.1 record.2) .empty

/-- These are the parents with which a commit was recorded last. -/
def LastRecord (records : List (ObjectId × List ObjectId)) (id : ObjectId)
    (parents : List ObjectId) : Prop :=
  ∃ before later, records = before ++ (id, parents) :: later ∧ id ∉ later.map Prod.fst

/-- One commit is among the parents with which another was recorded last. -/
def Linked (records : List (ObjectId × List ObjectId)) (id parent : ObjectId) : Prop :=
  ∃ parents, LastRecord records id parents ∧ parent ∈ parents

variable {records : List (ObjectId × List ObjectId)} {id : ObjectId} {parents : List ObjectId}

/-- Without records there is no last one. -/
theorem not_lastRecord_nil : ¬LastRecord [] id parents := by
  rintro ⟨before, later, h, -⟩
  cases before <;> cases h

/-- A new record is the last one of its commit, and those of the others stay the last. -/
theorem lastRecord_concat_iff {record : ObjectId × List ObjectId} :
    LastRecord (records ++ [record]) id parents ↔
      record = (id, parents) ∨ id ≠ record.1 ∧ LastRecord records id parents := by
  constructor
  · rintro ⟨before, later, h, hlater⟩
    rcases List.eq_nil_or_concat' later with rfl | ⟨later, last, rfl⟩
    · exact .inl (List.singleton_inj.mp (List.append_inj' h rfl).2)
    · have hsplit : records ++ [record] = (before ++ (id, parents) :: later) ++ [last] := by
        rw [h, List.append_assoc]
        rfl
      obtain ⟨rfl, hlast⟩ := List.append_inj' hsplit rfl
      obtain rfl := List.singleton_inj.mp hlast
      rw [List.map_append, List.mem_append, not_or] at hlater
      exact .inr ⟨fun heq => hlater.2 (List.mem_singleton.mpr heq), before, later, rfl, hlater.1⟩
  · rintro (rfl | ⟨hne, before, later, rfl, hlater⟩)
    · exact ⟨records, [], rfl, List.not_mem_nil⟩
    · refine ⟨before, later ++ [record], by rw [List.append_assoc]; rfl, ?_⟩
      rw [List.map_append, List.mem_append, not_or]
      exact ⟨hlater, fun hmem => hne (List.mem_singleton.mp hmem)⟩

/-- The last record is put among those before it. -/
theorem commits_addCommits_concat (records : List (ObjectId × List ObjectId))
    (record : ObjectId × List ObjectId) : (addCommits (records ++ [record])).commits =
      (addCommits records).commits.insert record.1 record.2 := by
  rw [addCommits, List.foldl_append]
  rfl

/-- A graph knows the last record of each commit. -/
theorem get?_addCommits :
    (addCommits records).commits.get? id = some parents ↔ LastRecord records id parents := by
  induction records using List.reverseRecOn with
  | nil => exact iff_of_false (by rintro ⟨⟩) not_lastRecord_nil
  | append_singleton records record ih =>
      obtain ⟨id', parents'⟩ := record
      rw [commits_addCommits_concat, lastRecord_concat_iff, ← ih, Prod.mk.injEq]
      by_cases hid : id = id'
      · subst hid
        rw [SortedMap.get?_insert_self, Option.some.injEq, and_iff_right rfl]
        exact (or_iff_left fun h => h.1 rfl).symm
      · rw [SortedMap.get?_insert_of_ne _ hid, and_iff_right hid]
        exact (or_iff_right fun h => hid h.1.symm).symm

/-- Every record is one of a commit that the graph knows. -/
theorem contains_addCommits_iff :
    (addCommits records).commits.contains id = true ↔ id ∈ records.map Prod.fst := by
  induction records using List.reverseRecOn with
  | nil => exact iff_of_false (by rintro ⟨⟩) List.not_mem_nil
  | append_singleton records record ih =>
      rw [commits_addCommits_concat, SortedMap.contains_insert, ih, List.map_append,
        List.mem_append, or_comm]
      exact or_congr_right List.mem_singleton.symm

/-- Its links are those of the last records. -/
theorem isParent_addCommits_iff {parent : ObjectId} :
    (addCommits records).IsParent id parent ↔ Linked records id parent := by
  rw [IsParent, MemoryGraph.parents, Linked]
  simp only [← get?_addCommits]
  cases (addCommits records).commits.get? id with
  | none => exact iff_of_false List.not_mem_nil (by rintro ⟨parents, ⟨⟩, -⟩)
  | some parents =>
      constructor
      · intro hparent
        exact ⟨parents, rfl, hparent⟩
      · rintro ⟨_, ⟨⟩, hparent⟩
        exact hparent

/-! ### The walk -/

variable {g : MemoryGraph} {target descendant : ObjectId} {seen : SortedSet ObjectId}
  {pending : List ObjectId} {turns turns' fuel : Nat} {answer answer' : Bool}
  {left : Finset ObjectId}

/-- The walk from some pending commits, the top of the stack first, makes this many turns and gives
this answer. -/
inductive Walk (g : MemoryGraph) (target : ObjectId) :
    SortedSet ObjectId → List ObjectId → Nat → Bool → Prop
  /-- Nothing is pending. -/
  | exhausted (seen : SortedSet ObjectId) : Walk g target seen [] 0 false
  /-- The target is on top. -/
  | found (seen : SortedSet ObjectId) (pending : List ObjectId) :
      Walk g target seen (target :: pending) 1 true
  /-- A commit that has been seen before is on top. -/
  | skip {seen : SortedSet ObjectId} {id : ObjectId} {pending : List ObjectId} {turns : Nat}
      {answer : Bool} (hne : id ≠ target) (hseen : seen.contains id = true)
      (hrest : Walk g target seen pending turns answer) :
      Walk g target seen (id :: pending) (turns + 1) answer
  /-- A new commit is on top, onto whose place its parents are pushed. -/
  | expand {seen : SortedSet ObjectId} {id : ObjectId} {pending : List ObjectId} {turns : Nat}
      {answer : Bool} (hne : id ≠ target) (hnew : seen.contains id = false)
      (hrest : Walk g target (seen.insert id) ((g.parents id).reverse ++ pending) turns answer) :
      Walk g target seen (id :: pending) (turns + 1) answer

/-- There is only one course that the walk can take. -/
theorem Walk.unique (h : Walk g target seen pending turns answer)
    (h' : Walk g target seen pending turns' answer') : turns = turns' ∧ answer = answer' := by
  induction h generalizing turns' with
  | exhausted seen =>
      cases h'
      exact ⟨rfl, rfl⟩
  | found seen pending =>
      cases h' with
      | found => exact ⟨rfl, rfl⟩
      | skip hne => exact (hne rfl).elim
      | expand hne => exact (hne rfl).elim
  | skip hne hseen hrest ih =>
      cases h' with
      | found => exact (hne rfl).elim
      | skip _ _ hrest' =>
          obtain ⟨rfl, rfl⟩ := ih hrest'
          exact ⟨rfl, rfl⟩
      | expand _ hnew => rw [hseen] at hnew; cases hnew
  | expand hne hnew hrest ih =>
      cases h' with
      | found => exact (hne rfl).elim
      | skip _ hseen => rw [hseen] at hnew; cases hnew
      | expand _ _ hrest' =>
          obtain ⟨rfl, rfl⟩ := ih hrest'
          exact ⟨rfl, rfl⟩

/-- The order of what is pending does not matter to the invariant of a search. -/
theorem Searching.perm {pending' : List ObjectId} (h : Searching g target seen pending left fuel)
    (hp : pending.Perm pending') : Searching g target seen pending' left fuel where
  target_new := h.target_new
  closed id hid parent hparent := (h.closed id hid parent hparent).imp_right hp.mem_iff.mp
  left_of_new := h.left_of_new
  steps := hp.length_eq ▸ h.steps

/-- Something that has been met leads to the target. -/
def Leads (g : MemoryGraph) (target : ObjectId) (seen : SortedSet ObjectId)
    (pending : List ObjectId) : Prop :=
  ∃ id, Met seen pending id ∧ ReflTransGen g.IsParent id target

/-- A pending commit that has been seen makes no difference. -/
theorem leads_skip_iff (hseen : seen.contains id = true) :
    Leads g target seen (id :: pending) ↔ Leads g target seen pending := by
  constructor
  · rintro ⟨start, hmet, hpath⟩
    exact ⟨start, hmet.skip hseen, hpath⟩
  · rintro ⟨start, hmet, hpath⟩
    exact ⟨start, hmet.imp_right (List.mem_cons_of_mem id), hpath⟩

/-- A pending commit may be replaced by its parents when it counts as seen. -/
theorem leads_expand_iff :
    Leads g target seen (id :: pending) ↔
      Leads g target (seen.insert id) ((g.parents id).reverse ++ pending) := by
  constructor
  · rintro ⟨start, hmet, hpath⟩
    exact ⟨start, hmet.expand, hpath⟩
  · rintro ⟨start, hmet, hpath⟩
    rw [Met, contains_insert_iff, List.mem_append, List.mem_reverse] at hmet
    rcases hmet with (rfl | hseen) | hparent | hmem
    · exact ⟨start, .inr List.mem_cons_self, hpath⟩
    · exact ⟨start, .inl hseen, hpath⟩
    · exact ⟨id, .inr List.mem_cons_self, .head hparent hpath⟩
    · exact ⟨start, .inr (List.mem_cons_of_mem id hmem), hpath⟩

/-- When nothing is pending, nothing that was met leads to the target. -/
theorem Searching.not_leads (h : Searching g target seen [] left fuel) :
    ¬Leads g target seen [] := by
  rintro ⟨id, hmet, hpath⟩
  exact h.not_reaches hmet hpath

/-- The walk comes to an end, and answers whether the target can be reached. -/
theorem exists_walk (h : Searching g target seen pending left fuel) :
    ∃ turns ≤ fuel, ∃ answer, Walk g target seen pending turns answer ∧
      (answer = true ↔ Leads g target seen pending) := by
  induction fuel generalizing seen pending left with
  | zero =>
      cases pending with
      | nil =>
          exact ⟨0, le_rfl, false, .exhausted seen, iff_of_false Bool.false_ne_true h.not_leads⟩
      | cons id pending =>
          have hsteps := h.steps
          rw [List.length_cons] at hsteps
          omega
  | succ fuel ih =>
      cases pending with
      | nil =>
          exact ⟨0, Nat.zero_le _, false, .exhausted seen,
            iff_of_false Bool.false_ne_true h.not_leads⟩
      | cons id pending =>
          by_cases hne : id = target
          · subst hne
            refine ⟨1, Nat.le_add_left 1 fuel, true, .found seen pending, iff_of_true rfl ?_⟩
            exact ⟨id, .inr List.mem_cons_self, .refl⟩
          · cases hseen : seen.contains id with
            | true =>
                obtain ⟨turns, hturns, answer, hwalk, hiff⟩ := ih (h.skip hseen)
                exact ⟨turns + 1, Nat.succ_le_succ hturns, answer, .skip hne hseen hwalk,
                  hiff.trans (leads_skip_iff hseen).symm⟩
            | false =>
                have hpushed := (h.expand hseen hne).perm
                  ((List.reverse_perm _).symm.append_right pending)
                obtain ⟨turns, hturns, answer, hwalk, hiff⟩ := ih hpushed
                exact ⟨turns + 1, Nat.succ_le_succ hturns, answer, .expand hne hseen hwalk,
                  hiff.trans leads_expand_iff.symm⟩

/-! ### Ancestry -/

/-- From one commit the walk takes no more turns than there are links, and one for the start. Its
answer is that of the search. -/
theorem exists_walk_from (g : MemoryGraph) (ancestor descendant : ObjectId) :
    ∃ turns ≤ g.linkCount + 1, ∃ answer, Walk g ancestor .empty [descendant] turns answer ∧
      g.isAncestor ancestor descendant = (g.commits.contains ancestor && answer) := by
  obtain ⟨turns, hturns, answer, hwalk, hiff⟩ :=
    exists_walk (searching_start g ancestor descendant)
  refine ⟨turns, hturns, answer, hwalk, ?_⟩
  have hleads : Leads g ancestor .empty [descendant] ↔
      ReflTransGen g.IsParent descendant ancestor := by
    constructor
    · rintro ⟨id, hempty | hmem, hpath⟩
      · cases hempty
      · rwa [List.mem_singleton.mp hmem] at hpath
    · intro hpath
      exact ⟨descendant, .inr (List.mem_singleton_self _), hpath⟩
  rw [Bool.eq_iff_iff, isAncestor_iff, Bool.and_eq_true, hiff, hleads]

/-- In a graph built by recording commits in any way, the walk that decides ancestry has one course,
which ends; one commit is an ancestor of another exactly if it is recorded and the other reaches it
over the links of the last records; and so ancestry is transitive, and reflexive on the recorded
commits alone. -/
theorem ancestry_of_commits (records : List (ObjectId × List ObjectId)) :
    let g := addCommits records
    (∀ ancestor descendant, ∃ turns answer,
      (∀ turns' answer', Walk g ancestor .empty [descendant] turns' answer' ↔
        turns' = turns ∧ answer' = answer) ∧
      turns ≤ g.linkCount + 1 ∧
      g.isAncestor ancestor descendant = (g.commits.contains ancestor && answer)) ∧
    (∀ ancestor descendant, g.isAncestor ancestor descendant = true ↔
      ancestor ∈ records.map Prod.fst ∧ ReflTransGen (Linked records) descendant ancestor) ∧
    (∀ a b c, g.isAncestor a b = true → g.isAncestor b c = true → g.isAncestor a c = true) ∧
    ∀ id, g.isAncestor id id = true ↔ id ∈ records.map Prod.fst := by
  intro g
  have hlinks : g.IsParent = Linked records := by
    funext id parent
    exact propext isParent_addCommits_iff
  have hiff : ∀ ancestor descendant, g.isAncestor ancestor descendant = true ↔
      ancestor ∈ records.map Prod.fst ∧ ReflTransGen (Linked records) descendant ancestor := by
    intro ancestor descendant
    rw [isAncestor_iff, contains_addCommits_iff, hlinks]
  refine ⟨fun ancestor descendant => ?_, hiff, fun a b c => isAncestor_trans, fun id => ?_⟩
  · obtain ⟨turns, hturns, answer, hwalk, hanswer⟩ := exists_walk_from g ancestor descendant
    refine ⟨turns, answer, fun turns' answer' => ⟨fun h => h.unique hwalk, ?_⟩, hturns, hanswer⟩
    rintro ⟨rfl, rfl⟩
    exact hwalk
  · rw [hiff]
    exact and_iff_left .refl

namespace Cyclic

/-- A commit. -/
def commit (n : UInt8) : ObjectId := ⟨.replicate 20 n⟩

/-- Two commits are parents of each other, one of them of itself as well. A third is recorded again
with a parent that nobody knows. -/
def history : List (ObjectId × List ObjectId) :=
  [(commit 1, [commit 2]), (commit 2, [commit 2, commit 1]), (commit 3, []),
    (commit 3, [commit 1, commit 9])]

/-- The third commit reaches both others, and the unknown one is nobody's ancestor. -/
theorem ancestry_of_cycle :
    (addCommits history).isAncestor (commit 2) (commit 3) = true ∧
      (addCommits history).isAncestor (commit 9) (commit 9) = false := by
  obtain ⟨-, hiff, htrans, hrefl⟩ := ancestry_of_commits history
  have hthird : Linked history (commit 3) (commit 1) :=
    ⟨[commit 1, commit 9], ⟨history.take 3, [], rfl, List.not_mem_nil⟩, by decide⟩
  have hfirst : Linked history (commit 1) (commit 2) :=
    ⟨[commit 2], ⟨[], history.drop 1, rfl, by decide⟩, by decide⟩
  refine ⟨htrans (commit 2) (commit 1) (commit 3) ?_ ?_, Bool.eq_false_iff.mpr fun h => ?_⟩
  · exact (hiff _ _).mpr ⟨by decide, .single hfirst⟩
  · exact (hiff _ _).mpr ⟨by decide, .single hthird⟩
  · exact absurd ((hrefl _).mp h) (by decide)

end Cyclic

end MemoryGraph

end SignedRefs
