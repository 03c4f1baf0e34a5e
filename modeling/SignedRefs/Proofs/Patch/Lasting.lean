import SignedRefs.Proofs.Graph.Ancestry
import SignedRefs.Proofs.Patch.Agreement
import SignedRefs.Proofs.Patch.Remembering

/-!
# Patches That Have Ended

What ends a patch may be cancelled: a close hides the merges behind it, a merge makes the closes
behind it void, and a new delegate makes a close count that did not. Nevertheless a patch that has
ended never becomes open again. For it has ended as soon as there is an honoured close or a merged
revision at all, whatever counts in the end, and neither goes away: the change stays in the replay,
those who decide still do, and a head that moves on still contains what it contained.

## Main results

* `Remembering.ends`, `Remembering.isTerminal`: what has ended a patch still does.
* `headContains_of_moved`: a head that moves on to a descendant contains what it contained.
* `terminal_lasts`: a patch that is merged or closed is merged or closed ever after.
-/

namespace SignedRefs

namespace Patch

open Relation

/-- The head of a branch in the namespace of a peer. -/
def BranchHead (snapshot : Snapshot) (branch : BranchName) (peer : PeerId) (tip : ObjectId) :
    Prop :=
  ∃ found, snapshot.get? peer = some found ∧ found.manifest.refs.get? (.head branch) = some tip

/-- A head contains a commit if the commit is an ancestor of where the head points. -/
theorem headContains_iff {graph : ObjectGraph} {snapshot : Snapshot} {target : BranchName}
    {peer : PeerId} {commit : ObjectId} :
    HeadContains graph snapshot target peer commit ↔
      ∃ tip, BranchHead snapshot target peer tip ∧ graph.isAncestor commit tip = .ok true := by
  constructor
  · rintro ⟨found, tip, hfound, htip, hanc⟩
    exact ⟨tip, ⟨found, hfound, htip⟩, hanc⟩
  · rintro ⟨tip, ⟨found, hfound, htip⟩, hanc⟩
    exact ⟨found, tip, hfound, htip, hanc⟩

/-- Nobody who decides about a patch stops to do so when there are more delegates. -/
theorem Decider.mono {author peer : PeerId} {delegates delegates' : SortedSet PeerId}
    (hdelegates : ∀ peer, delegates.contains peer = true → delegates'.contains peer = true)
    (h : Decider author delegates peer) : Decider author delegates' peer :=
  h.imp_right (hdelegates peer)

/-! ### What ends a patch -/

section

variable {graph graph' : ObjectGraph} {delegates delegates' : SortedSet PeerId}
  {before after : Snapshot} {p p' : Patch} {events events' : Ending.Events}
  (h : Remembering graph graph' delegates delegates' before after p p' events events')
  (hdelegates : ∀ peer, delegates.contains peer = true → delegates'.contains peer = true)
  (hheads : ∀ peer commit, Decider p.author delegates peer →
    HeadContains graph before p.target peer commit → HeadContains graph' after p.target peer commit)

include h hdelegates hheads

/-- A change that ended the patch ends it still. -/
theorem Remembering.ends {x : ObjectId} (hx : Visible graph before p.id x)
    (hends : Ends graph p.author delegates (targetTips before delegates p.author p.target) x) :
    Ends graph' p'.author delegates' (targetTips after delegates' p'.author p'.target) x := by
  obtain ⟨change, hauth, hends⟩ := hends
  obtain ⟨hauthor, htarget, -, -⟩ := h.opening_eq
  rw [hauthor, htarget]
  refine ⟨change, (h.kept x change hx hauth).2, ?_⟩
  rcases hends with hclose | ⟨base, head, hproposal, hin⟩
  · obtain ⟨haction, hdecider⟩ := isHonouredClose_iff.mp hclose
    exact .inl (isHonouredClose_iff.mpr ⟨haction, hdecider.mono hdelegates⟩)
  · obtain ⟨peer, hdecider, hcontains⟩ := inTarget_iff.mp hin
    exact .inr ⟨base, head, hproposal, inTarget_iff.mpr
      ⟨peer, hdecider.mono hdelegates, hheads peer head hdecider hcontains⟩⟩

/-- A patch that had ended has ended. -/
theorem Remembering.isTerminal (hended : p.status.isTerminal = true) :
    p'.status.isTerminal = true := by
  obtain ⟨x, hx, hends⟩ := h.first.isTerminal_iff_ends.mp hended
  exact h.second.isTerminal_iff_ends.mpr ⟨x, h.visible hx, h.ends hdelegates hheads hx hends⟩

end

/-- A patch has ended if it is merged or closed. -/
theorem isTerminal_iff_merged_or_closed {status : PatchStatus} :
    status.isTerminal = true ↔ status = .merged ∨ status = .closed := by
  cases status <;> simp [PatchStatus.isTerminal]

/-! ### Commits and heads -/

variable {g g' : MemoryGraph} {delegates delegates' : SortedSet PeerId} {before after : Snapshot}

/-- A head that stays, or moves on to a commit of which it is an ancestor, contains what it
contained. -/
theorem headContains_of_moved {target : BranchName} {peer : PeerId} {commit : ObjectId}
    (hcommits : ∀ id parents, g.commits.get? id = some parents → g'.commits.get? id = some parents)
    (hmoved : ∀ tip, BranchHead before target peer tip →
      ∃ tip', BranchHead after target peer tip' ∧ (tip' = tip ∨ g'.isAncestor tip tip' = true))
    (h : HeadContains g.toObjectGraph before target peer commit) :
    HeadContains g'.toObjectGraph after target peer commit := by
  obtain ⟨tip, htip, hanc⟩ := headContains_iff.mp h
  have hanc : g'.isAncestor commit tip = true :=
    MemoryGraph.isAncestor_mono hcommits (Except.ok.inj hanc)
  obtain ⟨tip', htip', hsame | hbelow⟩ := hmoved tip htip
  · subst hsame
    exact headContains_iff.mpr ⟨tip', htip', congrArg Except.ok hanc⟩
  · exact headContains_iff.mpr
      ⟨tip', htip', congrArg Except.ok (MemoryGraph.isAncestor_trans hanc hbelow)⟩

/-- A patch that has ended never becomes open again. If the changes that were replayed still are,
the commits are still recorded with their parents, the delegates are still delegates, and the target
branches of those who decide about the patch have stayed or moved on to descendants, then a patch
that was merged or closed is merged or closed. -/
theorem terminal_lasts {id : ObjectId} {p p' : Patch}
    (hbefore : inspect g.toObjectGraph delegates before id = .ok (some p))
    (hafter : inspect g'.toObjectGraph delegates' after id = .ok (some p'))
    (hkept : ∀ x change, Replays g.toObjectGraph before id x change →
      Replays g'.toObjectGraph after id x change)
    (hcommits : ∀ id parents, g.commits.get? id = some parents → g'.commits.get? id = some parents)
    (hdelegates : ∀ peer, delegates.contains peer = true → delegates'.contains peer = true)
    (hheads : ∀ peer tip, Decider p.author delegates peer → BranchHead before p.target peer tip →
      ∃ tip', BranchHead after p.target peer tip' ∧
        (tip' = tip ∨ g'.isAncestor tip tip' = true))
    (hended : p.status = .merged ∨ p.status = .closed) :
    p'.status = .merged ∨ p'.status = .closed := by
  obtain ⟨_, events, events', heq, h⟩ := exists_remembering hbefore hafter hkept
  cases heq
  rw [← isTerminal_iff_merged_or_closed] at hended ⊢
  refine h.isTerminal hdelegates (fun peer commit hdecider hcontains => ?_) hended
  exact headContains_of_moved hcommits (fun tip htip => hheads peer tip hdecider htip) hcontains

end Patch

/-! ### Moving on from a merge -/

namespace Contested

open Patch

/-- The commits when a patch has been merged. -/
def mergedGraph : MemoryGraph := ⟨.ofList [(commit 2, [])], changes⟩

/-- The commits when the branch has moved on. -/
def movedGraph : MemoryGraph :=
  ⟨.ofList [(commit 2, []), (commit 6, [commit 5, commit 2])], changes⟩

/-- Alice's target branch has moved on from the head of the patch. -/
def moved : Snapshot :=
  ⟨⟨.replicate 32 0⟩, .ofList
    [(alice, ⟨manifest alice [(.head target, commit 6), (.patch opening, opening)],
        ⟨.ofNat 20 0x3c2bc0aa539e33a4722a63ecd148fd96064ec634⟩, 0, by decide +kernel⟩)]⟩

set_option maxRecDepth 100000 in
/-- What is collected, and what is read when the branch has moved on and Bob is a delegate. -/
theorem facts_moved :
    History.collect mergedGraph.toObjectGraph opening (opened.patchTips opening) =
        .ok (.ofList [(opening, openingChange)]) ∧
      History.collect movedGraph.toObjectGraph opening (moved.patchTips opening) =
        .ok (.ofList [(opening, openingChange)]) ∧
      inspect movedGraph.toObjectGraph delegates moved opening = .ok (some mergedPatch) := by
  decide +kernel

/-- At first Alice's branch points at the one commit. -/
theorem branchHead_opened {tip : ObjectId} (h : BranchHead opened target alice tip) :
    tip = commit 2 := by
  obtain ⟨found, hfound, htip⟩ := h
  have hrefs : (opened.get? alice).bind (fun n => n.manifest.refs.get? (.head target)) =
      some (commit 2) := by decide
  rw [hfound, Option.bind_some, htip] at hrefs
  exact Option.some.inj hrefs

/-- Afterwards it points at the other one. -/
theorem branchHead_moved : BranchHead moved target alice (commit 6) :=
  Option.bind_eq_some_iff.mp (by decide :
    (moved.get? alice).bind (fun n => n.manifest.refs.get? (.head target)) = some (commit 6))

/-- A merged patch stays merged when the branch moves on. -/
theorem merged_after_moving : mergedPatch.status = .merged ∧
    inspect movedGraph.toObjectGraph delegates moved opening = .ok (some mergedPatch) ∧
      movedGraph.isAncestor (commit 2) (commit 6) = true ∧
      (mergedPatch.status = .merged ∨ mergedPatch.status = .closed) := by
  obtain ⟨hcollect, hcollect', hafter⟩ := facts_moved
  have hcommits : ∀ e ∈ mergedGraph.commits.entries, movedGraph.commits.get? e.1 = some e.2 := by
    decide
  have hbelow : movedGraph.isAncestor (commit 2) (commit 6) = true := by decide
  refine ⟨rfl, hafter, hbelow, terminal_lasts (g := mergedGraph) facts_opened.2 hafter ?_ ?_ ?_ ?_
    (.inl rfl)⟩
  · rintro x change ⟨found, hfound, hx⟩
    rw [hcollect] at hfound
    cases hfound
    exact ⟨_, hcollect', hx⟩
  · exact fun id parents hid => hcommits (id, parents) (SortedMap.mem_entries_iff.mpr hid)
  · intro peer hpeer
    cases hpeer
  · rintro peer tip (rfl | hpeer) htip
    · exact ⟨commit 6, branchHead_moved, .inr (branchHead_opened htip ▸ hbelow)⟩
    · cases hpeer

end Contested

end SignedRefs
