import SignedRefs.Proofs.Store.Authenticity

/-!
# The Own Namespace as a Log

Every authoring call reads the own namespace, edits its refs, and signs and stores the result. It
may fail late, when the edited refs break the rules or the store refuses what was signed, and
between two calls anything may be fetched or pushed into the same store. As long as nobody else
writes its own namespace, a node finds there what it has done itself: the number counts the calls
that succeeded, and the refs are what their edits make of no refs at all (`Logged`).

## Main results

* `Store.load_after_of_place?`: an operation leaves all places but its own alone.
* `Node.writeRefs_of_perform`: which edit of the refs a call is.
* `Node.load_of_writeRefs`, `Node.exists_writeRefs`: what is found after a write, and when there is
  one.
* `Node.Logged.write`, `Node.Logged.of_load`, `Node.Logged.nextAll`: a call, another operation and a
  run keep the log.
* `Node.Logged.setRef_error_iff`: when a ref cannot be set.
* `Node.log_of_run`: what a node finds in its own namespace after any run.
-/

namespace SignedRefs

/-! ### Where an operation writes -/

/-- The place of the namespace that an operation may write. -/
def Operation.place? : Operation → Option Place
  | .write (.replace _ repo identity _) => some ⟨repo, identity⟩
  | .write (.put _ repo signed) => some ⟨repo, signed.manifest.identity⟩
  | .write (.serve _ (.push repo identity _)) => some ⟨repo, identity⟩
  | .write (.serve _ _) => none
  | .arrive fetch _ _ (.request identity) _ => some ⟨fetch.repo, identity⟩
  | .arrive .. => none
  | .act node _ repo _ => some ⟨repo, node.id⟩

namespace Store

variable {store after : Store} {now : Int64} {repo repo' : RepoId} {identity identity' : PeerId}
  {signed : SignedManifest} {replaced : Replaced}

/-- What is written in one place leaves the others alone. -/
theorem load_of_replace_of_ne
    (h : store.replace now repo identity signed = .ok (replaced, after))
    (hne : some (⟨repo, identity⟩ : Place) ≠ some ⟨repo', identity'⟩) :
    after.load repo' identity' = store.load repo' identity' := by
  rw [load_of_replace h, if_neg]
  rintro ⟨rfl, rfl⟩
  exact hne rfl

/-- What a node writes in its own namespace leaves the others alone. -/
theorem load_of_writeRefs_of_ne {node node' : Node} {written : Namespace}
    {edit : SortedMap RefName ObjectId → SortedMap RefName ObjectId}
    (h : node.writeRefs now repo edit = .ok (written, node'))
    (hne : some (⟨repo, node.id⟩ : Place) ≠ some ⟨repo', identity'⟩) :
    node'.store.load repo' identity' = node.store.load repo' identity' := by
  obtain ⟨current, signed, replaced, -, hsign, hreplace, -⟩ := Node.writeRefs_eq_ok h
  rw [(Node.place_of_sign hsign).2] at hreplace
  exact load_of_replace_of_ne hreplace hne

/-- An operation leaves all places but its own alone. -/
theorem load_after_of_place? {operation : Operation}
    (hne : operation.place? ≠ some ⟨repo', identity'⟩) :
    (store.after operation).load repo' identity' = store.load repo' identity' := by
  cases operation with
  | write write =>
      cases write with
      | replace now repo identity signed =>
          simp only [Store.after, perform]
          split
          · next replaced after h => exact load_of_replace_of_ne h hne
          · rfl
      | put now repo signed =>
          simp only [Store.after, perform, put]
          cases h : store.replace now repo signed.manifest.identity signed with
          | error error => rfl
          | ok done => exact load_of_replace_of_ne h hne
      | serve now request =>
          simp only [Store.after, perform]
          rcases store.respond_cases now request with ⟨-, hsame⟩ | ⟨repo, identity, encoded,
            signed, replaced, after, rfl, -, hreplace, hrespond⟩
          · rw [hsame]
          · rw [hrespond]
            exact load_of_replace_of_ne hreplace hne
  | arrive fetch now state call arrival =>
      simp only [Store.after]
      unfold Fetch.resume
      split
      · rfl
      · rfl
      · next waiting running outcomes identity =>
          split
          · rcases store.apply_cases (fetch.replyOf arrival) now fetch.repo identity with hsame |
              ⟨encoded, signed, replaced, -, -, hreplace⟩
            · exact congrArg (fun s : Store => s.load repo' identity') hsame
            · exact load_of_replace_of_ne hreplace hne
          · rfl
      · rfl
  | act node now repo call =>
      simp only [Store.after]
      split
      · next node' hperform =>
          obtain ⟨edit, written, hwrite⟩ := Node.perform_eq_ok hperform
          exact load_of_writeRefs_of_ne hwrite hne
      · rfl

end Store

/-! ### Calls and what happens between them -/

/-- What happens to a node: it is called, or something else reaches its store. -/
inductive Happening
  /-- It is asked to do something to its own namespace. -/
  | call (now : Int64) (repo : RepoId) (call : LocalCall)
  /-- Something else happens to its store. -/
  | other (operation : Operation)

/-- Whether the node is called. -/
def Happening.isCall : Happening → Bool
  | .call .. => true
  | .other _ => false

namespace Node

variable {node node' : Node} {now : Int64} {repo repo' : RepoId} {call : LocalCall}

/-- The edit of the refs that a call stands for. -/
def edit (node : Node) (now : Int64) (repo : RepoId) :
    LocalCall → SortedMap RefName ObjectId → SortedMap RefName ObjectId
  | .init document, refs => refs.insert .identityDocument document
  | .setRef name target, refs => refs.insert name target
  | .setHead branch target, refs =>
    match BranchName.ofText branch with
    | .ok branch => refs.insert (.head branch) target
    | .error _ => refs
  | .removeRef name, refs => refs.erase name
  | .author graph call, refs =>
    match (node.author graph now repo call).result with
    | .ok (new, _) => refs.insert (.patch (call.patch new)) new
    | .error _ => refs

/-- A call that succeeds writes the own namespace with its edit. -/
theorem writeRefs_of_perform (h : node.perform now repo call = .ok node') :
    ∃ written, node.writeRefs now repo (node.edit now repo call) = .ok (written, node') := by
  cases call with
  | init document =>
      obtain ⟨⟨written, _⟩, hwrite, rfl⟩ := map_eq_ok_iff.mp h
      exact ⟨written, hwrite⟩
  | setRef name target =>
      obtain ⟨⟨written, _⟩, hwrite, rfl⟩ := map_eq_ok_iff.mp h
      exact ⟨written, hwrite⟩
  | setHead text target =>
      obtain ⟨⟨written, _⟩, hset, rfl⟩ := map_eq_ok_iff.mp h
      obtain ⟨branch, hbranch, hwrite⟩ := bind_eq_ok_iff.mp hset
      refine ⟨written, ?_⟩
      have hedit : node.edit now repo (.setHead text target) =
          fun refs => refs.insert (.head branch) target := by
        funext refs
        rw [edit, mapError_eq_ok_iff.mp hbranch]
      rw [hedit]
      exact hwrite
  | removeRef name =>
      obtain ⟨⟨written, _⟩, hwrite, rfl⟩ := map_eq_ok_iff.mp h
      exact ⟨written, hwrite⟩
  | author graph call =>
      obtain ⟨⟨new, _⟩, hresult, rfl⟩ := map_eq_ok_iff.mp h
      obtain ⟨-, written, -, hwrite, -⟩ := author_eq_ok (Authored.eq_of_result hresult)
      refine ⟨written, ?_⟩
      have hedit : node.edit now repo (.author graph call) =
          fun refs => refs.insert (.patch (call.patch new)) new := by
        funext refs
        rw [edit, hresult]
      rw [hedit]
      exact hwrite

/-- The node after something has happened to it. -/
def next (node : Node) : Happening → Node
  | .call now repo call =>
    match node.perform now repo call with
    | .ok node => node
    | .error _ => node
  | .other operation => { node with store := node.store.after operation }

/-- The node after several things have happened to it. -/
def nextAll (node : Node) (happenings : List Happening) : Node := happenings.foldl next node

/-- The edit of the refs in a repository that happens: that of a call there which succeeds. -/
def edits (node : Node) (repo : RepoId) :
    Happening → List (SortedMap RefName ObjectId → SortedMap RefName ObjectId)
  | .call now repo' call =>
    match node.perform now repo' call with
    | .ok _ => if repo' = repo then [node.edit now repo call] else []
    | .error _ => []
  | .other _ => []

/-- The edits of the calls in a repository that succeed, in order. -/
def log (node : Node) (repo : RepoId) :
    List Happening → List (SortedMap RefName ObjectId → SortedMap RefName ObjectId)
  | [] => []
  | happening :: rest => node.edits repo happening ++ (node.next happening).log repo rest

/-- A node keeps its identity when it writes. -/
theorem id_of_writeRefs {written : Namespace}
    {edit : SortedMap RefName ObjectId → SortedMap RefName ObjectId}
    (h : node.writeRefs now repo edit = .ok (written, node')) : node'.id = node.id := by
  obtain ⟨-, -, -, -, -, -, hnode, -⟩ := writeRefs_eq_ok h
  rw [hnode]

/-- Nothing that happens to a node gives it another identity. -/
@[simp] theorem next_id (node : Node) (happening : Happening) :
    (node.next happening).id = node.id := by
  cases happening with
  | other operation => rfl
  | call now repo call =>
      cases hperform : node.perform now repo call with
      | error error => rw [next, hperform]
      | ok node' =>
          obtain ⟨written, hwrite⟩ := writeRefs_of_perform hperform
          rw [next, hperform]
          exact id_of_writeRefs hwrite

/-- A node keeps its identity, whatever happens. -/
@[simp] theorem nextAll_id (node : Node) (happenings : List Happening) :
    (node.nextAll happenings).id = node.id := by
  induction happenings generalizing node with
  | nil => rfl
  | cons happening rest ih => exact (ih (node.next happening)).trans (node.next_id happening)

/-- A call that fails leaves the node as it was. -/
theorem next_of_error {error : NodeError} (h : node.perform now repo call = .error error) :
    node.next (.call now repo call) = node := by
  rw [next, h]

/-- No call changes the namespace of another identity or repository. -/
theorem load_next_of_ne {identity : PeerId} (hne : ¬(repo' = repo ∧ identity = node.id)) :
    (node.next (.call now repo call)).store.load repo' identity =
      node.store.load repo' identity := by
  cases hperform : node.perform now repo call with
  | error error => rw [next_of_error hperform]
  | ok node' =>
      obtain ⟨written, hwrite⟩ := writeRefs_of_perform hperform
      rw [next, hperform]
      refine Store.load_of_writeRefs_of_ne hwrite fun h => hne ?_
      obtain ⟨rfl, rfl⟩ := Place.mk.inj (Option.some.inj h)
      exact ⟨rfl, rfl⟩

/-- No more edits happen than there are calls. -/
theorem length_log_le (node : Node) (repo : RepoId) (happenings : List Happening) :
    (node.log repo happenings).length ≤ happenings.countP Happening.isCall := by
  induction happenings generalizing node with
  | nil => exact Nat.le_refl _
  | cons happening rest ih =>
      have hrest := ih (node.next happening)
      rw [log, List.length_append, List.countP_cons]
      have hone : (node.edits repo happening).length ≤ if happening.isCall then 1 else 0 := by
        cases happening with
        | other operation => exact Nat.le_refl _
        | call now repo' call =>
            rw [edits]
            split
            · split <;> simp [Happening.isCall]
            · simp
      omega

end Node

/-! ### What the log says of a namespace -/

/-- The number of the namespace that is found, 0 if there is none. -/
def Namespace.lastNumber (found : Option Namespace) : Nat :=
  (found.map fun n => n.sequence.toNat).getD 0

/-- Numbers have 64 bits. -/
theorem Namespace.lastNumber_lt (found : Option Namespace) : lastNumber found < 2 ^ 64 := by
  cases found with
  | none => decide
  | some n => exact n.sequence.toNat_lt

/-- The refs of the namespace that is found, none if there is none. -/
def Namespace.lastRefs (found : Option Namespace) : SortedMap RefName ObjectId :=
  (found.map fun n => n.manifest.refs).getD .empty

namespace Node

/-- What a node finds in its own namespace is what a log of edits makes of it: the number counts
them, the refs are what they make of no refs, and the manifest verifies. -/
structure Logged (node : Node) (repo : RepoId)
    (log : List (SortedMap RefName ObjectId → SortedMap RefName ObjectId))
    (found : Option Namespace) : Prop where
  /-- This is what the node finds. -/
  load : node.store.load repo node.id = .ok found
  /-- The number counts the edits. -/
  number : Namespace.lastNumber found = log.length
  /-- The refs are made by the edits in turn. -/
  refs : Namespace.lastRefs found = log.foldl (fun refs edit => edit refs) .empty
  /-- The manifest verifies. -/
  verifies : ∀ n, found = some n → n.signed.verify = .ok ()

variable {node node' : Node} {now : Int64} {repo repo' : RepoId} {found : Option Namespace}
  {log : List (SortedMap RefName ObjectId → SortedMap RefName ObjectId)}
  {edit : SortedMap RefName ObjectId → SortedMap RefName ObjectId}

/-- The next manifest has the edited refs. -/
theorem refs_nextManifest (node : Node) (repo : RepoId) (found : Option Namespace)
    (edit : SortedMap RefName ObjectId → SortedMap RefName ObjectId) :
    (node.nextManifest repo found edit).refs = edit (Namespace.lastRefs found) := by
  cases found <;> rfl

/-- The next manifest has the next number, unless all are used up. -/
theorem sequence_nextManifest (node : Node) (repo : RepoId)
    (edit : SortedMap RefName ObjectId → SortedMap RefName ObjectId)
    (hfew : Namespace.lastNumber found + 1 < 2 ^ 64) :
    (node.nextManifest repo found edit).sequence.toNat = Namespace.lastNumber found + 1 := by
  cases found with
  | none => rfl
  | some n =>
      have hfew : n.sequence.toNat + 1 < 2 ^ 64 := hfew
      rw [nextManifest, UInt64.toNat_add]
      exact Nat.mod_eq_of_lt hfew

/-- A number that is followed by a higher one is not the last one. -/
theorem toNat_add_one_lt {n : UInt64} (h : n < n + 1) : n.toNat + 1 < 2 ^ 64 := by
  have hlt := n.toNat_lt
  rw [UInt64.lt_iff_toNat_lt, UInt64.toNat_add] at h
  by_contra hmax
  have hlast : n.toNat + (1 : UInt64).toNat = 2 ^ 64 := by
    rw [UInt64.toNat_one]
    omega
  rw [hlast, Nat.mod_self] at h
  exact Nat.not_lt_zero _ h

/-- Where the next manifest is newer than what is found, not all numbers are used up. -/
theorem lastNumber_lt_of_newer
    (h : ∀ n, found = some n → n.sequence < (node.nextManifest repo found edit).sequence) :
    Namespace.lastNumber found + 1 < 2 ^ 64 := by
  cases found with
  | none => decide
  | some n => exact toNat_add_one_lt (h n rfl)

/-- What is written follows on what is found: it has the next number, which the store would not have
accepted if there were none, and the edited refs, its manifest verifies, and it is found from then
on. -/
theorem load_of_writeRefs (hload : node.store.load repo node.id = .ok found) {written : Namespace}
    (hwrite : node.writeRefs now repo edit = .ok (written, node')) :
    node'.store.load repo node.id = .ok (some written) ∧
      written.sequence.toNat = Namespace.lastNumber found + 1 ∧
        written.manifest.refs = edit (Namespace.lastRefs found) ∧
          written.signed.verify = .ok () := by
  obtain ⟨current, signed, replaced, hcurrent, hsign, hreplace, -, rfl⟩ := writeRefs_eq_ok hwrite
  obtain rfl := Except.ok.inj (hcurrent.symm.trans hload)
  obtain ⟨hprevious, haccept, hsigned, -, -⟩ := Store.replace_eq_ok_iff.mp hreplace
  have hidentity := (place_of_sign hsign).2
  have hmanifest : replaced.current.manifest = node.nextManifest repo current edit := by
    rw [Namespace.manifest, hsigned, Manifest.manifest_of_sign hsign]
  rw [hidentity, hload] at hprevious
  have hfew : Namespace.lastNumber current + 1 < 2 ^ 64 := lastNumber_lt_of_newer fun n hn => by
    rw [← Manifest.manifest_of_sign hsign]
    exact haccept.newer n ((Except.ok.inj hprevious).symm.trans hn)
  refine ⟨?_, ?_, ?_, ?_⟩
  · rw [Store.load_of_replace hreplace, if_pos ⟨rfl, hidentity.symm⟩]
  · rw [Namespace.sequence, hmanifest, sequence_nextManifest node repo edit hfew]
  · rw [hmanifest, refs_nextManifest]
  · rw [hsigned, SignedManifest.verify_eq_ok_iff]
    exact haccept.signature

/-- A call that succeeds adds its edit to the log. -/
theorem Logged.write (h : Logged node repo log found) {written : Namespace}
    (hwrite : node.writeRefs now repo edit = .ok (written, node')) :
    Logged node' repo (log ++ [edit]) (some written) := by
  obtain ⟨hload, hnumber, hrefs, hverify⟩ := load_of_writeRefs h.load hwrite
  refine ⟨?_, ?_, ?_, fun n hn => ?_⟩
  · rw [id_of_writeRefs hwrite, hload]
  · rw [List.length_append, List.length_singleton, ← h.number, ← hnumber]
    rfl
  · rw [List.foldl_append, List.foldl_cons, List.foldl_nil, ← h.refs, ← hrefs]
    rfl
  · cases hn
    exact hverify

/-- What does not touch the namespace leaves the log as it is. -/
theorem Logged.of_load (h : Logged node repo log found) (hid : node'.id = node.id)
    (hload : node'.store.load repo node.id = node.store.load repo node.id) :
    Logged node' repo log found :=
  ⟨by rw [hid, hload, h.load], h.number, h.refs, h.verifies⟩

/-- Whatever happens, the log goes on with the edit that happens, as long as nothing else writes the
namespace. -/
theorem Logged.next (h : Logged node repo log found) (happening : Happening)
    (hother : ∀ operation, happening = .other operation →
      operation.place? ≠ some ⟨repo, node.id⟩) :
    ∃ found', Logged (node.next happening) repo (log ++ node.edits repo happening) found' := by
  cases happening with
  | other operation =>
      rw [edits, List.append_nil]
      exact ⟨found, h.of_load rfl (Store.load_after_of_place? (hother operation rfl))⟩
  | call now repo' call =>
      cases hperform : node.perform now repo' call with
      | error error =>
          simp only [edits, Node.next, hperform, List.append_nil]
          exact ⟨found, h⟩
      | ok node' =>
          obtain ⟨written, hwrite⟩ := writeRefs_of_perform hperform
          simp only [edits, Node.next, hperform]
          by_cases hrepo : repo' = repo
          · subst hrepo
            rw [if_pos rfl]
            exact ⟨_, h.write hwrite⟩
          · rw [if_neg hrepo, List.append_nil]
            refine ⟨found, h.of_load (id_of_writeRefs hwrite)
              (Store.load_of_writeRefs_of_ne hwrite ?_)⟩
            simp [hrepo]

/-- In a run the log goes on with the edits that happen, as long as nothing else writes the
namespace. -/
theorem Logged.nextAll (h : Logged node repo log found) {happenings : List Happening}
    (hothers : ∀ operation, .other operation ∈ happenings →
      operation.place? ≠ some ⟨repo, node.id⟩) :
    ∃ found', Logged (node.nextAll happenings) repo (log ++ node.log repo happenings) found' := by
  induction happenings generalizing node log found with
  | nil =>
      rw [Node.log, List.append_nil]
      exact ⟨found, h⟩
  | cons happening rest ih =>
      obtain ⟨found', hnext⟩ := h.next happening fun operation heq =>
        hothers operation (heq ▸ List.mem_cons_self)
      rw [Node.log, ← List.append_assoc]
      refine ih hnext fun operation hmem => ?_
      rw [next_id]
      exact hothers operation (List.mem_cons_of_mem _ hmem)

/-! ### When a ref cannot be set -/

/-- The signature that a node makes over a manifest verifies. -/
def Verifies (node : Node) (m : Manifest) : Prop :=
  ∀ message, m.signingBytes = .ok message →
    node.id.verify message (node.keys.sign message) = .ok ()

/-- It can be checked by signing whether the signature verifies. -/
theorem verifies_of_bind {m : Manifest}
    (h : (m.signingBytes >>= fun message => node.id.verify message (node.keys.sign message)) =
      .ok ()) : node.Verifies m := by
  intro message hmessage
  obtain ⟨found, hfound, hverify⟩ := bind_eq_ok_iff.mp h
  obtain rfl := Except.ok.inj (hfound.symm.trans hmessage)
  exact hverify

/-- A node can sign its own manifests if they follow the rules. -/
theorem sign_nextManifest (hvalid : (node.nextManifest repo found edit).validate = .ok ()) :
    ∃ message, (node.nextManifest repo found edit).signingBytes = .ok message ∧
      (node.nextManifest repo found edit).sign node.keys =
        .ok ⟨node.nextManifest repo found edit, node.keys.sign message⟩ := by
  have hmessage := Manifest.signingBytes_of_validate hvalid
  refine ⟨_, hmessage, ?_⟩
  have hidentity : node.keys.peerId = (node.nextManifest repo found edit).identity := by
    rw [← node.id_eq]
    cases found <;> rfl
  rw [Manifest.sign, if_neg (not_not_intro hidentity), hmessage]
  rfl

/-- The record of the signed refs is not among the refs. -/
theorem Logged.not_contains_signedRefs (h : Logged node repo log found) :
    (Namespace.lastRefs found).contains .signedRefs = false := by
  cases found with
  | none => rfl
  | some n =>
      obtain ⟨message, hmessage, -⟩ := SignedManifest.verify_eq_ok_iff.mp (h.verifies n rfl)
      exact (Manifest.validate_eq_ok_iff.mp (Manifest.signingBytes_eq_ok_iff.mp hmessage).1).1

/-- The next manifest follows the rules exactly if the ref that is set is not the record of the
signed refs and there are not too many refs with it, as long as the record was not among them. -/
theorem validate_nextManifest_iff
    (hlisted : (Namespace.lastRefs found).contains .signedRefs = false) {name : RefName}
    {target : ObjectId} :
    (node.nextManifest repo found fun refs => refs.insert name target).validate = .ok () ↔
      name ≠ .signedRefs ∧ ((Namespace.lastRefs found).insert name target).size ≤ 4096 := by
  rw [Manifest.validate_eq_ok_iff, refs_nextManifest, Manifest.maxRefs]
  refine and_congr_left fun _ => ?_
  rw [← Bool.not_eq_true, SortedMap.contains_insert, hlisted]
  simp [eq_comm]

/-- A next manifest that follows the rules can be written, as long as not all numbers are used up
and its signature verifies. -/
theorem exists_writeRefs (hload : node.store.load repo node.id = .ok found)
    (hvalid : (node.nextManifest repo found edit).validate = .ok ())
    (hverifies : node.Verifies (node.nextManifest repo found edit))
    (hfew : Namespace.lastNumber found + 1 < 2 ^ 64) (now : Int64) :
    ∃ written node', node.writeRefs now repo edit = .ok (written, node') := by
  obtain ⟨message, hmessage, hsign⟩ := sign_nextManifest hvalid
  obtain ⟨hrepo, hidentity⟩ := place_of_sign hsign
  have haccept : Acceptable repo node.id _ found :=
    { identity_eq := hidentity
      repo_eq := hrepo
      valid := hvalid
      signature := ⟨message, hmessage, hverifies message hmessage⟩
      newer := fun stored hstored => by
        subst hstored
        rw [UInt64.lt_iff_toNat_lt, sequence_nextManifest node repo _ hfew]
        exact Nat.lt_succ_self _ }
  obtain ⟨⟨replaced, store⟩, hreplace⟩ := Store.exists_replace hload haccept now
  exact ⟨_, _, writeRefs_of_replace hload hsign hreplace⟩

/-- What is written follows the rules. -/
theorem validate_of_writeRefs (hload : node.store.load repo node.id = .ok found)
    {written : Namespace} (hwrite : node.writeRefs now repo edit = .ok (written, node')) :
    (node.nextManifest repo found edit).validate = .ok () := by
  obtain ⟨current, signed, replaced, hcurrent, hsign, hreplace, -⟩ := writeRefs_eq_ok hwrite
  obtain rfl := Except.ok.inj (hcurrent.symm.trans hload)
  obtain ⟨-, haccept, -⟩ := Store.replace_eq_ok_iff.mp hreplace
  rw [← Manifest.manifest_of_sign hsign]
  exact haccept.valid

/-- Setting a ref fails exactly if it is the record of the signed refs or there are too many refs
with it. -/
theorem Logged.setRef_error_iff (h : Logged node repo log found) (hfew : log.length + 1 < 2 ^ 64)
    (name : RefName) (target : ObjectId)
    (hverifies : node.Verifies (node.nextManifest repo found fun refs => refs.insert name target)) :
    (∃ error, node.setRef now repo name target = .error error) ↔
      name = .signedRefs ∨ 4096 < ((Namespace.lastRefs found).insert name target).size := by
  have hvalid : (node.nextManifest repo found fun refs => refs.insert name target).validate =
      .ok () ↔ name ≠ .signedRefs ∧ ((Namespace.lastRefs found).insert name target).size ≤ 4096 :=
    validate_nextManifest_iff h.not_contains_signedRefs
  constructor
  · rintro ⟨error, herror⟩
    by_contra hright
    rw [not_or, Nat.not_lt] at hright
    obtain ⟨written, node', hwrite⟩ := exists_writeRefs h.load (hvalid.mpr hright) hverifies
      (by rwa [h.number]) now
    rw [setRef, hwrite] at herror
    cases herror
  · intro hwrong
    cases hset : node.setRef now repo name target with
    | error error => exact ⟨error, rfl⟩
    | ok done =>
        have hright := hvalid.mp (validate_of_writeRefs h.load hset)
        rcases hwrong with hname | hsize
        · exact absurd hname hright.1
        · exact absurd hright.2 (Nat.not_le.mpr hsize)

/-! ### After any run -/

/-- Authoring keeps a faithful log. If the own namespace in a repository is absent at the start and
nothing but the node's calls writes it, then after any run the number counts the calls there that
succeeded, the refs are what their edits make in turn, and the manifest verifies. Unless this number
is the last one, 2⁶⁴ - 1, which takes as many calls, a ref cannot be set then exactly if it is the
record of the signed refs or there would be more than 4096 of them; what the node signs for it has
to verify. A call that fails leaves the store as it was, and no call
changes the namespace of another identity or repository. -/
theorem log_of_run {node : Node} {repo : RepoId} {happenings : List Happening}
    (hstart : node.store.load repo node.id = .ok none)
    (hothers : ∀ operation, .other operation ∈ happenings →
      operation.place? ≠ some ⟨repo, node.id⟩) :
    let last := node.nextAll happenings
    (∃ found, Logged last repo (node.log repo happenings) found ∧
      Namespace.lastNumber found ≤ happenings.countP Happening.isCall ∧
      ∀ (now : Int64) (name : RefName) (target : ObjectId),
        Namespace.lastNumber found ≠ 2 ^ 64 - 1 →
        last.Verifies (last.nextManifest repo found fun refs => refs.insert name target) →
          ((∃ error, last.setRef now repo name target = .error error) ↔
            name = .signedRefs ∨ 4096 < ((Namespace.lastRefs found).insert name target).size)) ∧
    ∀ (any : Node) (now : Int64) (repo : RepoId) (call : LocalCall),
      (∀ error, any.perform now repo call = .error error →
        (any.next (.call now repo call)).store = any.store) ∧
      ∀ repo' identity, ¬(repo' = repo ∧ identity = any.id) →
        (any.next (.call now repo call)).store.load repo' identity =
          any.store.load repo' identity := by
  intro last
  have hempty : Logged node repo [] none := ⟨hstart, rfl, rfl, fun _ hn => by cases hn⟩
  obtain ⟨found, hfound⟩ := hempty.nextAll hothers
  rw [List.nil_append] at hfound
  have hcalls : Namespace.lastNumber found ≤ happenings.countP Happening.isCall :=
    hfound.number.trans_le (node.length_log_le repo happenings)
  refine ⟨⟨found, hfound, hcalls, fun now name target hne hverifies => ?_⟩,
    fun any now repo call => ⟨fun error herror => ?_, fun repo' identity => load_next_of_ne⟩⟩
  · have hfew := Namespace.lastNumber_lt found
    rw [hfound.number] at hne hfew
    exact hfound.setRef_error_iff (by omega) name target hverifies
  · rw [next_of_error herror]

end Node

/-! ### Alice starts a namespace -/

namespace Forked

/-- Alice's node when her store is empty. -/
def fresh : Node := .new ⟨.replicate 32 1⟩ .inMemory .empty .standard

/-- Bob's namespace as he sends it. -/
def encodedBob : Bytes :=
  match (manifest bob 1 byBob
      0x59f6fedf7cccedc49d445f15ff01d74142e5170407c0c8ff23289fb3e36361d8643942027fba25a22fb65d5ab0c147738e6bae2f0ebf2de7a9c76b76f47f7e0b).encode with
  | .ok bytes => bytes
  | .error _ => []

/-- Alice names her identity document, Bob pushes his namespace, and Alice tries to set the record
of her signed refs. -/
def started : List Happening :=
  [.call 1700000000000 repo (.setRef .identityDocument (commit 7)),
    .other (.write (.serve 1700000000001 (.push repo bob encodedBob))),
    .call 1700000000002 repo (.setRef .signedRefs (commit 7))]

set_option maxRecDepth 100000 in
/-- Alice's identity, what she has done in the end, and that her first signature verifies. The facts
share the work of signing. -/
theorem facts_started :
    fresh.id = alice ∧ (fresh.log repo started).length = 1 ∧
      ((fresh.nextAll started).store.load repo bob).toOption.join.isSome = true ∧
      ((fresh.nextManifest repo none fun refs =>
        refs.insert .identityDocument (commit 7)).signingBytes >>= fun message =>
          fresh.id.verify message (fresh.keys.sign message)) = .ok () := by
  decide +kernel

/-- Alice can name her document at the start. Afterwards the number of her namespace is 1, since the
other call failed, although Bob's namespace has come in between. -/
theorem log_of_alice :
    (¬∃ error, fresh.setRef 1700000000000 repo .identityDocument (commit 7) = .error error) ∧
      ∃ found, (fresh.nextAll started).store.load repo alice = .ok found ∧
        Namespace.lastNumber found = 1 := by
  obtain ⟨hid, hlength, -, hverify⟩ := facts_started
  have hstart : fresh.store.load repo fresh.id = .ok none := rfl
  constructor
  · obtain ⟨⟨found, hlogged, -, hset⟩, -⟩ := @Node.log_of_run fresh repo [] hstart
      fun _ h => by cases h
    obtain rfl := Except.ok.inj (hstart.symm.trans hlogged.load)
    exact (hset 1700000000000 .identityDocument (commit 7) (by decide)
      (Node.verifies_of_bind hverify)).not.mpr (by decide)
  · have hothers : ∀ operation, .other operation ∈ started →
        operation.place? ≠ some ⟨repo, fresh.id⟩ := fun operation hmem => by
      rw [hid]
      simp only [started, List.mem_cons, reduceCtorEq, Happening.other.injEq, List.not_mem_nil,
        false_or, or_false] at hmem
      subst hmem
      decide
    obtain ⟨⟨found, hlogged, -⟩, -⟩ := Node.log_of_run hstart hothers
    refine ⟨found, ?_, hlogged.number.trans hlength⟩
    rw [← hid, ← Node.nextAll_id fresh started]
    exact hlogged.load

end Forked

end SignedRefs
