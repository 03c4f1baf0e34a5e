import SignedRefs.ObjectId
import SignedRefs.Ref.Branch

/-!
# Ref Names

Every identity owns a namespace with the same layout: branches under `refs/heads/`, the identity
document at `refs/rad/id`, the record of its own signed refs at `refs/rad/sigrefs`, and patches
under `refs/patches/`. A `RefName` is one place in that layout; `RefName.ofText` refuses everything
outside it.

Names are ordered by place first, in the order above, then branches by the bytes of their names and
patches by the bytes of their ids.
-/

namespace SignedRefs

/-- A place in the layout of a namespace. -/
inductive RefName
  /-- A branch. -/
  | head (branch : BranchName)
  /-- The identity document. -/
  | identityDocument
  /-- The record of the namespace's own signed refs. -/
  | signedRefs
  /-- The latest change of a patch. -/
  | patch (id : ObjectId)
deriving DecidableEq

namespace RefName

/-- What the names of branches start with. -/
def headsDirectory : String := "refs/heads/"

/-- What the names of patches start with. -/
def patchesDirectory : String := "refs/patches/"

/-- The name of the identity document. -/
def identityDocumentText : String := "refs/rad/id"

/-- The name of the record of the signed refs. -/
def signedRefsText : String := "refs/rad/sigrefs"

/-- The name in full. -/
def text : RefName → String
  | .head branch => headsDirectory ++ branch.text
  | .identityDocument => identityDocumentText
  | .signedRefs => signedRefsText
  | .patch id => patchesDirectory ++ id.hex

/-- The name as it appears in diagnostics. -/
def label (name : RefName) : String := "RefName(" ++ name.text ++ ")"

/-- The word for the kind of place. -/
def kind : RefName → String
  | .head _ => "head"
  | .identityDocument => "id"
  | .signedRefs => "sigrefs"
  | .patch _ => "patch"

/-- Whether the place is neither a branch nor a patch. -/
def isSpecial : RefName → Bool
  | .identityDocument | .signedRefs => true
  | _ => false

/-- Reads a name of the layout. -/
def ofText (text : String) : Except NameError RefName :=
  match headsDirectory.toList.isPrefixOf? text.toList with
  | some branch => (BranchName.ofText (String.ofList branch)).map .head
  | none =>
    match patchesDirectory.toList.isPrefixOf? text.toList with
    | some id =>
      match ObjectId.ofText (String.ofList id) with
      | .ok id => .ok (.patch id)
      | .error _ => .error ⟨text, .badPatchId⟩
    | none =>
      if text = identityDocumentText then .ok .identityDocument
      else if text = signedRefsText then .ok .signedRefs
      else .error ⟨text, .outsideLayout⟩

/-! ### Order -/

/-- The place of a kind of ref in the order. -/
def rank : RefName → Nat
  | .head _ => 0
  | .identityDocument => 1
  | .signedRefs => 2
  | .patch _ => 3

/-- The name of the branch, if it is one. -/
def branchText : RefName → String
  | .head branch => branch.text
  | _ => ""

/-- The bytes of the patch id, if it is one. -/
def patchBytes : RefName → Bytes
  | .patch id => id.bytes
  | _ => []

/-- Names are ordered by kind, then by branch name or patch id. -/
instance : Ord RefName :=
  ⟨compareLex (compareOn rank) (compareLex (compareOn branchText) (compareOn patchBytes))⟩

instance : Std.TransOrd RefName :=
  inferInstanceAs (Std.TransCmp
    (compareLex (compareOn rank) (compareLex (compareOn branchText) (compareOn patchBytes))))

instance : Std.LawfulEqOrd RefName where
  eq_of_compare {a b} h := by
    have h : compareLex (compareOn rank)
      (compareLex (compareOn branchText) (compareOn patchBytes)) a b = .eq := h
    simp only [compareLex_eq_eq, compareOn, Std.LawfulEqOrd.compare_eq_iff_eq] at h
    obtain ⟨hrank, hbranch, hpatch⟩ := h
    cases a <;> cases b <;> simp [rank] at hrank
    case head.head => exact congrArg RefName.head (BranchName.ext hbranch)
    case identityDocument.identityDocument => rfl
    case signedRefs.signedRefs => rfl
    case patch.patch a b =>
      obtain ⟨a⟩ := a
      obtain ⟨b⟩ := b
      exact congrArg (RefName.patch ∘ ObjectId.mk) (FixedBytes.ext hpatch)

end RefName

end SignedRefs
