import SignedRefs.Record.Error
import SignedRefs.Ref.Name

/-!
# Refs of a Given Namespace

A ref name together with the identity in whose namespace it stands, written with a slash between
them. Refs are ordered by identity first, then by name.
-/

namespace SignedRefs

/-- A ref of some identity. -/
structure NamespacedRef where
  /-- The owner of the namespace. -/
  identity : PeerId
  /-- The place in it. -/
  name : RefName
deriving DecidableEq

namespace NamespacedRef

/-- The ref in full. -/
def text (ref : NamespacedRef) : String := ref.identity.hex ++ "/" ++ ref.name.text

/-- The parts before and after the first slash. -/
def splitSlash? : List Char → Option (List Char × List Char)
  | [] => none
  | c :: rest =>
    if c = '/' then some ([], rest)
    else (splitSlash? rest).map fun (before, after) => (c :: before, after)

/-- Reads an identity and a ref name. -/
def ofText (text : String) : Except RecordError NamespacedRef :=
  match splitSlash? text.toList with
  | none => .error (.refName ⟨text, .missingNamespace⟩)
  | some (identity, name) => do
    let identity ← (PeerId.ofText (String.ofList identity)).mapError .identity
    let name ← (RefName.ofText (String.ofList name)).mapError .refName
    return ⟨identity, name⟩

/-! ### Order -/

/-- Refs are ordered by identity, then by name. -/
instance : Ord NamespacedRef := ⟨compareLex (compareOn identity) (compareOn name)⟩

instance : Std.TransOrd NamespacedRef :=
  inferInstanceAs (Std.TransCmp (compareLex (compareOn identity) (compareOn name)))

instance : Std.LawfulEqOrd NamespacedRef where
  eq_of_compare {a b} h := by
    obtain ⟨identity, name⟩ := a
    obtain ⟨identity', name'⟩ := b
    have h : compareLex (compareOn NamespacedRef.identity) (compareOn NamespacedRef.name)
      ⟨identity, name⟩ ⟨identity', name'⟩ = .eq := h
    simp only [compareLex_eq_eq, compareOn, Std.LawfulEqOrd.compare_eq_iff_eq] at h
    rw [h.1, h.2]

/-- Refs of one identity are ordered by their names. -/
theorem compare_mk (identity : PeerId) (a b : RefName) :
    compare (NamespacedRef.mk identity a) ⟨identity, b⟩ = compare a b := by
  change (compare identity identity).then (compare a b) = compare a b
  rw [Std.LawfulEqOrd.compare_eq_iff_eq.mpr rfl, Ordering.eq_then]

end NamespacedRef

end SignedRefs
