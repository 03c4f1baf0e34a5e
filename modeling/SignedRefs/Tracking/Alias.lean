import SignedRefs.Text.Blank
import SignedRefs.Text.Quoted

/-!
# Aliases

A local, readable name for an identity. It is short, so that it can never be taken for an identity
in hexadecimal, and holds no white space.
-/

namespace SignedRefs

/-- Why a text is not an alias. -/
inductive AliasFault
  /-- The text is empty. -/
  | empty
  /-- The text is longer than 32 bytes. -/
  | tooLong
  /-- There is white space or a control character in the text. -/
  | blank
deriving DecidableEq

/-- The words for a fault. -/
def AliasFault.message : AliasFault → String
  | .empty => "empty"
  | .tooLong => "longer than 32 bytes"
  | .blank => "contains whitespace"

namespace Alias

/-- The longest alias, in bytes. -/
def maxLength : Nat := 32

/-- The first rule for aliases that a text breaks. -/
def fault? (text : String) : Option AliasFault :=
  if text.isEmpty then some .empty
  else if maxLength < text.utf8ByteSize then some .tooLong
  else if text.toList.any fun c => Text.isBlank c || Text.isControl c then some .blank
  else none

end Alias

/-- A local name for an identity. -/
structure Alias where
  /-- The name. -/
  text : String
  /-- It breaks no rule. -/
  valid : Alias.fault? text = none
deriving DecidableEq

namespace Alias

/-- Equal texts make equal aliases. -/
theorem ext {a b : Alias} (h : a.text = b.text) : a = b := by
  cases a; cases b; cases h; rfl

/-- Aliases are ordered by their texts. -/
instance : Ord Alias := ⟨compareOn text⟩

instance : Std.TransOrd Alias := inferInstanceAs (Std.TransCmp (compareOn text))

instance : Std.LawfulEqOrd Alias where
  eq_of_compare h := ext (Std.LawfulEqOrd.eq_of_compare (α := String) h)

/-- The alias with this text. -/
def ofText (text : String) : Except AliasFault Alias :=
  match h : fault? text with
  | none => .ok ⟨text, h⟩
  | some fault => .error fault

/-- A text has an alias exactly when it is that alias's text. -/
theorem ofText_eq_ok_iff {text : String} {a : Alias} : ofText text = .ok a ↔ a.text = text := by
  unfold ofText
  constructor
  · intro h
    split at h
    · cases h; rfl
    · cases h
  · rintro rfl
    split
    · rfl
    · next hf => simp [a.valid] at hf

end Alias

end SignedRefs
