import SignedRefs.Text.Blank
import SignedRefs.Text.Quoted

/-!
# Branch Names

A branch name is a path of components joined by slashes. `BranchName.fault?` reports the first rule
that a text breaks, in a fixed order; the branch names are the texts that break none. The same rules
hold for a single component (`checkComponent`), which may not contain a slash at all.
-/

namespace SignedRefs

/-- Why a text is not a name. -/
inductive NameFault
  /-- The text is empty. -/
  | empty
  /-- The text is longer than 255 bytes. -/
  | tooLong
  /-- Two dots in a row, or an at sign before an opening brace. -/
  | forbiddenSequence
  /-- White space, a control character, or one of the characters with a meaning in patterns. -/
  | forbiddenCharacter
  /-- Nothing stands before, after or between two slashes. -/
  | emptyComponent
  /-- A component starts with a dot or ends in `.lock`. -/
  | invalidComponent
  /-- The last character is a dot. -/
  | trailingDot
  /-- There is a slash where only one component may stand. -/
  | notSingleComponent
  /-- What follows `refs/patches/` is not the name of an object. -/
  | badPatchId
  /-- The text starts like none of the refs that a namespace may hold. -/
  | outsideLayout
  /-- No slash separates an identity from a ref name. -/
  | missingNamespace
deriving DecidableEq

/-- The words for a fault. -/
def NameFault.message : NameFault → String
  | .empty => "empty"
  | .tooLong => "too long"
  | .forbiddenSequence => "forbidden sequence"
  | .forbiddenCharacter => "forbidden character"
  | .emptyComponent => "empty path component"
  | .invalidComponent => "invalid path component"
  | .trailingDot => "trailing dot"
  | .notSingleComponent => "must be a single component"
  | .badPatchId => "bad patch id"
  | .outsideLayout => "outside ref layout"
  | .missingNamespace => "missing namespace"

/-- A text that is not a name, and why. -/
structure NameError where
  /-- The text. -/
  text : String
  /-- The first rule that it breaks. -/
  fault : NameFault
deriving DecidableEq

/-- The text of the error. -/
def NameError.message (e : NameError) : String := Text.quoted e.text ++ ": " ++ e.fault.message

namespace BranchName

/-- The longest name, in bytes. -/
def maxLength : Nat := 255

/-- Whether `b` comes right after `a` somewhere. -/
def hasPair (a b : Char) : List Char → Bool
  | c :: d :: rest => (c == a && d == b) || hasPair a b (d :: rest)
  | _ => false

/-- White space, control characters and the characters with a meaning in patterns. -/
def isForbidden (c : Char) : Bool :=
  Text.isBlank c || Text.isControl c || ['~', '^', ':', '?', '*', '[', '\\'].contains c

/-- The parts of a path between its slashes, at least one. -/
def components : List Char → List (List Char)
  | [] => [[]]
  | c :: rest =>
    if c = '/' then [] :: components rest
    else
      match components rest with
      | [] => [[c]]
      | first :: others => (c :: first) :: others

/-- What is wrong with a component on its own. -/
def componentFault? (component : List Char) : Option NameFault :=
  if component.isEmpty then some .emptyComponent
  else if component.head? = some '.' || ['.', 'l', 'o', 'c', 'k'].isSuffixOf component then
    some .invalidComponent
  else none

/-- The first rule of branch names that a text breaks. -/
def fault? (text : String) : Option NameFault :=
  let chars := text.toList
  if chars.isEmpty then some .empty
  else if maxLength < text.utf8ByteSize then some .tooLong
  else if hasPair '.' '.' chars || hasPair '@' '\x7b' chars then some .forbiddenSequence
  else if chars.any isForbidden then some .forbiddenCharacter
  else
    match (components chars).findSome? componentFault? with
    | some fault => some fault
    | none => if chars.getLast? = some '.' then some .trailingDot else none

end BranchName

/-- The name of a branch. -/
structure BranchName where
  /-- The name. -/
  text : String
  /-- It breaks no rule. -/
  valid : BranchName.fault? text = none
deriving DecidableEq

namespace BranchName

/-- Equal texts make equal names. -/
theorem ext {a b : BranchName} (h : a.text = b.text) : a = b := by
  cases a; cases b; cases h; rfl

/-- The branch with this name. -/
def ofText (text : String) : Except NameError BranchName :=
  match h : fault? text with
  | none => .ok ⟨text, h⟩
  | some fault => .error ⟨text, fault⟩

/-- The name as it appears in diagnostics. -/
def label (branch : BranchName) : String := "BranchName(" ++ branch.text ++ ")"

/-- A text has a branch exactly when it is that branch's name. -/
theorem ofText_eq_ok_iff {text : String} {branch : BranchName} :
    ofText text = .ok branch ↔ branch.text = text := by
  unfold ofText
  constructor
  · intro h
    split at h
    · cases h; rfl
    · cases h
  · rintro rfl
    split
    · rfl
    · next hf => simp [branch.valid] at hf

end BranchName

/-- Checks a single component: a branch name without a slash. -/
def checkComponent (text : String) : Except NameError Unit :=
  if text.toList.contains '/' then .error ⟨text, .notSingleComponent⟩
  else
    match BranchName.fault? text with
    | none => .ok ()
    | some fault => .error ⟨text, fault⟩

end SignedRefs
