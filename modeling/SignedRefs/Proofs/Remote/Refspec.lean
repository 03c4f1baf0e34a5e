import SignedRefs.Proofs.Ref.Layout
import SignedRefs.Remote

/-!
# What a Refspec Maps

The version-control engine is told which branches to fetch, and under which names, by a refspec: two
patterns with a star each, a colon between them and perhaps a plus in front. A name is mapped if it
matches the left pattern, and what the star stands for then goes into the right one
(`Refspec.image?`). This module reads the text of a refspec as the engine does, by splitting it at
every colon and every star (`Refspec.ofText?`), so that a colon or a star in the name of a remote
would break it. There is none: the name of a remote is a component (`checkComponent_eq_ok_iff`).

## Main results

* `RefPattern.match?_eq_some_iff`: matching and filling in are inverse to each other.
* `ofText?_fetchRefspec`: which mapping the engine reads.
* `image?_branchMapping_iff`: it maps the branches of the identity, and nothing else in its
  namespace.
-/

namespace SignedRefs

/-! ### Patterns -/

/-- A pattern for names: what stands before its one star, and what stands after it. -/
structure RefPattern where
  /-- The characters before the star. -/
  before : List Char
  /-- The characters after the star. -/
  after : List Char
deriving DecidableEq

namespace RefPattern

/-- Reads a pattern with one star. -/
def ofChars? (chars : List Char) : Option RefPattern :=
  match chars.splitOn '*' with
  | [before, after] => some ⟨before, after⟩
  | _ => none

/-- What the star stands for in a name. -/
def match? (p : RefPattern) (name : String) : Option (List Char) := do
  let rest ← p.before.isPrefixOf? name.toList
  p.after.isSuffixOf? rest

/-- The name in which the star stands for the given characters. -/
def fill (p : RefPattern) (part : List Char) : String :=
  String.ofList (p.before ++ (part ++ p.after))

/-- The star stands for what has to be filled in. -/
theorem match?_eq_some_iff {p : RefPattern} {name : String} {part : List Char} :
    p.match? name = some part ↔ p.fill part = name := by
  rw [match?, fill, ← String.toList_inj, String.toList_ofList, Option.bind_eq_bind,
    Option.bind_eq_some_iff]
  simp only [List.isPrefixOf?_eq_some_iff_append_eq, List.isSuffixOf?_eq_some_iff_append_eq]
  constructor
  · rintro ⟨rest, hrest, hpart⟩
    rw [hpart, hrest]
  · intro h
    exact ⟨part ++ p.after, h, rfl⟩

/-- A pattern is read from what stands before and after its star. -/
theorem ofChars?_append {before after : List Char} (hbefore : '*' ∉ before) (hafter : '*' ∉ after) :
    ofChars? (before ++ '*' :: after) = some ⟨before, after⟩ := by
  rw [ofChars?, List.splitOn_append_cons_self_of_not_mem hbefore, List.splitOn_eq_singleton hafter]

end RefPattern

/-! ### Mappings -/

/-- A mapping of names. -/
structure Refspec where
  /-- Whether names that exist may be changed in any way. -/
  force : Bool
  /-- The pattern for what is mapped. -/
  source : RefPattern
  /-- The pattern for what it is mapped to. -/
  destination : RefPattern
deriving DecidableEq

namespace Refspec

/-- Reads two patterns with a colon between them. -/
def ofSides? (force : Bool) (chars : List Char) : Option Refspec :=
  match chars.splitOn ':' with
  | [source, destination] => do
    return ⟨force, ← RefPattern.ofChars? source, ← RefPattern.ofChars? destination⟩
  | _ => none

/-- Reads a mapping. -/
def ofText? (text : String) : Option Refspec :=
  match text.toList with
  | '+' :: chars => ofSides? true chars
  | chars => ofSides? false chars

/-- What a name is mapped to. -/
def image? (spec : Refspec) (name : String) : Option String :=
  (spec.source.match? name).map spec.destination.fill

end Refspec

/-! ### Names of remotes -/

/-- A single component is a well-formed name without a slash. -/
theorem checkComponent_eq_ok_iff {text : String} :
    checkComponent text = .ok () ↔ '/' ∉ text.toList ∧ BranchName.WellFormed text := by
  rw [checkComponent, ← BranchName.fault?_eq_none_iff_wellFormed, ← List.contains_iff_mem]
  split
  · next hslash => exact iff_of_false (by rintro ⟨⟩) fun h => h.1 hslash
  · next hslash =>
      cases BranchName.fault? text with
      | none => exact iff_of_true rfl ⟨hslash, rfl⟩
      | some fault => exact iff_of_false (by rintro ⟨⟩) fun h => by cases h.2

/-- Nothing in the name of a remote has a meaning in a refspec. -/
theorem not_mem_of_checkComponent {text : String} (h : checkComponent text = .ok ()) :
    '/' ∉ text.toList ∧ ':' ∉ text.toList ∧ '*' ∉ text.toList := by
  obtain ⟨hslash, hvalid⟩ := checkComponent_eq_ok_iff.mp h
  have hcomponents := hvalid.components
  rw [List.splitOn_eq_singleton hslash, List.forall_mem_singleton] at hcomponents
  exact ⟨hslash, fun hcolon => (hcomponents.plain _ hcolon).2.2 (by decide),
    fun hstar => (hcomponents.plain _ hstar).2.2 (by decide)⟩

/-! ### The branches of an identity -/

/-- The names in the directory of the branches are those of branches. -/
theorem RefName.heads_append_eq_iff {name : RefName} {part : List Char} :
    headsDirectory.toList ++ part = name.text.toList ↔
      ∃ branch, name = .head branch ∧ branch.text.toList = part := by
  constructor
  · intro h
    have hprefix := List.isPrefixOf?_eq_some_iff_append_eq.mpr h
    cases name with
    | head branch =>
        rw [text, isPrefixOf?_append, Option.some.injEq] at hprefix
        exact ⟨branch, rfl, hprefix⟩
    | identityDocument => cases hprefix
    | signedRefs => cases hprefix
    | patch id =>
        rw [text, isPrefixOf?_patches] at hprefix
        cases hprefix
  · rintro ⟨branch, rfl, rfl⟩
    rw [text, String.toList_append]

variable {name : String} {identity : PeerId}

/-- The mapping from the branches of an identity to those of a remote. -/
def branchMapping (name : String) (identity : PeerId) : Refspec where
  force := true
  source := ⟨identity.hex.toList ++ '/' :: RefName.headsDirectory.toList, []⟩
  destination := ⟨(remotesDirectory name).toList, []⟩

/-- A refspec has the two sides of the mapping around a colon. -/
theorem toList_fetchRefspec : (fetchRefspec name identity).toList =
    '+' :: (((branchMapping name identity).source.before ++ ['*']) ++
      ':' :: ((branchMapping name identity).destination.before ++ ['*'])) := by
  simp only [fetchRefspec, branchMapping, String.toList_append, List.append_assoc, List.cons_append]
  rfl

/-- The left side is made of digits and the directory of the branches. -/
theorem not_mem_source {c : Char} (hdigit : ∀ value < 16, Hex.digit value ≠ c)
    (hdirectory : c ∉ "/refs/heads/".toList) :
    c ∉ (branchMapping name identity).source.before := by
  intro hmem
  rcases List.mem_append.mp hmem with hhex | hrest
  · rw [PeerId.hex, Hex.encode, String.toList_ofList] at hhex
    exact Hex.not_mem_digits hdigit _ hhex
  · exact hdirectory hrest

/-- The right side is made of the name and the directory of the remotes. -/
theorem not_mem_destination {c : Char} (hname : c ∉ name.toList)
    (hdirectory : c ∉ "refs/remotes/".toList) :
    c ∉ (branchMapping name identity).destination.before := by
  intro hmem
  rw [branchMapping, remotesDirectory, String.toList_append, String.toList_append,
    List.mem_append, List.mem_append] at hmem
  rcases hmem with (hfront | hmem) | hslash
  · exact hdirectory hfront
  · exact hname hmem
  · rw [List.mem_singleton.mp hslash] at hdirectory
    exact hdirectory (by decide)

/-- The engine reads this mapping from the refspec of a remote. -/
theorem ofText?_fetchRefspec (h : checkComponent name = .ok ()) :
    Refspec.ofText? (fetchRefspec name identity) = some (branchMapping name identity) := by
  obtain ⟨-, hcolon, hstar⟩ := not_mem_of_checkComponent h
  have hsource : ':' ∉ (branchMapping name identity).source.before ++ ['*'] := by
    rw [List.mem_append, not_or]
    exact ⟨not_mem_source (by decide) (by decide), by decide⟩
  have hdestination : ':' ∉ (branchMapping name identity).destination.before ++ ['*'] := by
    rw [List.mem_append, not_or]
    exact ⟨not_mem_destination hcolon (by decide), by decide⟩
  rw [Refspec.ofText?, toList_fetchRefspec]
  simp only [Refspec.ofSides?, List.splitOn_append_cons_self_of_not_mem hsource,
    List.splitOn_eq_singleton hdestination,
    RefPattern.ofChars?_append (not_mem_source (by decide) (by decide)) List.not_mem_nil,
    RefPattern.ofChars?_append (not_mem_destination hstar (by decide)) List.not_mem_nil]
  rfl

/-- The branches of the identity are mapped, each to the same branch of the remote, and nothing else
in its namespace is. -/
theorem image?_branchMapping_iff {ref : NamespacedRef} (h : ref.identity = identity)
    {image : String} : (branchMapping name identity).image? ref.text = some image ↔
      ∃ branch, ref.name = .head branch ∧ remotesDirectory name ++ branch.text = image := by
  have hmatch : ∀ part, (branchMapping name identity).source.match? ref.text = some part ↔
      ∃ branch, ref.name = .head branch ∧ branch.text.toList = part := by
    intro part
    rw [RefPattern.match?_eq_some_iff, RefPattern.fill, ← String.toList_inj, String.toList_ofList,
      branchMapping, NamespacedRef.text, h, String.toList_append, String.toList_append,
      ← RefName.heads_append_eq_iff, List.append_nil, List.append_assoc, List.append_assoc,
      List.append_cancel_left_eq]
    exact List.cons_inj_right '/'
  have hfill : ∀ branch : BranchName,
      (branchMapping name identity).destination.fill branch.text.toList =
        remotesDirectory name ++ branch.text := by
    intro branch
    rw [RefPattern.fill, ← String.toList_inj, String.toList_ofList, String.toList_append,
      branchMapping, List.append_nil]
  rw [Refspec.image?, Option.map_eq_some_iff]
  constructor
  · rintro ⟨part, hpart, rfl⟩
    obtain ⟨branch, hbranch, rfl⟩ := (hmatch part).mp hpart
    exact ⟨branch, hbranch, (hfill branch).symm⟩
  · rintro ⟨branch, hbranch, rfl⟩
    exact ⟨_, (hmatch _).mpr ⟨branch, hbranch, rfl⟩, hfill branch⟩

example : (Refspec.ofText? "+a1/refs/heads/*:refs/remotes/fork/*").bind
    (·.image? "a1/refs/heads/feature/x") = some "refs/remotes/fork/feature/x" := by decide

end SignedRefs
