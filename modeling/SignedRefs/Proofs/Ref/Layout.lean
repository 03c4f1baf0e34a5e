import Mathlib.Data.List.Infix
import SignedRefs.Proofs.Fallible
import SignedRefs.Proofs.Ref.Naming

/-!
# What the Layout Accepts

Branch names are checked as whole texts and component by component, in a fixed order that matters
for the fault only. `BranchName.WellFormed` says the rules without that order: everything but the
length and the last character is asked of each component alone, where the components are those that
the library's own `List.splitOn` finds. A rule about the whole text may be asked of the components
whenever it holds of a path exactly if it holds on both sides of each slash (`forall_splitOn_iff`),
as no forbidden sequence contains a slash.

The texts that are read as a name are its spellings (`RefName.Spells`): its own text and, for a
patch, that text with some digits of the id in capitals.

## Main results

* `Hex.decode_eq_ok_iff`, `ObjectId.ofText_eq_ok_iff`: digits are read up to their letter case.
* `BranchName.fault?_eq_none_iff_wellFormed`: the names of branches.
* `RefName.ofText_eq_ok_iff`: the spellings of a name.
* `RefName.layout_exact`: names are accepted exactly within the layout and print back.
-/

namespace SignedRefs

/-! ### Digits of either letter case -/

namespace Hex

/-- The digits of some bytes by their values. -/
def nibbles (bytes : Bytes) : List Nat :=
  bytes.flatMap fun byte => [byte.toNat / 16, byte.toNat % 16]

/-- A half of a byte is below 16. -/
theorem lt_of_mem_nibbles {bytes : Bytes} {value : Nat} (h : value ∈ nibbles bytes) :
    value < 16 := by
  obtain ⟨byte, -, hvalue⟩ := List.mem_flatMap.mp h
  have hbyte := byte.toNat_lt
  simp only [List.mem_cons, List.not_mem_nil, or_false] at hvalue
  omega

/-- The digits of bytes are those of their halves. -/
theorem map_digit_nibbles (bytes : Bytes) : (nibbles bytes).map digit = digits bytes := by
  rw [nibbles, List.map_flatMap]
  rfl

/-- The codes of the digits of bytes spell their text. -/
theorem map_code_nibbles (bytes : Bytes) :
    (nibbles bytes).map code = Bytes.ofText (encode bytes) := by
  rw [nibbles, List.map_flatMap, ofText_encode]
  rfl

/-- A byte that is a digit in lower case is that digit. -/
theorem digitAt_of_lower {byte : UInt8} {value : Nat} (hvalue : value < 16)
    (h : lower byte = code value) (position : Nat) : digitAt byte position = .ok value := by
  have hcases : ∀ n < 256, ∀ v < 16, lower (UInt8.ofNat n) = code v →
      digitValue? (UInt8.ofNat n) = some v := by
    decide +kernel
  have hbyte := hcases byte.toNat byte.toNat_lt value hvalue
  rw [UInt8.ofNat_toNat] at hbyte
  rw [digitAt, hbyte h]

/-- Pairs of digits are read whatever their letter case. -/
theorem decodePairs_eq_ok_iff {source out : Bytes} (position : Nat)
    (heven : source.length % 2 = 0) :
    decodePairs position source = .ok out ↔ source.map lower = (nibbles out).map code := by
  constructor
  · intro h
    rw [map_code_nibbles, ofText_encode, digits_of_decodePairs heven h]
  · intro h
    induction out generalizing position source with
    | nil =>
        obtain rfl := List.map_eq_nil_iff.mp h
        rfl
    | cons byte out ih =>
        have hbyte := byte.toNat_lt
        obtain ⟨high, rest, rfl, hhigh, hrest⟩ := List.map_eq_cons_iff.mp h
        obtain ⟨low, rest, rfl, hlow, hrest⟩ := List.map_eq_cons_iff.mp hrest
        have htail := ih (position + 2) (by simp only [List.length_cons] at heven; omega) hrest
        have hvalue : 16 * (byte.toNat / 16) + byte.toNat % 16 = byte.toNat := by omega
        simp only [decodePairs, digitAt_of_lower (by omega) hhigh, digitAt_of_lower (by omega) hlow,
          htail, bind, Except.bind, pure, Except.pure, hvalue, UInt8.ofNat_toNat]

/-- A character is a digit in lower case exactly when its one byte is. -/
theorem lower_eq_code_iff {c : Char} {value : Nat} (hc : c.toNat < 128) (hvalue : value < 16) :
    lower (UInt8.ofNat c.toNat) = code value ↔ c.toLower = digit value := by
  have hcases : ∀ n < 128, ∀ v < 16,
      (lower (UInt8.ofNat n) = code v ↔ (Char.ofNat n).toLower = digit v) := by
    decide +kernel
  have hchar := hcases c.toNat hc value hvalue
  rwa [Char.ofNat_toNat] at hchar

/-- A character of the ASCII range takes one byte. -/
theorem utf8EncodeChar_of_lt {c : Char} (hc : c.toNat < 128) :
    String.utf8EncodeChar c = [UInt8.ofNat c.toNat] := by
  rw [String.utf8EncodeChar]
  exact if_pos (by change c.toNat ≤ 127; omega)

/-- The first byte of a character beyond ASCII is not ASCII either. -/
theorem utf8EncodeChar_of_le {c : Char} (hc : 128 ≤ c.toNat) :
    ∃ byte rest, String.utf8EncodeChar c = byte :: rest ∧ 128 ≤ byte.toNat := by
  have hbyte : ∀ n, 128 ≤ n → n < 256 → 128 ≤ (UInt8.ofNat n).toNat := by
    intro n hlow hhigh
    rwa [UInt8.toNat_ofNat_of_lt' hhigh]
  have hmin : ¬c.val.toNat ≤ 127 := by change ¬c.toNat ≤ 127; omega
  simp only [String.utf8EncodeChar, if_neg hmin]
  split
  · exact ⟨_, _, rfl, hbyte _ (by omega) (by omega)⟩
  · split
    · exact ⟨_, _, rfl, hbyte _ (by omega) (by omega)⟩
    · exact ⟨_, _, rfl, hbyte _ (by omega) (by omega)⟩

/-- No byte beyond ASCII is a digit. -/
theorem lower_ne_code {byte : UInt8} {value : Nat} (hbyte : 128 ≤ byte.toNat)
    (hvalue : value < 16) : lower byte ≠ code value := by
  have hcode : ∀ v < 16, (code v).toNat < 128 := by decide
  intro h
  have hlower : lower byte = byte := if_neg (by omega)
  have hlt := hcode value hvalue
  rw [← h, hlower] at hlt
  omega

/-- No character beyond ASCII is a digit. -/
theorem toLower_ne_digit {c : Char} {value : Nat} (hc : 128 ≤ c.toNat) (hvalue : value < 16) :
    c.toLower ≠ digit value := by
  have hdigit : ∀ v < 16, (digit v).toNat < 128 := by decide
  intro h
  have hlower : c.toLower = c := by
    refine dif_neg fun hupper => ?_
    have hle : c.toNat ≤ 90 := hupper.2
    omega
  have hlt := hdigit value hvalue
  rw [← h, hlower] at hlt
  omega

/-- A text is written in some digits, up to letter case, exactly when its bytes are. -/
theorem map_lower_eq_iff {chars : List Char} {values : List Nat}
    (h : ∀ value ∈ values, value < 16) :
    (chars.flatMap String.utf8EncodeChar).map lower = values.map code ↔
      chars.map Char.toLower = values.map digit := by
  induction chars generalizing values with
  | nil =>
      rw [List.flatMap_nil, List.map_nil, List.map_nil, List.nil_eq, List.nil_eq,
        List.map_eq_nil_iff, List.map_eq_nil_iff]
  | cons c chars ih =>
      rw [List.flatMap_cons, List.map_append, List.map_cons]
      cases values with
      | nil =>
          refine iff_of_false (fun hnil => ?_) (List.cons_ne_nil _ _)
          rw [List.map_nil, List.append_eq_nil_iff, List.map_eq_nil_iff] at hnil
          exact String.utf8EncodeChar_ne_nil hnil.1
      | cons value values =>
          obtain ⟨hvalue, hvalues⟩ := List.forall_mem_cons.mp h
          rw [List.map_cons, List.map_cons, List.cons_eq_cons]
          rcases Nat.lt_or_ge c.toNat 128 with hc | hc
          · rw [utf8EncodeChar_of_lt hc, List.map_cons, List.map_nil, List.singleton_append,
              List.cons_eq_cons, lower_eq_code_iff hc hvalue, ih hvalues]
          · obtain ⟨byte, rest, hbytes, hbyte⟩ := utf8EncodeChar_of_le hc
            rw [hbytes, List.map_cons, List.cons_append, List.cons_eq_cons]
            exact iff_of_false (fun hcodes => lower_ne_code hbyte hvalue hcodes.1)
              (fun hdigits => toLower_ne_digit hc hvalue hdigits.1)

/-- Bytes are read from their digits, whatever the letter case. -/
theorem decode_eq_ok_iff {text : String} {bytes : Bytes} :
    decode text = .ok bytes ↔ text.toList.map Char.toLower = digits bytes := by
  have hiff : (text.toList.flatMap String.utf8EncodeChar).map lower = (nibbles bytes).map code ↔
      text.toList.map Char.toLower = (nibbles bytes).map digit :=
    map_lower_eq_iff fun _ => lt_of_mem_nibbles
  rw [← Bytes.ofText_eq_flatMap, map_digit_nibbles] at hiff
  rw [← hiff, decode]
  split
  · next hodd =>
      refine iff_of_false (by rintro ⟨⟩) fun hcodes => ?_
      have hlength := congrArg List.length hcodes
      rw [List.length_map, map_code_nibbles, length_ofText_encode] at hlength
      omega
  · next hodd => exact decodePairs_eq_ok_iff 0 (by omega)

end Hex

/-- The name of an object is read from its digits, whatever the letter case. -/
theorem ObjectId.ofText_eq_ok_iff {text : String} {id : ObjectId} :
    ofText text = .ok id ↔ text.toList.map Char.toLower = id.hex.toList := by
  have hvalue : FixedBytes.ofBytes? id.bytes = some id.value :=
    FixedBytes.ofBytes?_eq_some_iff.mpr rfl
  have hhex : id.hex.toList = Hex.digits id.bytes := String.toList_ofList
  rw [hhex, ← Hex.decode_eq_ok_iff, ofText]
  split
  · next hsize =>
      refine iff_of_false (by rintro ⟨⟩) fun hdecode => hsize ?_
      have hlength := congrArg List.length (Hex.ofText_encode_of_decode hdecode)
      rw [List.length_map, Hex.length_ofText_encode, bytes, id.value.length_eq] at hlength
      exact hlength.symm
  · cases hdecode : Hex.decode text with
    | error fault => exact iff_of_false (by rintro ⟨⟩) (by rintro ⟨⟩)
    | ok bytes =>
        change ofBytes bytes = .ok id ↔ _
        rw [Except.ok.injEq]
        constructor
        · intro h
          rw [ofBytes] at h
          split at h
          · next value hbytes =>
              cases h
              exact (FixedBytes.ofBytes?_eq_some_iff.mp hbytes).symm
          · cases h
        · rintro rfl
          rw [ofBytes, hvalue]

/-! ### Branches -/

namespace BranchName

/-- The model's parts of a path are those of the library. -/
theorem components_eq_splitOn (path : List Char) : components path = path.splitOn '/' := by
  induction path with
  | nil => rfl
  | cons c path ih =>
      rw [List.splitOn_cons_eq_if_modifyHead, components, ih]
      by_cases hslash : c = '/'
      · rw [if_pos hslash, if_pos (beq_iff_eq.mpr hslash)]
      · rw [if_neg hslash, if_neg (mt beq_iff_eq.mp hslash)]
        cases hparts : path.splitOn '/' with
        | nil => exact (List.splitOn_ne_nil _ _ hparts).elim
        | cons first others => rfl

/-- Two characters are found as a pair if they stand next to each other. -/
theorem hasPair_eq_true_iff {a b : Char} {chars : List Char} :
    hasPair a b chars = true ↔ [a, b] <:+: chars := by
  fun_induction hasPair a b chars with
  | case1 c d rest ih =>
      rw [Bool.or_eq_true, ih, Bool.and_eq_true, beq_iff_eq, beq_iff_eq,
        List.infix_cons_iff (a := c), List.cons_prefix_cons, List.cons_prefix_cons,
        eq_comm (a := c), eq_comm (a := d), and_iff_left (List.nil_prefix (l := rest))]
  | case2 chars hshort =>
      refine iff_of_false Bool.false_ne_true fun hpair => ?_
      match chars, hshort, hpair.length_le with
      | c :: d :: rest, hshort, _ => exact hshort c d rest rfl
      | [c], _, hle => simp at hle
      | [], _, hle => simp at hle

/-- What stands on neither side of a slash and has no slash itself stands nowhere. -/
theorem infix_append_slash_iff {part before after : List Char} (hpart : '/' ∉ part) :
    part <:+: before ++ '/' :: after ↔ part <:+: before ∨ part <:+: after := by
  constructor
  · intro h
    rcases List.infix_append_iff.mp h with hbefore | hafter | ⟨front, back, rfl, hfront, hback⟩
    · exact .inl hbefore
    · rcases List.infix_cons_iff.mp hafter with hprefix | hafter
      · rcases List.prefix_cons_iff.mp hprefix with rfl | ⟨rest, rfl, -⟩
        · exact .inl (List.nil_infix)
        · exact (hpart List.mem_cons_self).elim
      · exact .inr hafter
    · rcases List.prefix_cons_iff.mp hback with rfl | ⟨rest, rfl, -⟩
      · rw [List.append_nil]
        exact .inl hfront.isInfix
      · exact (hpart (List.mem_append_right _ List.mem_cons_self)).elim
  · rintro (hbefore | hafter)
    · exact hbefore.trans (List.prefix_append _ _).isInfix
    · exact hafter.trans ((List.suffix_cons _ _).trans (List.suffix_append _ _)).isInfix

/-- What holds of a path exactly if it holds on both sides of each slash holds of the path exactly
if it holds of its components. -/
theorem forall_splitOn_iff {p : List Char → Prop}
    (hp : ∀ before after, p (before ++ '/' :: after) ↔ p before ∧ p after) (path : List Char) :
    (∀ component ∈ path.splitOn '/', p component) ↔ p path := by
  by_cases hslash : '/' ∈ path
  · obtain ⟨before, after, hpath, hbefore⟩ := List.eq_append_cons_of_mem hslash
    rw [hpath, List.splitOn_append_cons_self_of_not_mem hbefore, List.forall_mem_cons,
      forall_splitOn_iff hp after, hp]
  · rw [List.splitOn_eq_singleton hslash, List.forall_mem_singleton]
termination_by path.length
decreasing_by
  rw [hpath, List.length_append, List.length_cons]
  omega

/-- A component of the name of a branch. -/
structure IsComponent (component : List Char) : Prop where
  /-- It is not empty. -/
  nonempty : component ≠ []
  /-- It does not start with a dot. -/
  no_leading_dot : component.head? ≠ some '.'
  /-- It does not end like a lock file. -/
  not_lock : ¬".lock".toList <:+ component
  /-- It has no two dots in a row. -/
  no_dots : ¬"..".toList <:+: component
  /-- It has no at sign before an opening brace. -/
  no_brace : ¬"@\x7b".toList <:+: component
  /-- It has neither white space nor control characters, nor characters with a meaning in
  patterns. -/
  plain : ∀ c ∈ component, Text.isBlank c = false ∧ Text.isControl c = false ∧
    c ∉ "~^:?*[\\".toList

/-- The names of branches. -/
structure WellFormed (text : String) : Prop where
  /-- It is not empty. -/
  one_le : 1 ≤ text.utf8ByteSize
  /-- It is not too long. -/
  le_max : text.utf8ByteSize ≤ 255
  /-- It does not end in a dot, although other components may. -/
  no_trailing_dot : text.toList.getLast? ≠ some '.'
  /-- What stands between its slashes are components. -/
  components : ∀ component ∈ text.toList.splitOn '/', IsComponent component

/-- A path without forbidden sequences and characters. -/
structure IsPlain (path : List Char) : Prop where
  /-- It has no two dots in a row. -/
  no_dots : ¬['.', '.'] <:+: path
  /-- It has no at sign before an opening brace. -/
  no_brace : ¬['@', '\x7b'] <:+: path
  /-- None of its characters is forbidden. -/
  plain : ∀ c ∈ path, isForbidden c = false

/-- A character is allowed if it is neither blank nor a control character nor special. -/
theorem isForbidden_eq_false_iff {c : Char} :
    isForbidden c = false ↔
      Text.isBlank c = false ∧ Text.isControl c = false ∧ c ∉ "~^:?*[\\".toList := by
  rw [isForbidden, Bool.or_eq_false_iff, Bool.or_eq_false_iff, and_assoc, List.contains_eq_mem,
    decide_eq_false_iff_not]
  rfl

/-- Two texts around a slash are plain together exactly if each of them is. -/
theorem isPlain_append_slash_iff (before after : List Char) :
    IsPlain (before ++ '/' :: after) ↔ IsPlain before ∧ IsPlain after := by
  have hslash : isForbidden '/' = false := by decide
  have hdots : ['.', '.'] <:+: before ++ '/' :: after ↔
      ['.', '.'] <:+: before ∨ ['.', '.'] <:+: after := infix_append_slash_iff (by decide)
  have hbrace : ['@', '\x7b'] <:+: before ++ '/' :: after ↔
      ['@', '\x7b'] <:+: before ∨ ['@', '\x7b'] <:+: after := infix_append_slash_iff (by decide)
  constructor
  · rintro ⟨nodots, nobrace, plain⟩
    rw [hdots, not_or] at nodots
    rw [hbrace, not_or] at nobrace
    rw [List.forall_mem_append, List.forall_mem_cons] at plain
    exact ⟨⟨nodots.1, nobrace.1, plain.1⟩, ⟨nodots.2, nobrace.2, plain.2.2⟩⟩
  · rintro ⟨⟨nodots, nobrace, plain⟩, ⟨nodots', nobrace', plain'⟩⟩
    refine ⟨?_, ?_, ?_⟩
    · rw [hdots, not_or]
      exact ⟨nodots, nodots'⟩
    · rw [hbrace, not_or]
      exact ⟨nobrace, nobrace'⟩
    · rw [List.forall_mem_append, List.forall_mem_cons]
      exact ⟨plain, hslash, plain'⟩

/-- A check that reports a fault or leaves the rest to what follows. -/
theorem ite_some_eq_none_iff {α : Type} {p : Prop} [Decidable p] {fault : α} {rest : Option α} :
    (if p then some fault else rest) = none ↔ ¬p ∧ rest = none := by
  split
  · next hp => exact iff_of_false (Option.some_ne_none fault) fun h => h.1 hp
  · next hp => exact (and_iff_right hp).symm

/-- A component has no fault if it is not empty, starts with no dot and does not end in `.lock`. -/
theorem componentFault?_eq_none_iff {component : List Char} :
    componentFault? component = none ↔
      component ≠ [] ∧ component.head? ≠ some '.' ∧ ¬".lock".toList <:+ component := by
  rw [componentFault?, ite_some_eq_none_iff, ite_some_eq_none_iff, List.isEmpty_iff,
    Bool.or_eq_true, decide_eq_true_eq, List.isSuffixOf_iff_suffix, not_or, and_iff_left rfl]
  rfl

/-- A component breaks no rule of its own and has nothing forbidden in it. -/
theorem isComponent_iff {component : List Char} :
    IsComponent component ↔ componentFault? component = none ∧ IsPlain component := by
  rw [componentFault?_eq_none_iff]
  constructor
  · rintro ⟨nonempty, nodot, nolock, nodots, nobrace, plain⟩
    exact ⟨⟨nonempty, nodot, nolock⟩, nodots, nobrace,
      fun c hc => isForbidden_eq_false_iff.mpr (plain c hc)⟩
  · rintro ⟨⟨nonempty, nodot, nolock⟩, nodots, nobrace, plain⟩
    exact ⟨nonempty, nodot, nolock, nodots, nobrace,
      fun c hc => isForbidden_eq_false_iff.mp (plain c hc)⟩

/-- The checks of a branch name, one by one. -/
theorem fault?_eq_none_iff_checks {text : String} :
    fault? text = none ↔
      text.toList ≠ [] ∧ text.utf8ByteSize ≤ 255 ∧ IsPlain text.toList ∧
        (∀ component ∈ text.toList.splitOn '/', componentFault? component = none) ∧
        text.toList.getLast? ≠ some '.' := by
  have hplain : IsPlain text.toList ↔
      ¬(hasPair '.' '.' text.toList || hasPair '@' '\x7b' text.toList) = true ∧
        ¬text.toList.any isForbidden = true := by
    rw [Bool.or_eq_true, hasPair_eq_true_iff, hasPair_eq_true_iff, not_or, Bool.not_eq_true,
      List.any_eq_false]
    simp only [Bool.not_eq_true]
    exact ⟨fun ⟨nodots, nobrace, plain⟩ => ⟨⟨nodots, nobrace⟩, plain⟩,
      fun ⟨⟨nodots, nobrace⟩, plain⟩ => ⟨nodots, nobrace, plain⟩⟩
  rw [fault?, ite_some_eq_none_iff, ite_some_eq_none_iff, ite_some_eq_none_iff,
    ite_some_eq_none_iff, List.isEmpty_iff, ← components_eq_splitOn, ← List.findSome?_eq_none_iff,
    hplain, and_assoc, maxLength, Nat.not_lt]
  cases (components text.toList).findSome? componentFault? with
  | none =>
      dsimp only
      rw [ite_some_eq_none_iff, and_iff_left rfl, and_iff_right rfl]
  | some fault => simp only [reduceCtorEq, false_and, and_false]

/-- The texts that break no rule. -/
theorem fault?_eq_none_iff_wellFormed {text : String} : fault? text = none ↔ WellFormed text := by
  have hsize : text.toList ≠ [] ↔ 1 ≤ text.utf8ByteSize := by
    rw [Nat.one_le_iff_ne_zero, not_iff_not, String.utf8ByteSize_eq_zero_iff,
      String.toList_eq_nil_iff]
  have hcomponents : (∀ component ∈ text.toList.splitOn '/', IsComponent component) ↔
      IsPlain text.toList ∧
        ∀ component ∈ text.toList.splitOn '/', componentFault? component = none := by
    simp only [isComponent_iff]
    rw [← forall_splitOn_iff isPlain_append_slash_iff, ← forall₂_and]
    exact forall₂_congr fun component hcomponent => and_comm
  rw [fault?_eq_none_iff_checks, hsize]
  constructor
  · rintro ⟨one, le, plain, components, last⟩
    exact ⟨one, le, last, hcomponents.mpr ⟨plain, components⟩⟩
  · rintro ⟨one, le, last, components⟩
    obtain ⟨plain, components⟩ := hcomponents.mp components
    exact ⟨one, le, plain, components, last⟩

instance (text : String) : Decidable (WellFormed text) :=
  decidable_of_iff _ fault?_eq_none_iff_wellFormed

example : WellFormed "v1./überarbeitet" := by decide

example : ¬WellFormed "v1/.überarbeitet" := by decide

/-- A text is read as a branch exactly when it is the name of one. -/
theorem exists_ofText_eq_ok_iff {text : String} :
    (∃ branch, ofText text = .ok branch) ↔ WellFormed text := by
  rw [← fault?_eq_none_iff_wellFormed]
  constructor
  · rintro ⟨branch, h⟩
    rw [← ofText_eq_ok_iff.mp h]
    exact branch.valid
  · intro h
    exact ⟨⟨text, h⟩, ofText_eq_ok_iff.mpr rfl⟩

/-- Two names with a slash between them make a name unless it is too long. -/
theorem WellFormed.join {a b : String} (ha : WellFormed a) (hb : WellFormed b)
    (hle : (a ++ "/" ++ b).utf8ByteSize ≤ 255) : WellFormed (a ++ "/" ++ b) := by
  have htext : (a ++ "/" ++ b).toList = a.toList ++ '/' :: b.toList := by
    rw [String.toList_append, String.toList_append, List.append_assoc]
    rfl
  obtain ⟨front, last, hlast⟩ : ∃ front last, b.toList = front ++ [last] := by
    refine List.eq_nil_or_concat' b.toList |>.resolve_left fun hnil => ?_
    have hone := hb.one_le
    rw [String.toList_eq_nil_iff] at hnil
    rw [hnil] at hone
    cases hone
  refine ⟨?_, hle, ?_, ?_⟩
  · rw [String.utf8ByteSize_append, String.utf8ByteSize_append]
    have hone := ha.one_le
    omega
  · have hdot := hb.no_trailing_dot
    rw [hlast, List.getLast?_concat] at hdot
    rwa [htext, hlast, ← List.cons_append, ← List.append_assoc, List.getLast?_concat]
  · rw [htext, List.splitOn_append_cons_self, List.forall_mem_append]
    exact ⟨ha.components, hb.components⟩

end BranchName

/-! ### Names of refs -/

namespace RefName

/-- The spellings of a name: its text, where the digits of the id of a patch may be capitals. -/
inductive Spells : RefName → String → Prop
  | text (name : RefName) : Spells name name.text
  | patch (id : ObjectId) (digits : String)
      (hdigits : digits.toList.map Char.toLower = id.hex.toList) :
      Spells (.patch id) (patchesDirectory ++ digits)

/-- Every spelling of a name is read as that name. -/
theorem Spells.ofText_eq {name : RefName} {text : String} (h : Spells name text) :
    ofText text = .ok name := by
  cases h with
  | text => exact ofText_text name
  | patch id digits hdigits =>
      rw [ofText, isPrefixOf?_patches, isPrefixOf?_append]
      simp only [String.ofList_toList, ObjectId.ofText_eq_ok_iff.mpr hdigits]

/-- What is read as a name is a spelling of it. -/
theorem spells_of_ofText {name : RefName} {text : String} (h : ofText text = .ok name) :
    Spells name text := by
  rw [ofText] at h
  split at h
  · next rest hrest =>
      obtain rfl := toList_eq_append hrest
      obtain ⟨branch, hbranch, rfl⟩ := map_eq_ok_iff.mp h
      rw [← BranchName.ofText_eq_ok_iff.mp hbranch]
      exact .text (.head branch)
  · split at h
    · next rest hrest =>
        obtain rfl := toList_eq_append hrest
        split at h
        · next id hid =>
            cases h
            exact .patch id _ (ObjectId.ofText_eq_ok_iff.mp hid)
        · cases h
    · split at h
      · next htext =>
          cases h
          subst htext
          exact .text .identityDocument
      · split at h
        · next htext =>
            cases h
            subst htext
            exact .text .signedRefs
        · cases h

/-- A text is read as a name exactly when it is a spelling of it. -/
theorem ofText_eq_ok_iff {name : RefName} {text : String} :
    ofText text = .ok name ↔ Spells name text :=
  ⟨spells_of_ofText, Spells.ofText_eq⟩

/-- What stands in the directory of the branches is a name exactly when the rest names a branch. -/
theorem exists_ofText_heads_iff {text : String} :
    (∃ name, ofText (headsDirectory ++ text) = .ok name) ↔ BranchName.WellFormed text := by
  rw [← BranchName.exists_ofText_eq_ok_iff, ofText, isPrefixOf?_append]
  simp only [String.ofList_toList, map_eq_ok_iff]
  constructor
  · rintro ⟨-, branch, hbranch, -⟩
    exact ⟨branch, hbranch⟩
  · rintro ⟨branch, hbranch⟩
    exact ⟨_, branch, hbranch, rfl⟩

/-- Names are accepted exactly within the layout and print back: a name is read from its own text,
the texts that are read as a name are its spellings, the texts that are read as a branch are the
well-formed ones, no two names have the same text, and joining two branches makes a branch unless it
is too long. -/
theorem layout_exact :
    (∀ name : RefName, ofText name.text = .ok name) ∧
    (∀ (name : RefName) (text : String), ofText text = .ok name ↔ Spells name text) ∧
    (∀ text : String,
      ((∃ branch, BranchName.ofText text = .ok branch) ↔ BranchName.WellFormed text) ∧
      ((∃ name, ofText (headsDirectory ++ text) = .ok name) ↔ BranchName.WellFormed text)) ∧
    (∀ a b : RefName, a.text = b.text → a = b) ∧
    ∀ a b : BranchName, (a.text ++ "/" ++ b.text).utf8ByteSize ≤ 255 →
      ∃ joined, BranchName.ofText (a.text ++ "/" ++ b.text) = .ok joined := by
  refine ⟨ofText_text, fun name text => ofText_eq_ok_iff,
    fun text => ⟨BranchName.exists_ofText_eq_ok_iff, exists_ofText_heads_iff⟩,
    fun a b => text_injective, fun a b hle => ?_⟩
  have ha := BranchName.fault?_eq_none_iff_wellFormed.mp a.valid
  have hb := BranchName.fault?_eq_none_iff_wellFormed.mp b.valid
  exact BranchName.exists_ofText_eq_ok_iff.mpr (ha.join hb hle)

/-- A patch id in capitals, and two branches whose names hold dots and letters beyond ASCII. -/
theorem layout_exact_capitals :
    ofText "refs/patches/ABABABABABABABABABABABABABABABABABABABAB" =
      .ok (.patch ⟨⟨List.replicate 20 0xab, rfl⟩⟩) ∧
    ∃ joined, BranchName.ofText ("v1.2" ++ "/" ++ "überarbeitet") = .ok joined := by
  have hdigits : "ABABABABABABABABABABABABABABABABABABABAB".toList.map Char.toLower =
      (ObjectId.mk ⟨List.replicate 20 0xab, rfl⟩).hex.toList := by decide
  exact ⟨(layout_exact.2.1 _ _).mpr (.patch _ "ABABABABABABABABABABABABABABABABABABABAB" hdigits),
    layout_exact.2.2.2.2 ⟨"v1.2", by decide⟩ ⟨"überarbeitet", by decide⟩ (by decide)⟩

end RefName

end SignedRefs
