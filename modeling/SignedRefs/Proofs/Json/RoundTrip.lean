import Mathlib.Data.List.TakeWhile
import SignedRefs.Json.Reader
import SignedRefs.Proofs.Json.Lexing

/-!
# Reading JSON That Was Written

A value is read back from its form. The reader gives back less than a value can hold: a number has
to be spelled as one, and a string has to be a text. Such values are proper (`Value.Proper`).
Numbers, texts and fields are also read back from the values that are made of them.

The tokens of a value (`Value.tokens`) are the middle of the way. Its form is grouped into them, and
they make the value wherever one is expected.

## Main results

* `Value.Proper.spells`: the form of a value is grouped into its tokens.
* `Value.Proper.nests`: the tokens of a value make the value.
* `Value.Proper.parse?_write`: a proper value is read back, with any spaces between its parts.
* `Value.nat?_ofNat`, `Record.ofValue?_ofFields`: numbers and fields.
-/

namespace SignedRefs.Json

/-! ### Tokens of a value -/

namespace Value

/-- The value is what a reader may give back. -/
inductive Proper : Value → Prop
  /-- The absence of a value. -/
  | null : Proper .null
  /-- A truth value. -/
  | bool (value : Bool) : Proper (.bool value)
  /-- A number that is spelled as one. -/
  | number {spelling : List Char} (h : isNumber spelling = true) : Proper (.number spelling)
  /-- A text. -/
  | text (text : String) : Proper (.ofText text)
  /-- A sequence of proper values. -/
  | array {items : List Value} (h : ∀ item ∈ items, Proper item) : Proper (.array items)
  /-- A sequence of texts with proper values. -/
  | fields {fields : List (String × Value)} (h : ∀ field ∈ fields, Proper field.2) :
    Proper (.ofFields fields)

mutual

/-- The tokens of a value. -/
def tokens : Value → List Token
  | .null => [.null]
  | .bool value => [.bool value]
  | .number spelling => [.number spelling]
  | .string content => [.string content]
  | .array items => .beginArray :: ([.comma].intercalate (itemTokens items) ++ [.endArray])
  | .object entries => .beginObject :: ([.comma].intercalate (entryTokens entries) ++ [.endObject])

/-- The tokens of each item. -/
def itemTokens : List Value → List (List Token)
  | [] => []
  | item :: rest => tokens item :: itemTokens rest

/-- The tokens of each entry. -/
def entryTokens : List (Content × Value) → List (List Token)
  | [] => []
  | (name, value) :: rest => (.string name :: .colon :: tokens value) :: entryTokens rest

end

end Value

/-! ### The form of a value -/

namespace Value

variable {layout : Layout}

/-- The items of an array are written one by one. -/
theorem writeItems_eq (layout : Layout) (level : Nat) (items : List Value) :
    writeItems layout level items = items.map (write layout level) := by
  induction items with
  | nil => rfl
  | cons item rest ih => rw [writeItems, ih, List.map_cons]

/-- The tokens of several items are those of each. -/
theorem itemTokens_eq (items : List Value) : itemTokens items = items.map tokens := by
  induction items with
  | nil => rfl
  | cons item rest ih => rw [itemTokens, ih, List.map_cons]

/-- The entries of an object are written one by one: the key, a colon and the value. -/
theorem writeEntries_eq (layout : Layout) (level : Nat) (entries : List (Content × Value)) :
    writeEntries layout level entries =
      entries.map fun e => e.1.write ++ ':' :: layout.afterColon ++ write layout level e.2 := by
  induction entries with
  | nil => rfl
  | cons e rest ih =>
      obtain ⟨name, value⟩ := e
      rw [writeEntries, ih, List.map_cons]

/-- The tokens of several entries are those of each: the key, a colon and the value. -/
theorem entryTokens_eq (entries : List (Content × Value)) :
    entryTokens entries = entries.map fun e => .string e.1 :: .colon :: tokens e.2 := by
  induction entries with
  | nil => rfl
  | cons e rest ih =>
      obtain ⟨name, value⟩ := e
      rw [entryTokens, ih, List.map_cons]

/-- The form of a proper value is grouped into its tokens. -/
theorem Proper.spells (hlayout : Lexer.Blank layout) {value : Value} (h : value.Proper)
    (level : Nat) : Lexer.Spells (value.write layout level) value.tokens := by
  have hcolon : Lexer.Separates [':'] [.colon] := Lexer.separates_char ⟨rfl, rfl⟩ fun _ => rfl
  induction h generalizing level with
  | null => exact Lexer.spells_null
  | bool value => exact Lexer.spells_bool value
  | number h => exact Lexer.spells_number h
  | text text => exact (Lexer.separates_text text).spells
  | @array items _ ih =>
      rw [write, tokens, writeItems_eq, itemTokens_eq]
      refine (Lexer.separates_enclose hlayout (Lexer.separates_char ⟨rfl, rfl⟩ fun _ => rfl)
        (Lexer.separates_char ⟨rfl, rfl⟩ fun _ => rfl) ?_ level).spells
      rw [List.forall₂_map_left_iff, List.forall₂_map_right_iff, List.forall₂_same]
      exact fun item hitem => ih item hitem (level + 1)
  | @fields fields _ ih =>
      rw [ofFields, write, tokens, writeEntries_eq, entryTokens_eq, List.map_map, List.map_map]
      refine (Lexer.separates_enclose hlayout (Lexer.separates_char ⟨rfl, rfl⟩ fun _ => rfl)
        (Lexer.separates_char ⟨rfl, rfl⟩ fun _ => rfl) ?_ level).spells
      rw [List.forall₂_map_left_iff, List.forall₂_map_right_iff, List.forall₂_same]
      intro field hfield
      have hname := (Lexer.separates_text field.1).append
        (hcolon.append_spaces hlayout.afterColon)
      have hentry := hname.append_spells (ih field hfield (level + 1))
      simpa using hentry

/-! ### Nesting -/

open Progress

/-- The first item of an array begins like any value. -/
theorem foldlM_firstItem (value : Value) (around : List Frame) :
    value.tokens.foldlM step (.firstItem around) =
      value.tokens.foldlM step (.expectValue (.array [] :: around)) := by
  cases value <;> rw [tokens, List.foldlM_cons, List.foldlM_cons] <;> rfl

/-- Where a value is expected, the tokens of the value make it. -/
def Nests (value : Value) : Prop :=
  ∀ around, value.tokens.foldlM step (.expectValue around) = some (complete around value)

/-- What follows the first part of an array or object: the other parts, each after a comma, and the
bracket that closes it. -/
theorem foldlM_rest {α : Type} {after finished : List α → Progress} {parts : α → List Token}
    {close : Token} {rest : List α}
    (hpart : ∀ part ∈ rest, ∀ front,
      (Token.comma :: parts part).foldlM step (after front) = some (after (part :: front)))
    (hclose : ∀ front, step (after front) close = some (finished front)) (front : List α) :
    List.foldlM step (after front) ((rest.map parts).flatMap (Token.comma :: ·) ++ [close]) =
      some (finished (rest.reverse ++ front)) := by
  induction rest generalizing front with
  | nil => exact foldlM_cons_of (hclose front)
  | cons part rest ih =>
      obtain ⟨hpart, hrest⟩ := List.forall_mem_cons.mp hpart
      rw [List.map_cons, List.flatMap_cons, List.append_assoc, foldlM_append_of (hpart front),
        ih hrest, List.reverse_cons, List.append_assoc]
      rfl

/-- An array is read back if its items are. -/
theorem nests_array {items : List Value} (h : ∀ item ∈ items, Nests item) :
    Nests (.array items) := by
  intro around
  have hopen : step (.expectValue around) .beginArray = some (.firstItem around) := rfl
  rw [tokens, itemTokens_eq, foldlM_cons_of hopen]
  cases items with
  | nil => rfl
  | cons first rest =>
      obtain ⟨hfirst, hrest⟩ := List.forall_mem_cons.mp h
      have hitem : first.tokens.foldlM step (.firstItem around) =
          some (.afterItem around [first]) :=
        (foldlM_firstItem first around).trans (hfirst (.array [] :: around))
      have hpart : ∀ item ∈ rest, ∀ front, (Token.comma :: item.tokens).foldlM step
          (.afterItem around front) = some (.afterItem around (item :: front)) :=
        fun item hitem front => hrest item hitem (.array front :: around)
      have hclose : ∀ front, step (.afterItem around front) .endArray =
          some (complete around (.array front.reverse)) := fun _ => rfl
      rw [List.map_cons, intercalate_cons, List.append_assoc, foldlM_append_of hitem,
        foldlM_rest hpart hclose [first], List.reverse_append, List.reverse_reverse]
      rfl

/-- One entry of an object. -/
theorem foldlM_entry {entry : Content × Value} (h : Nests entry.2) (around : List Frame)
    (entries : List (Content × Value)) :
    (Token.string entry.1 :: .colon :: entry.2.tokens).foldlM step (.expectName around entries) =
      some (.afterEntry around (entry :: entries)) :=
  h (.object entries entry.1 :: around)

/-- An object is read back if the values in it are. -/
theorem nests_object {entries : List (Content × Value)} (h : ∀ e ∈ entries, Nests e.2) :
    Nests (.object entries) := by
  intro around
  have hopen : step (.expectValue around) .beginObject = some (.firstName around) := rfl
  rw [tokens, entryTokens_eq, foldlM_cons_of hopen]
  cases entries with
  | nil => rfl
  | cons first rest =>
      obtain ⟨hfirst, hrest⟩ := List.forall_mem_cons.mp h
      have hname : (Token.string first.1 :: .colon :: first.2.tokens).foldlM step
          (.firstName around) = some (.afterEntry around [first]) := foldlM_entry hfirst around []
      have hpart : ∀ entry ∈ rest, ∀ front,
          (Token.comma :: .string entry.1 :: .colon :: entry.2.tokens).foldlM step
            (.afterEntry around front) = some (.afterEntry around (entry :: front)) :=
        fun entry hentry front => foldlM_entry (hrest entry hentry) around front
      have hclose : ∀ front, step (.afterEntry around front) .endObject =
          some (complete around (.object front.reverse)) := fun _ => rfl
      rw [List.map_cons, intercalate_cons, List.append_assoc, foldlM_append_of hname,
        foldlM_rest hpart hclose [first], List.reverse_append, List.reverse_reverse]
      rfl

/-- The tokens of a proper value make the value. -/
theorem Proper.nests {value : Value} (h : value.Proper) : Nests value := by
  induction h with
  | null => exact fun _ => rfl
  | bool value => exact fun _ => rfl
  | number _ => exact fun _ => rfl
  | text text => exact fun _ => rfl
  | array _ ih => exact nests_array ih
  | fields _ ih =>
      refine nests_object fun e he => ?_
      obtain ⟨field, hfield, rfl⟩ := List.mem_map.mp he
      exact ih field hfield

/-! ### Both passes -/

/-- A proper value is read back, however its parts are set. -/
theorem Proper.parse?_write (hlayout : Lexer.Blank layout) {value : Value} (h : value.Proper) :
    parse? (String.ofList (value.write layout 0)) = some value := by
  obtain ⟨lexer, hlexer, hfinish⟩ := h.spells hlayout 0 []
  have htokens : Token.ofText? (String.ofList (value.write layout 0)) = some value.tokens := by
    rw [Token.ofText?, String.toList_ofList]
    exact (congrArg (Option.bind · Lexer.finish?) hlexer).trans hfinish
  rw [parse?, htokens, Option.bind_some, ofTokens?, h.nests []]
  rfl

/-- A proper value is read back from its indented form. -/
theorem Proper.parse?_pretty {value : Value} (h : value.Proper) :
    parse? value.pretty = some value := by
  refine h.parse?_write ⟨fun level => ?_, by simp [Layout.indented, isSpace]⟩
  simp only [Layout.indented, List.mem_cons, List.mem_replicate]
  rintro char (rfl | ⟨-, rfl⟩) <;> rfl

/-- A proper value is read back from its form on one line. -/
theorem Proper.parse?_compact {value : Value} (h : value.Proper) :
    parse? value.compact = some value :=
  h.parse?_write ⟨fun _ => List.forall_mem_nil _, List.forall_mem_nil _⟩

end Value

/-! ### Texts and numbers -/

/-- Reading a list of written values fails if one of them cannot be read. -/
theorem mapM_map_of {α β : Type} {f : β → Option α} {g : α → β} {p : α → Prop} [DecidablePred p]
    (h : ∀ a, f (g a) = if p a then some a else none) (l : List α) :
    (l.map g).mapM f = if ∀ a ∈ l, p a then some l else none := by
  induction l with
  | nil => simp
  | cons a l ih =>
      rw [List.map_cons, List.mapM_cons, h, ih]
      by_cases ha : p a
      · by_cases hl : ∀ a ∈ l, p a
        · rw [if_pos ha, if_pos hl, if_pos (List.forall_mem_cons.mpr ⟨ha, hl⟩)]
          rfl
        · rw [if_pos ha, if_neg hl, if_neg fun hall => hl (List.forall_mem_cons.mp hall).2]
          rfl
      · rw [if_neg ha, if_neg fun hall => ha (List.forall_mem_cons.mp hall).1]
        rfl

/-- A text is read back from its characters. -/
theorem Content.text?_ofText (text : String) : (Content.ofText text).text? = some text := by
  have hchars : (text.toList.map StringItem.char).mapM StringItem.char? = some text.toList :=
    (mapM_map_of (g := StringItem.char) (p := fun _ => True)
      (fun _ => (if_pos trivial).symm) _).trans (if_pos fun _ _ => trivial)
  rw [Content.text?, Content.ofText, hchars, Option.map_some, String.ofList_toList]

/-- A text is read back from the value that holds it. -/
theorem Value.text?_ofText (text : String) : (Value.ofText text).text? = some text :=
  Content.text?_ofText text

/-- The digits of a number do not start with a zero. -/
theorem head?_toDigits {n : Nat} (h : 0 < n) : (Nat.toDigits 10 n).head? ≠ some '0' := by
  induction n using Nat.strongRecOn with
  | ind n ih =>
      rcases Nat.lt_or_ge n 10 with hlt | hge
      · interval_cases n <;> decide
      · rw [Nat.toDigits_of_base_le (by decide) hge,
          List.head?_append_of_ne_nil _ Nat.toDigits_ne_nil]
        exact ih _ (by omega) (by omega)

/-- The decimal form of a number has nothing but digits. -/
theorem isDigit_toDigits {n : Nat} : ∀ char ∈ Nat.toDigits 10 n, char.isDigit = true :=
  fun _ => Nat.isDigit_of_mem_toDigits (by decide) (by decide)

/-- It is a run of digits, and not an empty one. -/
theorem isDigits_toDigits (n : Nat) : isDigits (Nat.toDigits 10 n) = true := by
  rw [isDigits, Bool.and_eq_true, List.all_eq_true]
  exact ⟨by simp, isDigit_toDigits⟩

/-- It is the spelling of a number. -/
theorem isNumber_toDigits (n : Nat) : isNumber (Nat.toDigits 10 n) = true := by
  have hwhole : (Nat.toDigits 10 n).takeWhile Char.isDigit = Nat.toDigits 10 n :=
    List.takeWhile_eq_self_iff.mpr isDigit_toDigits
  have hrest : (Nat.toDigits 10 n).dropWhile Char.isDigit = [] :=
    List.dropWhile_eq_nil_iff.mpr isDigit_toDigits
  have hunsigned : isUnsignedNumber (Nat.toDigits 10 n) = true := by
    rcases Nat.eq_zero_or_pos n with rfl | hpos
    · rfl
    · rw [isUnsignedNumber, hwhole, hrest, isDigits_toDigits]
      simp [head?_toDigits hpos, isFraction, isExponent]
  rw [isNumber.eq_def]
  split
  · next rest hsign =>
      have hdigit := isDigit_toDigits (n := n) '-' (hsign ▸ List.mem_cons_self)
      cases hdigit
  · exact hunsigned

/-- The value of a number is proper. -/
theorem Value.proper_ofNat (n : Nat) : (Value.ofNat n).Proper := .number (isNumber_toDigits n)

/-- A number is read back from its value, if it is below the bound. -/
theorem Value.nat?_ofNat {n bound : Nat} (h : n < bound) : (Value.ofNat n).nat? bound = some n := by
  rw [Value.ofNat, Value.nat?, if_pos (isDigits_toDigits n),
    Nat.ofDigitChars_toDigits (by decide) (by decide)]
  exact if_pos h

/-! ### Fields -/

/-- Fields are read back, if the names are known and none stands twice. -/
theorem Record.ofValue?_ofFields {names : List String} {fields : List (String × Value)}
    (hknown : ∀ field ∈ fields, field.1 ∈ names) (hnodup : (fields.map Prod.fst).Nodup) :
    Record.ofValue? names (.ofFields fields) = some ⟨fields, false⟩ := by
  have hobject : Value.ofFields fields =
      .object (fields.map fun field => (Content.ofText field.1, field.2)) := rfl
  have hall : Record.known names (fields.map fun field => (Content.ofText field.1, field.2)) =
      some fields := by
    clear hnodup hobject
    induction fields with
    | nil => rfl
    | cons field fields ih =>
        obtain ⟨hfield, hfields⟩ := List.forall_mem_cons.mp hknown
        rw [List.map_cons, Record.known, Content.text?_ofText]
        simp only [List.contains_iff_mem.mpr hfield, if_true, ih hfields]
        rfl
  rw [hobject, Record.ofValue?, hall]
  exact if_pos hnodup

end SignedRefs.Json
