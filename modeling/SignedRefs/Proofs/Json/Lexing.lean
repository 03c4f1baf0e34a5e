import Mathlib.Data.List.Forall2
import Mathlib.Tactic.IntervalCases
import SignedRefs.Json.Token
import SignedRefs.Json.Writer

/-!
# Grouping Characters into Tokens

A word or a number shows its end only by what comes after it. So a part of a text is described by
what it makes of the tokens before it. What spells tokens (`Lexer.Spells`) comes after complete
tokens and may go on; what separates (`Lexer.Separates`) also ends the token before it, and is
complete itself. In arrays and objects the two alternate, and there may be spaces wherever something
separates.

## Main results

* `Lexer.step_of_finish?`: how a token ends.
* `Lexer.Separates.around`: what separates makes what is spelled complete.
* `Lexer.spells_number`, `Lexer.separates_text`: numbers and texts.
* `Lexer.separates_enclose`: brackets around parts, whatever spaces are set between them.
-/

namespace SignedRefs.Json

/-! ### Steps that may fail -/

section

variable {α σ : Type} {f : σ → α → Option σ} {x y : σ} {l l' : List α} {a : α}

/-- A fold over two lists goes on from what the first one leads to. -/
theorem foldlM_append_of (h : l.foldlM f x = some y) :
    (l ++ l').foldlM f x = l'.foldlM f y := by
  rw [List.foldlM_append, h]
  rfl

/-- A fold goes on from what the first step leads to. -/
theorem foldlM_cons_of (h : f x a = some y) : (a :: l).foldlM f x = l.foldlM f y := by
  rw [List.foldlM_cons, h]
  rfl

end

/-! ### Parts with something between them -/

/-- Parts with one symbol between them are the first one, and the others with the symbol in front of
each. -/
theorem intercalate_cons {α : Type} (symbol : α) (part : List α) (rest : List (List α)) :
    [symbol].intercalate (part :: rest) = part ++ rest.flatMap (symbol :: ·) := by
  induction rest generalizing part with
  | nil => simp
  | cons next rest ih =>
      rw [List.intercalate_cons_cons, ih, List.flatMap_cons]
      simp

/-! ### Ends of tokens -/

namespace Lexer

/-- Neither a word nor a number goes on with the character. -/
structure Stops (c : Char) : Prop where
  /-- It is no letter. -/
  isLower : c.isLower = false
  /-- It does not stand in numbers. -/
  isNumberChar : isNumberChar c = false

/-- After a text that may end, a character that stops it starts a token. -/
theorem step_of_finish? {lexer : Lexer} {before : List Token} {c : Char} (hc : Stops c)
    (h : lexer.finish? = some before) : lexer.step c = startToken before.reverse c := by
  obtain ⟨tokens, mode⟩ := lexer
  cases mode with
  | between =>
      cases h
      rw [List.reverse_reverse]
      rfl
  | word letters =>
      obtain ⟨token, htoken, rfl⟩ := Option.map_eq_some_iff.mp h
      simp only [step, hc.isLower, htoken, List.reverse_reverse]
      rfl
  | number chars =>
      obtain ⟨token, htoken, rfl⟩ := Option.map_eq_some_iff.mp h
      simp only [step, hc.isNumberChar, htoken, List.reverse_reverse]
      rfl
  | string items => cases h
  | escape items => cases h
  | code items missing value => cases h

/-- After complete tokens the characters are these tokens, the last of which may go on. -/
def Spells (chars : List Char) (tokens : List Token) : Prop :=
  ∀ before : List Token, ∃ lexer : Lexer,
    chars.foldlM step ⟨before.reverse, .between⟩ = some lexer ∧
      lexer.finish? = some (before ++ tokens)

/-- After a text that may end the characters are these tokens, and all of them are complete. -/
def Separates (chars : List Char) (tokens : List Token) : Prop :=
  ∀ (lexer : Lexer) (before : List Token), lexer.finish? = some before →
    chars.foldlM step lexer = some ⟨(before ++ tokens).reverse, .between⟩

section

variable {a b c : List Char} {s t u : List Token}

/-- Between two tokens the text may end. -/
theorem finish?_between (before : List Token) :
    finish? ⟨before.reverse, .between⟩ = some before := by
  rw [finish?, List.reverse_reverse]

/-- Complete tokens are tokens. -/
theorem Separates.spells (h : Separates a s) : Spells a s := fun before =>
  ⟨_, h _ before (finish?_between before), finish?_between _⟩

/-- What is spelled completely may be followed by more that is. -/
theorem Separates.append (h : Separates a s) (hnext : Separates b t) :
    Separates (a ++ b) (s ++ t) := by
  intro lexer before hbefore
  rw [foldlM_append_of (h lexer before hbefore), hnext _ _ (finish?_between _),
    List.append_assoc]

/-- What is spelled completely may be followed by tokens the last of which may go on. -/
theorem Separates.append_spells (h : Separates a s) (hnext : Spells b t) :
    Spells (a ++ b) (s ++ t) := by
  intro before
  obtain ⟨lexer, hlexer, hfinish⟩ := hnext (before ++ s)
  refine ⟨lexer, ?_, by rw [hfinish, List.append_assoc]⟩
  rw [foldlM_append_of (h _ before (finish?_between before)), hlexer]

/-- What is spelled is complete as soon as something separates it from what follows. -/
theorem Separates.around (h : Separates a s) (hinner : Spells b t) (hend : Separates c u) :
    Separates (a ++ (b ++ c)) (s ++ (t ++ u)) := by
  intro lexer before hbefore
  obtain ⟨next, hnext, hfinish⟩ := hinner (before ++ s)
  rw [foldlM_append_of (h lexer before hbefore), foldlM_append_of hnext, hend next _ hfinish,
    List.append_assoc, List.append_assoc]

/-! ### Punctuation and spaces -/

/-- A character that is a token on its own. -/
theorem separates_char {char : Char} {token : Token} (hstops : Stops char)
    (h : ∀ before, startToken before char = some ⟨token :: before, .between⟩) :
    Separates [char] [token] := by
  intro lexer before hbefore
  rw [List.foldlM_cons, step_of_finish? hstops hbefore, h, List.reverse_append]
  rfl

/-- There are four spaces. -/
theorem cases_of_isSpace {char : Char} (h : isSpace char = true) :
    char = ' ' ∨ char = '\t' ∨ char = '\n' ∨ char = '\r' := by
  simpa only [isSpace, Bool.or_eq_true, beq_iff_eq, or_assoc] using h

/-- Neither a word nor a number goes on with a space. -/
theorem stops_of_isSpace {char : Char} (h : isSpace char = true) : Stops char := by
  rcases cases_of_isSpace h with rfl | rfl | rfl | rfl <;> exact ⟨rfl, rfl⟩

/-- Spaces may stand before something that separates. -/
theorem Separates.spaces_append (h : Separates a s) {spaces : List Char}
    (hspaces : ∀ char ∈ spaces, isSpace char = true) : Separates (spaces ++ a) s := by
  induction spaces with
  | nil => exact h
  | cons char spaces ih =>
      obtain ⟨hchar, hspaces⟩ := List.forall_mem_cons.mp hspaces
      intro lexer before hbefore
      rw [List.cons_append, List.foldlM_cons, step_of_finish? (stops_of_isSpace hchar) hbefore,
        startToken, if_pos hchar]
      exact ih hspaces _ before (finish?_between before)

/-- Spaces may stand after something that separates. -/
theorem Separates.append_spaces (h : Separates a s) {spaces : List Char}
    (hspaces : ∀ char ∈ spaces, isSpace char = true) : Separates (a ++ spaces) s := by
  have hblank : ∀ tokens : List Token,
      spaces.foldlM step ⟨tokens, .between⟩ = some ⟨tokens, .between⟩ := by
    intro tokens
    clear h
    induction spaces with
    | nil => rfl
    | cons char spaces ih =>
        obtain ⟨hchar, hspaces⟩ := List.forall_mem_cons.mp hspaces
        have hstep : step ⟨tokens, .between⟩ char = some ⟨tokens, .between⟩ := if_pos hchar
        rw [foldlM_cons_of hstep]
        exact ih hspaces
  intro lexer before hbefore
  rw [foldlM_append_of (h lexer before hbefore), hblank]

/-! ### Words and numbers -/

/-- The word is read as null. -/
theorem spells_null : Spells ['n', 'u', 'l', 'l'] [.null] := fun before =>
  ⟨⟨before.reverse, .word ['l', 'l', 'u', 'n']⟩, rfl, by simp [finish?, Token.ofWord?]⟩

/-- The words are read as truth values. -/
theorem spells_bool (value : Bool) : Spells (boolWord value) [.bool value] := by
  intro before
  cases value with
  | true =>
      exact ⟨⟨before.reverse, .word ['e', 'u', 'r', 't']⟩, rfl,
        by simp [finish?, Token.ofWord?]⟩
  | false =>
      exact ⟨⟨before.reverse, .word ['e', 's', 'l', 'a', 'f']⟩, rfl,
        by simp [finish?, Token.ofWord?]⟩

/-- Digits may stand in a number. -/
theorem isNumberChar_of_isDigits {digits : List Char} (h : isDigits digits = true) :
    ∀ char ∈ digits, isNumberChar char = true := by
  intro char hchar
  rw [isDigits, Bool.and_eq_true, List.all_eq_true] at h
  simp [isNumberChar, h.2 char hchar]

/-- Everything in an exponent may stand in a number. -/
theorem isNumberChar_of_isExponent {chars : List Char} (h : isExponent chars = true) :
    ∀ char ∈ chars, isNumberChar char = true := by
  cases chars with
  | nil => simp
  | cons mark rest =>
      rw [isExponent.eq_def] at h
      simp only [Bool.and_eq_true, Bool.or_eq_true, beq_iff_eq] at h
      obtain ⟨hmark, hrest⟩ := h
      refine List.forall_mem_cons.mpr ⟨?_, ?_⟩
      · rcases hmark with rfl | rfl <;> rfl
      · split at hrest
        · exact List.forall_mem_cons.mpr ⟨rfl, isNumberChar_of_isDigits hrest⟩
        · exact List.forall_mem_cons.mpr ⟨rfl, isNumberChar_of_isDigits hrest⟩
        · exact isNumberChar_of_isDigits hrest

/-- Digits and what follows them. -/
theorem isNumberChar_of_split {chars : List Char}
    (hdigits : isDigits (chars.takeWhile Char.isDigit) = true)
    (hrest : ∀ char ∈ chars.dropWhile Char.isDigit, isNumberChar char = true) :
    ∀ char ∈ chars, isNumberChar char = true := by
  rw [← List.takeWhile_append_dropWhile (p := Char.isDigit) (l := chars)]
  exact List.forall_mem_append.mpr ⟨isNumberChar_of_isDigits hdigits, hrest⟩

/-- Everything in a fraction may stand in a number. -/
theorem isNumberChar_of_isFraction {chars : List Char} (h : isFraction chars = true) :
    ∀ char ∈ chars, isNumberChar char = true := by
  rw [isFraction.eq_def] at h
  split at h
  · rw [Bool.and_eq_true] at h
    exact List.forall_mem_cons.mpr
      ⟨rfl, isNumberChar_of_split h.1 (isNumberChar_of_isExponent h.2)⟩
  · exact isNumberChar_of_isExponent h

/-- Everything in a number without a sign may stand in a number. -/
theorem isNumberChar_of_isUnsignedNumber {chars : List Char} (h : isUnsignedNumber chars = true) :
    ∀ char ∈ chars, isNumberChar char = true := by
  simp only [isUnsignedNumber, Bool.and_eq_true] at h
  exact isNumberChar_of_split h.1.1 (isNumberChar_of_isFraction h.2)

/-- A number without a sign starts with a digit. -/
theorem exists_digit_of_isUnsignedNumber {chars : List Char} (h : isUnsignedNumber chars = true) :
    ∃ digit rest, chars = digit :: rest ∧ digit.isDigit = true := by
  simp only [isUnsignedNumber, Bool.and_eq_true, isDigits] at h
  cases chars with
  | nil => cases h.1.1.1
  | cons digit rest =>
      refine ⟨digit, rest, rfl, ?_⟩
      by_contra hdigit
      rw [List.takeWhile_cons_of_neg hdigit] at h
      cases h.1.1.1

/-- A number starts with a digit or a sign and goes on with what may stand in numbers. -/
theorem exists_first_of_isNumber {chars : List Char} (h : isNumber chars = true) :
    ∃ first rest, chars = first :: rest ∧ (first.isDigit || first == '-') = true ∧
      ∀ char ∈ rest, isNumberChar char = true := by
  rw [isNumber.eq_def] at h
  split at h
  · exact ⟨_, _, rfl, rfl, isNumberChar_of_isUnsignedNumber h⟩
  · obtain ⟨digit, rest, rfl, hdigit⟩ := exists_digit_of_isUnsignedNumber h
    exact ⟨digit, rest, rfl, by rw [hdigit, Bool.true_or],
      (List.forall_mem_cons.mp (isNumberChar_of_isUnsignedNumber h)).2⟩

/-- A digit or a minus sign starts a number. -/
theorem startToken_number {tokens : List Token} {first : Char}
    (h : (first.isDigit || first == '-') = true) :
    startToken tokens first = some ⟨tokens, .number [first]⟩ := by
  have hspace : isSpace first = false := by
    refine Bool.eq_false_iff.mpr fun hspace => ?_
    rcases cases_of_isSpace hspace with rfl | rfl | rfl | rfl <;> cases h
  have hquote : first ≠ '"' := by
    rintro rfl
    cases h
  rw [startToken, hspace, if_neg hquote, if_pos h]
  rfl

/-- The spelling of a number is read as this number. -/
theorem spells_number {spelling : List Char} (h : isNumber spelling = true) :
    Spells spelling [.number spelling] := by
  obtain ⟨first, rest, rfl, hfirst, hrest⟩ := exists_first_of_isNumber h
  intro before
  have hgo : ∀ chars : List Char, rest.foldlM step ⟨before.reverse, .number chars⟩ =
      some ⟨before.reverse, .number (rest.reverse ++ chars)⟩ := by
    clear h
    induction rest with
    | nil => exact fun _ => rfl
    | cons char rest ih =>
        intro chars
        obtain ⟨hchar, hrest⟩ := List.forall_mem_cons.mp hrest
        have hstep : step ⟨before.reverse, .number chars⟩ char =
            some ⟨before.reverse, .number (char :: chars)⟩ := if_pos hchar
        rw [foldlM_cons_of hstep, ih hrest, List.reverse_cons, List.append_assoc]
        rfl
  refine ⟨⟨before.reverse, .number (rest.reverse ++ [first])⟩, ?_, ?_⟩
  · have hstart : step ⟨before.reverse, .between⟩ first =
        some ⟨before.reverse, .number [first]⟩ := startToken_number hfirst
    rw [foldlM_cons_of hstart, hgo]
  · simp [finish?, Token.ofNumber?, h]

/-! ### Strings -/

/-- A hexadecimal digit is read back. -/
theorem hexValue?_digitChar {n : Nat} (h : n < 16) : hexValue? (Nat.digitChar n) = some n := by
  interval_cases n <;> rfl

/-- A digit of a character code is added to those before it. -/
theorem step_code {items : Content} {tokens : List Token} {missing value digit : Nat}
    (h : digit < 16) : step ⟨tokens, .code items (missing + 2) value⟩ (Nat.digitChar digit) =
      some ⟨tokens, .code items (missing + 1) (16 * value + digit)⟩ := by
  simp [step, hexValue?_digitChar h]

/-- The four digits of a number stand for it. -/
theorem foldlM_fourDigits {n : Nat} (h : n < 65536) (tokens : List Token) (items : Content) :
    (fourDigits n).foldlM step ⟨tokens, .code items 4 0⟩ =
      some ⟨tokens, .string (addCode items n)⟩ := by
  have hdigits : 16 * (16 * (16 * (16 * 0 + n / 4096 % 16) + n / 256 % 16) + n / 16 % 16) +
      n % 16 = n := by omega
  have hlast : ∀ value, step ⟨tokens, .code items 1 value⟩ (Nat.digitChar (n % 16)) =
      some ⟨tokens, .string (addCode items (16 * value + n % 16))⟩ := by
    intro value
    simp [step, hexValue?_digitChar (Nat.mod_lt n (by decide))]
  have hmod : ∀ m, m % 16 < 16 := fun m => Nat.mod_lt m (by decide)
  simp only [fourDigits, List.map_cons, List.map_nil, List.foldlM_cons, List.foldlM_nil,
    step_code (hmod _), hlast, hdigits, Option.bind_eq_bind, Option.bind_some, Option.pure_def]

/-- A code below the surrogates stands for a character. -/
theorem addCode_of_lt {n : Nat} (h : n < leading) (items : Content) :
    addCode items n = .char (Char.ofNat n) :: items := by
  have htrailing : leading < trailing := by decide
  rw [addCode.eq_def, if_neg (by omega), if_neg (by omega)]

/-- The form of a character is read back. -/
theorem foldlM_char (tokens : List Token) (items : Content) (char : Char) :
    (StringItem.char char).write.foldlM step ⟨tokens, .string items⟩ =
      some ⟨tokens, .string (.char char :: items)⟩ := by
  rw [StringItem.write, escape]
  split_ifs with hquote hbackslash hb hf hn hr ht hcontrol
  · subst hquote; rfl
  · subst hbackslash; rfl
  · subst hb; rfl
  · subst hf; rfl
  · subst hn; rfl
  · subst hr; rfl
  · subst ht; rfl
  · have hcode := addCode_of_lt (Nat.lt_trans hcontrol (by decide)) items
    rw [Char.ofNat_toNat] at hcode
    rw [← hcode]
    exact foldlM_fourDigits (Nat.lt_trans hcontrol (by decide)) tokens items
  · have hstep : step ⟨tokens, .string items⟩ char =
        some ⟨tokens, .string (.char char :: items)⟩ := by
      simp [step, hquote, hbackslash, hcontrol]
    exact foldlM_cons_of hstep

/-- A written text is read back, and is complete at its closing quote. -/
theorem separates_text (text : String) :
    Separates (Content.ofText text).write [.string (Content.ofText text)] := by
  have hgo : ∀ (chars : List Char) (tokens : List Token) (items : Content),
      ((chars.map StringItem.char).flatMap StringItem.write).foldlM step ⟨tokens, .string items⟩ =
        some ⟨tokens, .string ((chars.map StringItem.char).reverse ++ items)⟩ := by
    intro chars tokens
    induction chars with
    | nil => exact fun _ => rfl
    | cons char chars ih =>
        intro items
        rw [List.map_cons, List.flatMap_cons, foldlM_append_of (foldlM_char tokens items char), ih,
          List.reverse_cons, List.append_assoc]
        rfl
  intro lexer before hbefore
  have hstart : step lexer '"' = some ⟨before.reverse, .string []⟩ :=
    (step_of_finish? ⟨rfl, rfl⟩ hbefore).trans rfl
  rw [Content.write, List.cons_append, foldlM_cons_of hstart, Content.ofText,
    foldlM_append_of (hgo _ _ _), List.append_nil, List.reverse_append]
  simp [step]

/-! ### Layouts -/

/-- Nothing but spaces is set between the parts. -/
structure Blank (layout : Layout) : Prop where
  /-- The space before parts. -/
  breakAt : ∀ level, ∀ char ∈ layout.breakAt level, isSpace char = true
  /-- The space after colons. -/
  afterColon : ∀ char ∈ layout.afterColon, isSpace char = true

variable {layout : Layout}

/-- The parts after the first one, and the bracket that closes them. -/
theorem separates_rest (hlayout : Blank layout) {closing : Char} {last : Token}
    (hclose : Separates [closing] [last]) {parts : List (List Char)} {tokens : List (List Token)}
    (h : List.Forall₂ Spells parts tokens) (level : Nat) :
    Separates ((parts.map (layout.breakAt (level + 1) ++ ·)).flatMap (',' :: ·) ++
      (layout.breakAt level ++ [closing])) (tokens.flatMap (.comma :: ·) ++ [last]) := by
  have hcomma : Separates [','] [.comma] := separates_char ⟨rfl, rfl⟩ fun _ => rfl
  induction h with
  | nil => exact hclose.spaces_append (hlayout.breakAt level)
  | cons hpart _ ih =>
      have hboth := (hcomma.append_spaces (hlayout.breakAt (level + 1))).around hpart ih
      simpa using hboth

/-- Brackets around parts that spell tokens. -/
theorem separates_enclose (hlayout : Blank layout) {opening closing : Char} {first last : Token}
    (hopen : Separates [opening] [first]) (hclose : Separates [closing] [last])
    {parts : List (List Char)} {tokens : List (List Token)} (h : List.Forall₂ Spells parts tokens)
    (level : Nat) : Separates (layout.enclose level opening closing parts)
      (first :: ([.comma].intercalate tokens ++ [last])) := by
  cases h with
  | nil => exact hopen.append hclose
  | cons hpart hrest =>
      have hall := (hopen.append_spaces (hlayout.breakAt (level + 1))).around hpart
        (separates_rest hlayout hclose hrest level)
      simpa [Layout.enclose, intercalate_cons] using hall

end

end Lexer

end SignedRefs.Json
