import SignedRefs.Json.Value

/-!
# JSON Tokens

A text is read in two passes: `Token.ofText?` groups its characters into tokens, and the tokens then
make a value. The first pass goes through the text once; a `Lexer` is what it knows after some of
the characters.
-/

namespace SignedRefs.Json

/-- A piece of JSON text. -/
inductive Token
  | beginArray
  | endArray
  | beginObject
  | endObject
  | comma
  | colon
  | null
  | bool (value : Bool)
  | number (spelling : List Char)
  | string (content : Content)
deriving DecidableEq

namespace Token

/-- The token that a character makes on its own. -/
def ofChar? (c : Char) : Option Token :=
  if c = '[' then some .beginArray
  else if c = ']' then some .endArray
  else if c = '\x7b' then some .beginObject
  else if c = '\x7d' then some .endObject
  else if c = ',' then some .comma
  else if c = ':' then some .colon
  else none

/-- The token of a word. -/
def ofWord? (word : List Char) : Option Token :=
  if word = ['n', 'u', 'l', 'l'] then some .null
  else if word = ['t', 'r', 'u', 'e'] then some (.bool true)
  else if word = ['f', 'a', 'l', 's', 'e'] then some (.bool false)
  else none

/-- The token of a number. -/
def ofNumber? (spelling : List Char) : Option Token :=
  if isNumber spelling then some (.number spelling) else none

end Token

/-- Whether a character may stand between tokens. -/
def isSpace (c : Char) : Bool := c == ' ' || c == '\t' || c == '\n' || c == '\r'

/-- Whether a character may stand in a number. -/
def isNumberChar (c : Char) : Bool :=
  c.isDigit || c == '-' || c == '+' || c == '.' || c == 'e' || c == 'E'

/-- What the characters so far mean for the next one. Lists have their latest element first. -/
inductive Mode
  /-- A token may start. -/
  | between
  /-- Within a word. -/
  | word (letters : List Char)
  /-- Within a number. -/
  | number (chars : List Char)
  /-- Within a string. -/
  | string (items : Content)
  /-- Within a string, after a backslash. -/
  | escape (items : Content)
  /-- Within a string, with `missing` digits of the number of a character still to come. -/
  | code (items : Content) (missing value : Nat)

/-- A text that is partly grouped into tokens. The latest token comes first. -/
structure Lexer where
  /-- The tokens that are complete. -/
  tokens : List Token
  /-- What comes after them. -/
  mode : Mode

namespace Lexer

/-- The lexer before the first character. -/
def start : Lexer := ⟨[], .between⟩

/-- The character that a letter stands for after a backslash. -/
def escaped? (c : Char) : Option Char :=
  if c = '"' ∨ c = '\\' ∨ c = '/' then some c
  else if c = 'b' then some '\x08'
  else if c = 'f' then some '\x0c'
  else if c = 'n' then some '\n'
  else if c = 'r' then some '\r'
  else if c = 't' then some '\t'
  else none

/-- The value of a hexadecimal digit. -/
def hexValue? (c : Char) : Option Nat :=
  if '0' ≤ c ∧ c ≤ '9' then some (c.toNat - '0'.toNat)
  else if 'a' ≤ c ∧ c ≤ 'f' then some (c.toNat - 'a'.toNat + 10)
  else if 'A' ≤ c ∧ c ≤ 'F' then some (c.toNat - 'A'.toNat + 10)
  else none

/-- The least number of a leading surrogate. -/
def leading : Nat := 0xd800

/-- The least number of a trailing surrogate. -/
def trailing : Nat := 0xdc00

/-- The least number above those of the surrogates. -/
def afterSurrogates : Nat := 0xe000

/-- Adds the character with a number to a string, the latest piece first. A trailing surrogate
completes a leading one right before it. -/
def addCode (items : Content) (code : Nat) : Content :=
  if trailing ≤ code ∧ code < afterSurrogates then
    match items with
    | .surrogate lead :: rest =>
      if lead < trailing then
        .char (Char.ofNat (0x10000 + 1024 * (lead - leading) + (code - trailing))) :: rest
      else .surrogate code :: items
    | _ => .surrogate code :: items
  else if leading ≤ code ∧ code < trailing then .surrogate code :: items
  else .char (Char.ofNat code) :: items

/-- Takes a character that may start a token. -/
def startToken (tokens : List Token) (c : Char) : Option Lexer :=
  if isSpace c then some ⟨tokens, .between⟩
  else if c = '"' then some ⟨tokens, .string []⟩
  else if c.isDigit || c == '-' then some ⟨tokens, .number [c]⟩
  else if c.isLower then some ⟨tokens, .word [c]⟩
  else (Token.ofChar? c).map fun token => ⟨token :: tokens, .between⟩

/-- Takes the next character. -/
def step (lexer : Lexer) (c : Char) : Option Lexer :=
  let tokens := lexer.tokens
  match lexer.mode with
  | .between => startToken tokens c
  | .word letters =>
    if c.isLower then some ⟨tokens, .word (c :: letters)⟩
    else (Token.ofWord? letters.reverse).bind fun token => startToken (token :: tokens) c
  | .number chars =>
    if isNumberChar c then some ⟨tokens, .number (c :: chars)⟩
    else (Token.ofNumber? chars.reverse).bind fun token => startToken (token :: tokens) c
  | .string items =>
    if c = '"' then some ⟨.string items.reverse :: tokens, .between⟩
    else if c = '\\' then some ⟨tokens, .escape items⟩
    else if c.toNat < 0x20 then some ⟨tokens, .string (.control c :: items)⟩
    else some ⟨tokens, .string (.char c :: items)⟩
  | .escape items =>
    if c = 'u' then some ⟨tokens, .code items 4 0⟩
    else (escaped? c).map fun c => ⟨tokens, .string (.char c :: items)⟩
  | .code items missing value =>
    (hexValue? c).map fun digit =>
      let value := 16 * value + digit
      if missing ≤ 1 then ⟨tokens, .string (addCode items value)⟩
      else ⟨tokens, .code items (missing - 1) value⟩

/-- The tokens, first one first, if the text may end here. -/
def finish? (lexer : Lexer) : Option (List Token) :=
  match lexer.mode with
  | .between => some lexer.tokens.reverse
  | .word letters =>
    (Token.ofWord? letters.reverse).map fun token => (token :: lexer.tokens).reverse
  | .number chars =>
    (Token.ofNumber? chars.reverse).map fun token => (token :: lexer.tokens).reverse
  | _ => none

end Lexer

/-- The tokens of a text. -/
def Token.ofText? (text : String) : Option (List Token) :=
  (text.toList.foldlM Lexer.step Lexer.start).bind Lexer.finish?

end SignedRefs.Json
