import SignedRefs.Json.Value

/-!
# Writing JSON

A value is written either on one line without spaces (`Value.compact`) or with each item and entry
on a line of its own, indented by two spaces for each level (`Value.pretty`). In strings only the
quote, the backslash and control characters are escaped.
-/

namespace SignedRefs.Json

/-- The four digits of a number below 65536. -/
def fourDigits (n : Nat) : List Char :=
  [n / 4096 % 16, n / 256 % 16, n / 16 % 16, n % 16].map Nat.digitChar

/-- The form of a character in a string. -/
def escape (c : Char) : List Char :=
  if c = '"' then ['\\', '"']
  else if c = '\\' then ['\\', '\\']
  else if c = '\x08' then ['\\', 'b']
  else if c = '\x0c' then ['\\', 'f']
  else if c = '\n' then ['\\', 'n']
  else if c = '\r' then ['\\', 'r']
  else if c = '\t' then ['\\', 't']
  else if c.toNat < 0x20 then ['\\', 'u'] ++ fourDigits c.toNat
  else [c]

/-- The form of a piece of a string. -/
def StringItem.write : StringItem → List Char
  | .char c | .control c => escape c
  | .surrogate unit => ['\\', 'u'] ++ fourDigits unit

/-- The form of a string. -/
def Content.write (content : Content) : List Char :=
  '"' :: content.flatMap StringItem.write ++ ['"']

/-- The word for a truth value. -/
def boolWord : Bool → List Char
  | true => ['t', 'r', 'u', 'e']
  | false => ['f', 'a', 'l', 's', 'e']

/-- How the parts of arrays and objects are set. -/
structure Layout where
  /-- What stands before each part, given the level of the part. -/
  breakAt : Nat → List Char
  /-- What stands between a name and its value. -/
  afterColon : List Char

/-- Everything on one line. -/
def Layout.oneLine : Layout := ⟨fun _ => [], []⟩

/-- Each part on a line of its own. -/
def Layout.indented : Layout := ⟨fun level => '\n' :: List.replicate (2 * level) ' ', [' ']⟩

/-- Puts brackets around parts, if there are any set by the layout, and commas between them. -/
def Layout.enclose (layout : Layout) (level : Nat) (opening closing : Char)
    (parts : List (List Char)) : List Char :=
  if parts.isEmpty then [opening, closing]
  else
    opening :: [','].intercalate (parts.map (layout.breakAt (level + 1) ++ ·)) ++
      layout.breakAt level ++ [closing]

mutual

/-- The form of a value at some level. -/
def Value.write (layout : Layout) (level : Nat) : Value → List Char
  | .null => ['n', 'u', 'l', 'l']
  | .bool value => boolWord value
  | .number spelling => spelling
  | .string content => content.write
  | .array items => layout.enclose level '[' ']' (Value.writeItems layout (level + 1) items)
  | .object entries =>
    layout.enclose level '\x7b' '\x7d' (Value.writeEntries layout (level + 1) entries)

/-- The forms of items at some level. -/
def Value.writeItems (layout : Layout) (level : Nat) : List Value → List (List Char)
  | [] => []
  | item :: rest => Value.write layout level item :: Value.writeItems layout level rest

/-- The forms of entries at some level. -/
def Value.writeEntries (layout : Layout) (level : Nat) :
    List (Content × Value) → List (List Char)
  | [] => []
  | (name, value) :: rest =>
    (name.write ++ ':' :: layout.afterColon ++ Value.write layout level value) ::
      Value.writeEntries layout level rest

end

/-- The value on one line. -/
def Value.compact (value : Value) : String := String.ofList (value.write .oneLine 0)

/-- The value on indented lines. -/
def Value.pretty (value : Value) : String := String.ofList (value.write .indented 0)

end SignedRefs.Json
