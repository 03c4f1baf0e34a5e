import SignedRefs.Json.Token

/-!
# Reading JSON

The tokens of a text make a value if they are nested properly. `Value.ofTokens?` goes through them
once and keeps the arrays and objects that are still open in a list, so there is no limit on how
deep they may be nested.
-/

namespace SignedRefs.Json

/-- An open array or object that waits for a value. Lists have their latest element first. -/
inductive Frame
  /-- An array with the items so far. -/
  | array (items : List Value)
  /-- An object with the entries so far and the name of the next one. -/
  | object (entries : List (Content × Value)) (name : Content)

/-- What the tokens so far mean for the next one. All states but the last hold what is open around
them, the innermost first. -/
inductive Progress
  /-- A value has to follow. -/
  | expectValue (around : List Frame)
  /-- The first item of an array or its end has to follow. -/
  | firstItem (around : List Frame)
  /-- The next item of an array or its end has to follow. -/
  | afterItem (around : List Frame) (items : List Value)
  /-- The first name of an object or its end has to follow. -/
  | firstName (around : List Frame)
  /-- A name has to follow. -/
  | expectName (around : List Frame) (entries : List (Content × Value))
  /-- A colon has to follow. -/
  | expectColon (around : List Frame) (entries : List (Content × Value)) (name : Content)
  /-- The next entry of an object or its end has to follow. -/
  | afterEntry (around : List Frame) (entries : List (Content × Value))
  /-- Nothing may follow. -/
  | done (value : Value)

namespace Progress

/-- Puts a finished value where one was waited for. -/
def complete (around : List Frame) (value : Value) : Progress :=
  match around with
  | [] => .done value
  | .array items :: around => .afterItem around (value :: items)
  | .object entries name :: around => .afterEntry around ((name, value) :: entries)

/-- Takes the first token of a value. -/
def begin? (around : List Frame) : Token → Option Progress
  | .null => some (complete around .null)
  | .bool value => some (complete around (.bool value))
  | .number spelling => some (complete around (.number spelling))
  | .string content => some (complete around (.string content))
  | .beginArray => some (.firstItem around)
  | .beginObject => some (.firstName around)
  | _ => none

/-- Takes the next token. -/
def step : Progress → Token → Option Progress
  | .expectValue around, token => begin? around token
  | .firstItem around, .endArray => some (complete around (.array []))
  | .firstItem around, token => begin? (.array [] :: around) token
  | .afterItem around items, .comma => some (.expectValue (.array items :: around))
  | .afterItem around items, .endArray => some (complete around (.array items.reverse))
  | .firstName around, .endObject => some (complete around (.object []))
  | .firstName around, .string name => some (.expectColon around [] name)
  | .expectName around entries, .string name => some (.expectColon around entries name)
  | .expectColon around entries name, .colon => some (.expectValue (.object entries name :: around))
  | .afterEntry around entries, .comma => some (.expectName around entries)
  | .afterEntry around entries, .endObject => some (complete around (.object entries.reverse))
  | _, _ => none

/-- The value, if it is complete. -/
def finish? : Progress → Option Value
  | .done value => some value
  | _ => none

end Progress

namespace Value

/-- The value that tokens make. -/
def ofTokens? (tokens : List Token) : Option Value :=
  (tokens.foldlM Progress.step (Progress.expectValue [])).bind Progress.finish?

/-- The value that a text spells. -/
def parse? (text : String) : Option Value := (Token.ofText? text).bind ofTokens?

mutual

/-- Whether no string in a value holds an unescaped control character, so that the value may stand
where it is not looked at. -/
def isIgnorable : Value → Bool
  | .string content => content.all isIgnorableItem
  | .array items => areIgnorable items
  | .object entries => areIgnorableEntries entries
  | _ => true

/-- Whether that holds for all items. -/
def areIgnorable : List Value → Bool
  | [] => true
  | item :: rest => isIgnorable item && areIgnorable rest

/-- Whether that holds for all names and values. -/
def areIgnorableEntries : List (Content × Value) → Bool
  | [] => true
  | (name, value) :: rest =>
    name.all isIgnorableItem && isIgnorable value && areIgnorableEntries rest

/-- Whether a piece of a string is no unescaped control character. -/
def isIgnorableItem : StringItem → Bool
  | .control _ => false
  | _ => true

end

end Value

/-! ### Records -/

/-- The fields of a record, read from an object by their names or from an array by their order. -/
structure Record where
  /-- The fields that are there. -/
  fields : List (String × Value)
  /-- Whether they come from an array. -/
  positional : Bool

namespace Record

/-- The entries of an object that have one of these names. Other entries are passed over. -/
def known (names : List String) : List (Content × Value) → Option (List (String × Value))
  | [] => some []
  | (content, value) :: rest =>
    match content.text? with
    | none => none
    | some name =>
      if names.contains name then (known names rest).map ((name, value) :: ·)
      else if value.isIgnorable then known names rest
      else none

/-- The fields with these names. None may occur twice, and an array may not be longer. -/
def ofValue? (names : List String) : Value → Option Record
  | .object entries =>
    match known names entries with
    | none => none
    | some fields => if (fields.map Prod.fst).Nodup then some ⟨fields, false⟩ else none
  | .array items =>
    if items.length ≤ names.length then some ⟨names.zip items, true⟩ else none
  | _ => none

/-- A field that may be missing, and then has a value of its own. -/
def getD {α : Type} (r : Record) (name : String) (read : Value → Option α) (default : α) :
    Option α :=
  match r.fields.lookup name with
  | some value => read value
  | none => some default

/-- A field that has to be there. -/
def get? {α : Type} (r : Record) (name : String) (read : Value → Option α) : Option α :=
  (r.fields.lookup name).bind read

end Record

/-- The value, or nothing for a null. -/
def Value.orNull? {α : Type} (read : Value → Option α) : Value → Option (Option α)
  | .null => some none
  | value => (read value).map some

/-- The name and the body of an object with one entry. -/
def Value.tagged? : Value → Option (String × Value)
  | .object [(content, body)] => content.text?.map (·, body)
  | _ => none

/-- The name of a choice without a body, which may also be written with a null as its body. -/
def Value.choice? : Value → Option String
  | .string content => content.text?
  | .object [(content, .null)] => content.text?
  | _ => none

end SignedRefs.Json
