import SignedRefs.Text.Unprintable

/-!
# Quoted Text

Messages show the text they complain about between quotes, unambiguously: a tab, a line break, a
NUL, a backslash and the quote itself are written with a backslash, and an unprintable character by
its number.
-/

namespace SignedRefs.Text

/-- The form of a character between the given quotes. -/
def escape (quote c : Char) : List Char :=
  if c = '\t' then ['\\', 't']
  else if c = '\r' then ['\\', 'r']
  else if c = '\n' then ['\\', 'n']
  else if c.toNat = 0 then ['\\', '0']
  else if c = '\\' ∨ c = quote then ['\\', c]
  else if isUnprintable c then ['\\', 'u', '\x7b'] ++ Nat.toDigits 16 c.toNat ++ ['\x7d']
  else [c]

/-- A text between double quotes. -/
def quoted (text : String) : String :=
  String.ofList ('"' :: text.toList.flatMap (escape '"') ++ ['"'])

/-- A character between single quotes. -/
def quotedChar (c : Char) : String :=
  String.ofList ('\'' :: escape '\'' c ++ ['\''])

end SignedRefs.Text
