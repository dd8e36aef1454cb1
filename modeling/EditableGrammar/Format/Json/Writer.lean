import EditableGrammar.Format.Json.Token

set_option autoImplicit false

/-!
# Writing JSON strings

A string is written with as few escapes as the format allows: the quote and the backslash stand
behind a backslash, control characters have a letter of their own or are written by number, and all
else stands as it is.
-/

namespace EditableGrammar

namespace Json

/-- A hexadecimal digit, in lower case. -/
def hexDigit (n : Nat) : Char :=
  if n < 10 then Char.ofNat ('0'.toNat + n) else Char.ofNat ('a'.toNat + (n - 10))

/-- How a character is written inside a string. -/
def escapeChar (c : Char) : List Char :=
  if c = '"' then ['\\', '"']
  else if c = '\\' then ['\\', '\\']
  else if c = '\x08' then ['\\', 'b']
  else if c = '\x0c' then ['\\', 'f']
  else if c = '\n' then ['\\', 'n']
  else if c = '\r' then ['\\', 'r']
  else if c = '\t' then ['\\', 't']
  else if c.toNat < 0x20 then
    ['\\', 'u', '0', '0', hexDigit (c.toNat / 16), hexDigit (c.toNat % 16)]
  else [c]

/-- A string as it is written, with its quotes. -/
def quote (text : String) : List Char := '"' :: text.toList.flatMap escapeChar ++ ['"']

/-- Items between brackets, with commas between them. -/
def bracketed (items : List (List Char)) : List Char :=
  '[' :: [','].intercalate items ++ [']']

end Json

end EditableGrammar
