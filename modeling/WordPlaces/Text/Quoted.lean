import WordPlaces.Text.Printable

/-!
# Quoted text

A text between double quotes, with escapes for the characters that would not show: a backslash
before quotes and backslashes, short escapes for the common controls, and the code point in
hexadecimal for all others.

## Main definitions

* `quoted` — a text in quotes.
* `escaped` — how a character is written between the quotes.
-/

set_option autoImplicit false

namespace WordPlaces.Text

/-- How a character is written between quotes. -/
def escaped (c : Char) : String :=
  if c = '\x00' then "\\0"
  else if c = '\t' then "\\t"
  else if c = '\r' then "\\r"
  else if c = '\n' then "\\n"
  else if c = '\\' then "\\\\"
  else if c = '"' then "\\\""
  else if isUnprintable c || extendsGrapheme c then
    "\\u\x7b" ++ String.ofList (Nat.toDigits 16 c.toNat) ++ "\x7d"
  else c.toString

/-- A text in double quotes, with escapes. -/
def quoted (text : String) : String :=
  text.foldl (fun written c => written ++ escaped c) "\"" ++ "\""

end WordPlaces.Text
